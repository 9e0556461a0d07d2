import Columnar.Attempt

/-!
# Outcomes of several steps

What is done in steps succeeds exactly when every step does. `bind_eq_ok_iff` takes two steps apart.
A run over many inputs is its first step and the run over the others (`runAll_cons`), so where it
ends is a fold of the steps (`reached_runAll`). A caller who goes on after refusals takes all steps
(`takeAll`), and two machines that answer every step alike cannot be told apart by that
(`takeAll_simulates`).
-/

set_option autoImplicit false
set_option relaxedAutoImplicit false

namespace Columnar

namespace Outcome

variable {α β : Type}

@[simp]
theorem ok_bind (value : α) (next : α → Outcome β) : (Except.ok value >>= next) = next value := rfl

@[simp]
theorem error_bind (fault : Fault) (next : α → Outcome β) :
    ((Except.error fault : Outcome α) >>= next) = .error fault := rfl

theorem bind_eq_ok_iff {first : Outcome α} {next : α → Outcome β} {result : β} :
    (first >>= next) = .ok result ↔ ∃ value, first = .ok value ∧ next value = .ok result := by
  cases first with
  | error fault => simp
  | ok value => simp

/-- A check that is passed before the result is given. -/
theorem check_eq_ok_iff {check : Outcome Unit} {value result : α} :
    (check >>= fun _ ↦ (.ok value : Outcome α)) = .ok result ↔ check = .ok () ∧ result = value := by
  rw [bind_eq_ok_iff]
  constructor
  · rintro ⟨⟨⟩, hcheck, hresult⟩
    cases hresult
    exact ⟨hcheck, rfl⟩
  · rintro ⟨hcheck, rfl⟩
    exact ⟨(), hcheck, rfl⟩

theorem require_eq_ok_iff {argument condition : String} {holds : Bool} :
    Fault.require argument condition holds = .ok () ↔ holds = true := by
  cases holds <;> simp [Fault.require]

/-- A step that succeeds on every input succeeds on all of them, place by place. -/
theorem exists_mapM {step : α → Outcome β} {inputs : List α}
    (h : ∀ input ∈ inputs, ∃ result, step input = .ok result) :
    ∃ results, inputs.mapM step = .ok results ∧ results.length = inputs.length ∧
      ∀ (place : Nat) (input : α) (result : β), inputs[place]? = some input →
        results[place]? = some result → step input = .ok result := by
  induction inputs with
  | nil => exact ⟨[], rfl, rfl, nofun⟩
  | cons input rest ih =>
    obtain ⟨result, hresult⟩ := h input List.mem_cons_self
    obtain ⟨results, hresults, hlength, hplaces⟩ := ih fun other hother ↦
      h other (List.mem_cons_of_mem _ hother)
    refine ⟨result :: results, ?_, congrArg (· + 1) hlength, ?_⟩
    · rw [List.mapM_cons, hresult, ok_bind, hresults, ok_bind]
      rfl
    · intro place other found hother hfound
      cases place with
      | zero =>
        cases hother
        cases hfound
        exact hresult
      | succ place => exact hplaces place other found hother hfound

/-- Steps that do the same on every input end in the same. -/
theorem foldlM_congr {step other : β → α → Outcome β} {inputs : List α}
    (h : ∀ state, ∀ input ∈ inputs, step state input = other state input) (state : β) :
    inputs.foldlM step state = inputs.foldlM other state := by
  induction inputs generalizing state with
  | nil => rfl
  | cons input rest ih =>
    rw [List.foldlM_cons, List.foldlM_cons, h state input List.mem_cons_self]
    congr 1
    funext next
    exact ih (fun state other hother ↦ h state other (List.mem_cons_of_mem _ hother)) next

/-- What every successful step keeps is true after all of them. -/
theorem of_foldlM (invariant : β → Prop) {step : β → α → Outcome β}
    (hstep : ∀ state input next, invariant state → step state input = .ok next → invariant next)
    {inputs : List α} {state result : β} (h : inputs.foldlM step state = .ok result)
    (hstate : invariant state) : invariant result := by
  induction inputs generalizing state with
  | nil =>
    cases h
    exact hstate
  | cons input rest ih =>
    rw [List.foldlM_cons] at h
    obtain ⟨next, hnext, h⟩ := bind_eq_ok_iff.mp h
    exact ih h (hstep state input next hstate hnext)

end Outcome

namespace Attempt

variable {S A B V O : Type}

/-- The same attempt with another answer. -/
def mapAnswer (f : A → B) : Attempt S A → Attempt S B
  | done answer state => done (f answer) state
  | refused fault state => refused fault state

@[simp]
theorem reached_mapAnswer (f : A → B) (attempt : Attempt S A) :
    (attempt.mapAnswer f).reached = attempt.reached := by
  cases attempt <;> rfl

variable (step : S → V → Attempt S A) (observe : A → S → O)

/-- What was seen before the run comes first in its answer. -/
theorem go_eq_mapAnswer (state : S) (inputs : List V) (seen : Array O) :
    runAll.go step observe state inputs seen =
      (runAll step observe state inputs).mapAnswer (seen.toList ++ ·) := by
  induction inputs generalizing state seen with
  | nil => simp [runAll, runAll.go, mapAnswer]
  | cons input rest ih =>
    unfold runAll runAll.go
    cases step state input with
    | refused fault next => rfl
    | done answer next =>
      simp only
      rw [ih next (seen.push _), ih next (#[].push _)]
      cases runAll step observe next rest <;> simp [mapAnswer]

theorem runAll_cons (state : S) (input : V) (rest : List V) :
    runAll step observe state (input :: rest) =
      match step state input with
      | done answer next => (runAll step observe next rest).mapAnswer (observe answer next :: ·)
      | refused fault next => refused fault next := by
  conv => lhs; unfold runAll runAll.go
  cases step state input with
  | refused fault next => rfl
  | done answer next => exact go_eq_mapAnswer step observe next rest _

/-- A run that goes on after its inputs. -/
theorem runAll_append_singleton {state middle next : S} {inputs : List V} {answers : List O}
    {input : V} {answer : A} (hrun : runAll step observe state inputs = .done answers middle)
    (hstep : step middle input = .done answer next) :
    runAll step observe state (inputs ++ [input]) =
      .done (answers ++ [observe answer next]) next := by
  induction inputs generalizing state answers with
  | nil =>
    cases hrun
    rw [List.nil_append, runAll_cons, hstep]
    rfl
  | cons first rest ih =>
    rw [runAll_cons] at hrun
    rw [List.cons_append, runAll_cons]
    cases hfirst : step state first with
    | refused fault next =>
      rw [hfirst] at hrun
      contradiction
    | done firstAnswer firstNext =>
      rw [hfirst] at hrun
      simp only at hrun ⊢
      cases hrest : runAll step observe firstNext rest with
      | refused fault next =>
        rw [hrest] at hrun
        contradiction
      | done restAnswers last =>
        rw [hrest] at hrun
        cases hrun
        rw [ih hrest]
        rfl

theorem reached_runAll (state : S) (inputs : List V) :
    (runAll step observe state inputs).reached =
      inputs.foldlM (fun state input ↦ (step state input).reached) state := by
  induction inputs generalizing state with
  | nil => rfl
  | cons input rest ih =>
    rw [runAll_cons, List.foldlM_cons]
    cases step state input with
    | refused fault next => rfl
    | done answer next =>
      rw [reached_mapAnswer, ih]
      rfl

/-! ### Going on after refusals -/

/-- The step that replaces the state, or leaves it when that is refused. -/
def replace (state : S) : Outcome S → Attempt S Unit
  | .ok next => done () next
  | .error fault => refused fault state

/-- Takes a step for each input, refused or not: what each came to, and the state after all. -/
def takeAll (state : S) : List V → List (Outcome A) × S
  | [] => ([], state)
  | input :: rest =>
    let (outcomes, last) := takeAll (step state input).state rest
    ((step state input).outcome :: outcomes, last)

/-- Two machines that answer alike in related states, and stay related, answer alike for ever. -/
theorem takeAll_simulates {T : Type} {other : T → V → Attempt T A} {Related : S → T → Prop}
    (hstep : ∀ state model input, Related state model →
      (step state input).outcome = (other model input).outcome ∧
        Related (step state input).state (other model input).state)
    {state : S} {model : T} (h : Related state model) (inputs : List V) :
    (takeAll step state inputs).1 = (takeAll other model inputs).1 ∧
      Related (takeAll step state inputs).2 (takeAll other model inputs).2 := by
  induction inputs generalizing state model with
  | nil => exact ⟨rfl, h⟩
  | cons input rest ih =>
    obtain ⟨houtcome, hnext⟩ := hstep state model input h
    obtain ⟨houtcomes, hlast⟩ := ih hnext
    refine ⟨?_, hlast⟩
    show (step state input).outcome :: _ = (other model input).outcome :: _
    rw [houtcome, houtcomes]

end Attempt

end Columnar
