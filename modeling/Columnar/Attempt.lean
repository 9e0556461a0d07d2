import Columnar.Fault

/-!
# Attempts

Writing changes a state step by step, and a step may be refused after it changed something. An
`Attempt` keeps the state in both cases: as the step was meant to leave it, or as the refusal did.
`runAll` takes a step for each of many inputs up to the first refusal.
-/

set_option autoImplicit false
set_option relaxedAutoImplicit false

namespace Columnar

inductive Attempt (S A : Type) where
  | done (answer : A) (state : S)
  | refused (fault : Fault) (state : S)

namespace Attempt

variable {S T A : Type}

def state : Attempt S A → S
  | done _ state | refused _ state => state

def outcome : Attempt S A → Outcome A
  | done answer _ => .ok answer
  | refused fault _ => .error fault

/-- The state that the step was meant to reach. -/
def reached : Attempt S A → Outcome S
  | done _ state => .ok state
  | refused fault _ => .error fault

/-- What leaves the state as it is, whatever comes of it. -/
def ofOutcome (state : S) : Outcome A → Attempt S A
  | .ok answer => done answer state
  | .error fault => refused fault state

/-- An attempt on a part of a larger state, which `wrap` puts together again. -/
def within (wrap : S → T) : Attempt S A → Attempt T A
  | done answer state => done answer (wrap state)
  | refused fault state => refused fault (wrap state)

@[simp]
theorem state_within (wrap : S → T) (attempt : Attempt S A) :
    (attempt.within wrap).state = wrap attempt.state := by
  cases attempt <;> rfl

/-- Takes a step for each input up to the first refusal, and answers with what `observe` makes of
the answer to each and of the state after it. -/
def runAll {V O : Type} (step : S → V → Attempt S A) (observe : A → S → O) (state : S)
    (inputs : List V) : Attempt S (List O) :=
  go state inputs #[]
where
  go (state : S) : List V → Array O → Attempt S (List O)
    | [], seen => done seen.toList state
    | input :: rest, seen =>
      match step state input with
      | done answer next => go next rest (seen.push (observe answer next))
      | refused fault next => refused fault next

end Attempt

end Columnar
