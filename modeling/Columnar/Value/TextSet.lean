/-!
# Sets of texts

A set of texts is kept as the increasing list of its members, so two sets are equal exactly when
their lists are.
-/

set_option autoImplicit false
set_option relaxedAutoImplicit false

namespace Columnar

/-- Adds a text to an increasing list, unless it is there. -/
def insertText (text : String) : List String → List String
  | [] => [text]
  | head :: tail =>
    if text < head then text :: head :: tail
    else if head < text then head :: insertText text tail
    else head :: tail

theorem mem_insertText {text member : String} {texts : List String}
    (h : member ∈ insertText text texts) : member = text ∨ member ∈ texts := by
  induction texts with
  | nil => simpa [insertText] using h
  | cons head tail ih =>
    unfold insertText at h
    split at h
    · simpa using h
    · split at h
      · rcases List.mem_cons.mp h with rfl | h
        · simp
        · rcases ih h with rfl | h <;> simp [*]
      · exact .inr h

theorem pairwise_insertText (text : String) {texts : List String}
    (h : texts.Pairwise (· < ·)) : (insertText text texts).Pairwise (· < ·) := by
  induction texts with
  | nil => simp [insertText]
  | cons head tail ih =>
    rw [List.pairwise_cons] at h
    unfold insertText
    split
    · next hlt =>
      refine List.pairwise_cons.mpr ⟨fun member hmember ↦ ?_, List.pairwise_cons.mpr h⟩
      rcases List.mem_cons.mp hmember with rfl | hmember
      · exact hlt
      · exact String.lt_trans hlt (h.1 member hmember)
    · split
      · next hlt =>
        refine List.pairwise_cons.mpr ⟨fun member hmember ↦ ?_, ih h.2⟩
        rcases mem_insertText hmember with rfl | hmember
        · exact hlt
        · exact h.1 member hmember
      · exact List.pairwise_cons.mpr h

structure TextSet where
  texts : List String
  increasing : texts.Pairwise (· < ·)
  deriving DecidableEq, Repr

namespace TextSet

def empty : TextSet := ⟨[], .nil⟩

def insert (set : TextSet) (text : String) : TextSet :=
  ⟨insertText text set.texts, pairwise_insertText text set.increasing⟩

def ofList (texts : List String) : TextSet := texts.foldl insert empty

def size (set : TextSet) : Nat := set.texts.length

def contains (set : TextSet) (text : String) : Bool := set.texts.contains text

end TextSet

end Columnar
