import Mathlib.Data.List.Basic

/-!
# Lines that are ended

The lines of a text end with a separator. What comes behind the last one is not a line yet.
-/
namespace Axe.Lines

variable {α : Type} [DecidableEq α] {sep c : α} {l p q read rest tail : List α}

/-- The lines of a text behind what has been read of the first. -/
def endedFrom (sep : α) : List α → List α → List (List α)
  | _, [] => []
  | read, c :: rest =>
    if c = sep then read :: endedFrom sep [] rest else endedFrom sep (read ++ [c]) rest

def ended (sep : α) (text : List α) : List (List α) := endedFrom sep [] text

theorem endedFrom_append_cons (h : sep ∉ l) :
    endedFrom sep read (l ++ sep :: rest) = (read ++ l) :: ended sep rest := by
  induction l generalizing read with
  | nil => rw [List.nil_append, endedFrom, if_pos rfl, List.append_nil, ended]
  | cons c l ih =>
    rw [List.mem_cons, not_or] at h
    rw [List.cons_append, endedFrom, if_neg (Ne.symm h.1), ih h.2, List.append_assoc]
    rfl

theorem endedFrom_of_not_mem (h : sep ∉ l) : endedFrom sep read l = [] := by
  induction l generalizing read with
  | nil => rfl
  | cons c l ih =>
    rw [List.mem_cons, not_or] at h
    rw [endedFrom, if_neg (Ne.symm h.1), ih h.2]

/-- More text only adds lines. -/
theorem endedFrom_prefix (h : p <+: q) : endedFrom sep read p <+: endedFrom sep read q := by
  obtain ⟨more, rfl⟩ := h
  induction p generalizing read with
  | nil => exact List.nil_prefix
  | cons c p ih =>
    rw [List.cons_append, endedFrom, endedFrom]
    split
    · exact List.cons_prefix_cons.mpr ⟨rfl, ih⟩
    · exact ih

theorem ended_prefix (h : p <+: q) : ended sep p <+: ended sep q := endedFrom_prefix h

theorem ended_flatMap {lines : List (List α)} (hlines : ∀ l ∈ lines, sep ∉ l) (htail : sep ∉ tail) :
    ended sep (lines.flatMap (· ++ [sep]) ++ tail) = lines := by
  induction lines with
  | nil => exact endedFrom_of_not_mem htail
  | cons l lines ih =>
    obtain ⟨hl, hrest⟩ := List.forall_mem_cons.mp hlines
    rw [List.flatMap_cons, List.append_assoc, List.append_assoc, List.singleton_append, ended,
      endedFrom_append_cons hl, ih hrest, List.nil_append]

end Axe.Lines
