import Mathlib.Algebra.Order.Ring.Nat
import Mathlib.Data.List.TakeWhile

/-!
# Slices of sorted rows

In rows that are sorted by a key, the rows with keys in an interval are those between two
partition points.
-/
namespace SortedSlices

variable {α : Type} {key : α → Nat} {rows : List α} {a row : α} {start stop : Nat}

/-- How many rows come before the first that misses the predicate. -/
def partitionPoint (p : α → Bool) (rows : List α) : Nat := (rows.takeWhile p).length

/-- The positions between which the keys lie in an interval. -/
def rangeOf (key : α → Nat) (rows : List α) (start stop : Nat) : Nat × Nat :=
  (partitionPoint (fun row => key row < start) rows, partitionPoint (fun row => key row < stop) rows)

def part (rows : List α) (range : Nat × Nat) : List α :=
  (rows.drop range.1).take (range.2 - range.1)

def SortedBy (key : α → Nat) (rows : List α) : Prop := rows.Pairwise fun a b => key a ≤ key b

theorem partitionPoint_cons_of_pos {p : α → Bool} (h : p row = true) :
    partitionPoint p (row :: rows) = partitionPoint p rows + 1 := by
  rw [partitionPoint, List.takeWhile_cons_of_pos h, List.length_cons, partitionPoint]

theorem partitionPoint_cons_of_neg {p : α → Bool} (h : ¬ p row = true) :
    partitionPoint p (row :: rows) = 0 := by
  rw [partitionPoint, List.takeWhile_cons_of_neg h, List.length_nil]

theorem partitionPoint_eq_zero {p : α → Bool} (h : ∀ row ∈ rows, ¬ p row = true) :
    partitionPoint p rows = 0 := by
  cases rows with
  | nil => rfl
  | cons row rows => exact partitionPoint_cons_of_neg (h row List.mem_cons_self)

theorem part_rangeOf (hs : SortedBy key rows) (hle : start ≤ stop) :
    part rows (rangeOf key rows start stop) =
      rows.filter fun row => start ≤ key row && key row < stop := by
  induction rows with
  | nil => rfl
  | cons row rows ih =>
    obtain ⟨hfirst, hrest⟩ := List.pairwise_cons.mp hs
    have hih := ih hrest
    rw [part, rangeOf] at hih ⊢
    by_cases hlow : key row < start
    · rw [partitionPoint_cons_of_pos (by simpa using hlow),
        partitionPoint_cons_of_pos (by simp; omega), List.drop_succ_cons, Nat.add_sub_add_right,
        hih, List.filter_cons_of_neg (by simp; omega)]
    · have hlate : ∀ a ∈ rows, start ≤ key a := fun a ha =>
        Nat.le_trans (Nat.not_lt.mp hlow) (hfirst a ha)
      have hzero : partitionPoint (fun row => key row < start) rows = 0 :=
        partitionPoint_eq_zero (by simpa using hlate)
      rw [hzero, List.drop_zero, Nat.sub_zero] at hih
      rw [partitionPoint_cons_of_neg (by simpa using hlow), List.drop_zero, Nat.sub_zero]
      by_cases hhigh : key row < stop
      · rw [partitionPoint_cons_of_pos (by simpa using hhigh), List.take_succ_cons, hih,
          List.filter_cons_of_pos (by simp; omega)]
      · rw [partitionPoint_cons_of_neg (by simpa using hhigh), List.take_zero]
        refine (List.filter_eq_nil_iff.mpr fun a ha => ?_).symm
        have hge : stop ≤ key a := by
          rcases List.mem_cons.mp ha with rfl | ha
          · exact Nat.not_lt.mp hhigh
          · exact Nat.le_trans (Nat.not_lt.mp hhigh) (hfirst a ha)
        simp
        omega

end SortedSlices
