import Mathlib.Algebra.Order.Ring.Nat

/-!
# Fields of a word

A field is a run of bits. Writing one leaves the bits beside it as they are, so fields that do
not overlap are written and read independently.
-/
namespace BitFields

variable {n w u : Nat} {x : BitVec n} {f : BitVec w} {pos other i : Nat}

def mask (n pos w : Nat) : BitVec n := (BitVec.allOnes w).setWidth n <<< pos

def put (x : BitVec n) (pos : Nat) (f : BitVec w) : BitVec n :=
  (x &&& ~~~ mask n pos w) ||| (f.setWidth n <<< pos)

def get (x : BitVec n) (pos w : Nat) : BitVec w := x.extractLsb' pos w

def Apart (pos w other u : Nat) : Prop := pos + w ≤ other ∨ other + u ≤ pos

theorem getLsbD_mask :
    (mask n pos w).getLsbD i = decide (i < n ∧ pos ≤ i ∧ i < pos + w) := by
  rw [mask, BitVec.getLsbD_shiftLeft, BitVec.getLsbD_setWidth, BitVec.getLsbD_allOnes,
    Bool.eq_iff_iff]
  simp only [Bool.and_eq_true, Bool.not_eq_true', decide_eq_true_eq, decide_eq_false_iff_not]
  omega

theorem getLsbD_put :
    (put x pos f).getLsbD i =
      if pos ≤ i ∧ i < pos + w then decide (i < n) && f.getLsbD (i - pos) else x.getLsbD i := by
  rw [put, BitVec.getLsbD_or, BitVec.getLsbD_and, BitVec.getLsbD_not, getLsbD_mask,
    BitVec.getLsbD_shiftLeft, BitVec.getLsbD_setWidth]
  by_cases hn : i < n
  · by_cases hin : pos ≤ i ∧ i < pos + w
    · have hlt : i - pos < n := by omega
      simp [hn, hin, hlt]
    · rw [if_neg hin]
      by_cases hlow : i < pos
      · simp [hn, hlow, Nat.not_le.mpr hlow]
      · have hhigh : pos + w ≤ i := by omega
        simp [hn, hlow, Nat.not_lt.mpr hhigh, BitVec.getLsbD_of_ge f (i - pos) (by omega)]
  · simp [hn, BitVec.getLsbD_of_ge x i (by omega)]

theorem get_put (h : pos + w ≤ n) : get (put x pos f) pos w = f := by
  refine BitVec.eq_of_getLsbD_eq fun i hi => ?_
  rw [get, BitVec.getLsbD_extractLsb', getLsbD_put, if_pos (by omega)]
  simp [hi, show pos + i < n by omega]

/-- A field keeps its value when one beside it is written. -/
theorem get_put_of_apart (h : Apart pos w other u) : get (put x pos f) other u = get x other u := by
  refine BitVec.eq_of_getLsbD_eq fun i hi => ?_
  rw [get, get, BitVec.getLsbD_extractLsb', BitVec.getLsbD_extractLsb', getLsbD_put,
    if_neg (by rcases h with h | h <;> omega)]

theorem or_eq_put :
    x ||| ((BitVec.allOnes w).setWidth n <<< pos) = put x pos (BitVec.allOnes w) := by
  rw [put, ← mask]
  refine BitVec.eq_of_getLsbD_eq fun i hi => ?_
  rw [BitVec.getLsbD_or, BitVec.getLsbD_or, BitVec.getLsbD_and, BitVec.getLsbD_not]
  cases (mask n pos w).getLsbD i with
  | true => simp
  | false => simp [hi]

theorem and_not_eq_put : x &&& ~~~ mask n pos w = put x pos 0#w := by
  rw [put, BitVec.setWidth_zero, BitVec.zero_shiftLeft, BitVec.or_zero]

theorem get_eq_zero_iff :
    get x pos w = 0#w ↔ ∀ i, pos ≤ i → i < pos + w → x.getLsbD i = false := by
  constructor
  · intro hzero i hlow hhigh
    have hbit := congrArg (fun y => BitVec.getLsbD y (i - pos)) hzero
    simp only [get, BitVec.getLsbD_extractLsb', BitVec.getLsbD_zero] at hbit
    rwa [decide_eq_true (by omega), Bool.true_and, Nat.add_sub_cancel' hlow] at hbit
  · intro hbits
    refine BitVec.eq_of_getLsbD_eq fun i hi => ?_
    rw [get, BitVec.getLsbD_extractLsb', hbits (pos + i) (by omega) (by omega)]
    simp

end BitFields
