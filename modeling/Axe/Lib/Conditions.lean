import Mathlib.Algebra.Order.Ring.Nat

/-!
# Conditional jumps of x86-64

A comparison subtracts and keeps the flags only. A conditional jump is taken by a condition on
the flags; the unsigned and the signed orders are read off different ones.
-/
namespace X86

structure Flags where
  carry : Bool
  zero : Bool
  sign : Bool
  overflow : Bool
  parity : Bool

/-- The flags of `cmp x, y`. -/
def compareFlags (x y : BitVec 64) : Flags where
  carry := x.ult y
  zero := x == y
  sign := (x - y).msb
  overflow := x.ssubOverflow y
  parity := (List.range 8).countP (x - y).getLsbD % 2 == 0

inductive Condition
  | o | no | b | ae | e | ne | be | a | s | ns | p | np | l | ge | le | g
  deriving DecidableEq

@[grind =] def Condition.holds (f : Flags) : Condition → Bool
  | .o => f.overflow
  | .no => !f.overflow
  | .b => f.carry
  | .ae => !f.carry
  | .e => f.zero
  | .ne => !f.zero
  | .be => f.carry || f.zero
  | .a => !(f.carry || f.zero)
  | .s => f.sign
  | .ns => !f.sign
  | .p => f.parity
  | .np => !f.parity
  | .l => f.sign != f.overflow
  | .ge => f.sign == f.overflow
  | .le => f.zero || f.sign != f.overflow
  | .g => !f.zero && f.sign == f.overflow

/-- The names of the conditional jumps. -/
def jumpConditions : List (String × Condition) :=
  [("jo", .o), ("jno", .no), ("jb", .b), ("jnae", .b), ("jc", .b), ("jae", .ae), ("jnb", .ae),
    ("jnc", .ae), ("je", .e), ("jz", .e), ("jne", .ne), ("jnz", .ne), ("jbe", .be),
    ("jna", .be), ("ja", .a), ("jnbe", .a), ("js", .s), ("jns", .ns), ("jp", .p), ("jpe", .p),
    ("jnp", .np), ("jpo", .np), ("jl", .l), ("jnge", .l), ("jge", .ge), ("jnl", .ge),
    ("jle", .le), ("jng", .le), ("jg", .g), ("jnle", .g)]

def conditionOf (mnemonic : String) : Option Condition := jumpConditions.lookup mnemonic

/-- The conditions on the order of signed numbers. -/
def Condition.IsSigned (c : Condition) : Prop := c ∈ [.l, .ge, .le, .g]

instance (c : Condition) : Decidable c.IsSigned := inferInstanceAs (Decidable (_ ∈ _))

variable {x y : BitVec 64}

theorem sign_ne_overflow :
    ((compareFlags x y).sign != (compareFlags x y).overflow) = decide (x.toInt < y.toInt) := by
  have hx := BitVec.toInt_eq_toNat_cond x
  have hy := BitVec.toInt_eq_toNat_cond y
  have hd : (x - y).toInt = _ := BitVec.toInt_sub
  have hxl := x.isLt
  have hyl := y.isLt
  rw [Int.bmod_def] at hd
  have hov : (compareFlags x y).overflow = true ↔
      2 ^ 63 ≤ x.toInt - y.toInt ∨ x.toInt - y.toInt < -2 ^ 63 := by
    simp [compareFlags, BitVec.ssubOverflow]
  have hsign : (compareFlags x y).sign = true ↔ (x - y).toInt < 0 := by
    simp [compareFlags, BitVec.msb_eq_toInt]
  rw [Bool.eq_iff_iff, bne_iff_ne, ne_eq, Bool.eq_iff_iff, hov, hsign, decide_eq_true_iff, hd]
  split at hx <;> split at hy <;> omega

section Orders

theorem holds_b : Condition.b.holds (compareFlags x y) = true ↔ x.toNat < y.toNat :=
  decide_eq_true_iff

theorem holds_ae : Condition.ae.holds (compareFlags x y) = true ↔ y.toNat ≤ x.toNat := by
  rw [Condition.holds, Bool.not_eq_true', ← Bool.not_eq_true, compareFlags, BitVec.ult,
    decide_eq_true_iff, not_lt]

theorem holds_e : Condition.e.holds (compareFlags x y) = true ↔ x.toNat = y.toNat := by
  rw [Condition.holds, compareFlags, beq_iff_eq, BitVec.toNat_inj]

theorem holds_be : Condition.be.holds (compareFlags x y) = true ↔ x.toNat ≤ y.toNat := by
  rw [Condition.holds, Bool.or_eq_true, Nat.le_iff_lt_or_eq]
  exact or_congr holds_b holds_e

theorem holds_a : Condition.a.holds (compareFlags x y) = true ↔ y.toNat < x.toNat := by
  rw [Condition.holds, Bool.not_eq_true', ← Bool.not_eq_true, ← not_le]
  exact not_congr holds_be

theorem holds_l : Condition.l.holds (compareFlags x y) = true ↔ x.toInt < y.toInt := by
  rw [Condition.holds, sign_ne_overflow, decide_eq_true_iff]

theorem holds_ge : Condition.ge.holds (compareFlags x y) = true ↔ y.toInt ≤ x.toInt := by
  rw [← not_lt, ← holds_l, Condition.holds, Condition.holds, bne, Bool.not_eq_true',
    Bool.not_eq_false]

theorem holds_le : Condition.le.holds (compareFlags x y) = true ↔ x.toInt ≤ y.toInt := by
  rw [Condition.holds, Bool.or_eq_true, le_iff_lt_or_eq, or_comm]
  exact or_congr holds_l (holds_e.trans (BitVec.toNat_inj.trans BitVec.toInt_inj.symm))

theorem holds_g : Condition.g.holds (compareFlags x y) = true ↔ y.toInt < x.toInt := by
  rw [← not_le, ← holds_le, Condition.holds, Condition.holds, bne]
  cases (compareFlags x y).zero <;> simp

end Orders

section Widths
variable {w : Nat} {a b imm : BitVec w} {h : Nat}

/-- The flags of a comparison of any width. -/
def comparedFlags (a b : BitVec w) : Flags where
  carry := a.ult b
  zero := decide (a = b)
  sign := (a - b).msb
  overflow := a.ssubOverflow b
  parity := (List.range 8).countP (a - b).getLsbD % 2 == 0

/-- The values that a conditional jump lets through are those up to a bound. -/
def LetsThrough (c : Condition) (imm : BitVec w) (h : Nat) : Prop :=
  ∀ a : BitVec w, c.holds (comparedFlags a imm) = false ↔ a.toNat ≤ h

theorem falls_b : Condition.b.holds (comparedFlags a b) = false ↔ b.toNat ≤ a.toNat := by
  rw [← Bool.not_eq_true, ← not_lt]
  exact not_congr decide_eq_true_iff

theorem falls_ae : Condition.ae.holds (comparedFlags a b) = false ↔ a.toNat < b.toNat := by
  rw [Condition.holds, Bool.not_eq_false']
  exact decide_eq_true_iff

theorem falls_e : Condition.e.holds (comparedFlags a b) = false ↔ a.toNat ≠ b.toNat := by
  rw [← Bool.not_eq_true, ne_eq, BitVec.toNat_inj]
  exact not_congr decide_eq_true_iff

theorem falls_ne : Condition.ne.holds (comparedFlags a b) = false ↔ a.toNat = b.toNat := by
  rw [Condition.holds, Bool.not_eq_false', BitVec.toNat_inj]
  exact decide_eq_true_iff

theorem falls_be : Condition.be.holds (comparedFlags a b) = false ↔ b.toNat < a.toNat := by
  have hb : Condition.b.holds (comparedFlags a b) = false ↔ _ := falls_b
  have he : Condition.e.holds (comparedFlags a b) = false ↔ _ := falls_e
  rw [Condition.holds, Bool.or_eq_false_iff]
  exact (and_congr hb he).trans (by omega)

theorem falls_a : Condition.a.holds (comparedFlags a b) = false ↔ a.toNat ≤ b.toNat := by
  have hbe : Condition.be.holds (comparedFlags a b) = false ↔ _ := falls_be
  rw [Condition.holds, Bool.not_eq_false', ← Bool.not_eq_false, ← not_lt]
  exact not_congr hbe

theorem toNat_ofNat_lt {n : Nat} (hn : n < 2 ^ w) : (BitVec.ofNat w n).toNat = n := by
  rw [BitVec.toNat_ofNat, Nat.mod_eq_of_lt hn]

/-- The bounds of a jump above: the immediate, or any from there on where no value is above. -/
theorem letsThrough_a :
    LetsThrough .a imm h ↔ imm.toNat = h ∨ imm.toNat + 1 = 2 ^ w ∧ imm.toNat ≤ h := by
  have hlt := imm.isLt
  constructor
  · intro hall
    have hself := (hall imm).mp (falls_a.mpr (Nat.le_refl _))
    by_cases hmax : imm.toNat + 1 = 2 ^ w
    · exact .inr ⟨hmax, hself⟩
    · have hnext := hall (BitVec.ofNat w (imm.toNat + 1))
      rw [falls_a, toNat_ofNat_lt (by omega)] at hnext
      exact .inl (by omega)
  · intro hbound a
    have ha := a.isLt
    rw [falls_a]
    omega

/-- A jump above or equal lets through what is below the immediate. -/
theorem letsThrough_ae : LetsThrough .ae imm h ↔ imm.toNat = h + 1 := by
  have hlt := imm.isLt
  constructor
  · intro hall
    have hzero := hall (BitVec.ofNat w 0)
    have hself := hall imm
    have hbefore := hall (BitVec.ofNat w (imm.toNat - 1))
    rw [falls_ae, toNat_ofNat_lt (by omega)] at hzero hbefore
    rw [falls_ae] at hself
    omega
  · intro hbound a
    rw [falls_ae]
    omega

/-- A jump below lets all through or none of the least values. -/
theorem letsThrough_b : LetsThrough .b imm h ↔ imm.toNat = 0 ∧ 2 ^ w ≤ h + 1 := by
  have hlt := imm.isLt
  constructor
  · intro hall
    have hzero := hall (BitVec.ofNat w 0)
    have hlast := hall (BitVec.ofNat w (2 ^ w - 1))
    rw [falls_b, toNat_ofNat_lt (by omega)] at hzero hlast
    omega
  · rintro ⟨hzero, hbound⟩ a
    have ha := a.isLt
    rw [falls_b]
    omega

theorem letsThrough_be : ¬ LetsThrough .be imm h := by
  intro hall
  have hlt := imm.isLt
  have hzero := hall (BitVec.ofNat w 0)
  rw [falls_be, toNat_ofNat_lt (by omega)] at hzero
  omega

/-- A jump on equality lets through the values below the greatest one. -/
theorem letsThrough_e :
    LetsThrough .e imm h ↔ imm.toNat + 1 = 2 ^ w ∧ imm.toNat = h + 1 := by
  have hlt := imm.isLt
  constructor
  · intro hall
    have hzero := hall (BitVec.ofNat w 0)
    have hself := hall imm
    have hlast := hall (BitVec.ofNat w (2 ^ w - 1))
    have hbefore := hall (BitVec.ofNat w (imm.toNat - 1))
    rw [falls_e, toNat_ofNat_lt (by omega)] at hzero hlast hbefore
    rw [falls_e] at hself
    omega
  · rintro ⟨hmax, hbound⟩ a
    have ha := a.isLt
    rw [falls_e]
    omega

theorem letsThrough_ne (hw : 2 ≤ 2 ^ w) : LetsThrough .ne imm h ↔ imm.toNat = 0 ∧ h = 0 := by
  constructor
  · intro hall
    have hzero := hall (BitVec.ofNat w 0)
    have hone := hall (BitVec.ofNat w 1)
    rw [falls_ne, toNat_ofNat_lt (by omega)] at hzero hone
    omega
  · rintro ⟨hzero, rfl⟩ a
    rw [falls_ne]
    omega

/-- The bounds of the conditions that compare unsigned numbers, in terms of the immediate. -/
def Condition.Fits (c : Condition) (imm : BitVec w) (h : Nat) : Prop :=
  match c with
  | .a => imm.toNat = h ∨ imm.toNat + 1 = 2 ^ w ∧ imm.toNat ≤ h
  | .ae => imm.toNat = h + 1
  | .b => imm.toNat = 0 ∧ 2 ^ w ≤ h + 1
  | .be => False
  | .e => imm.toNat + 1 = 2 ^ w ∧ imm.toNat = h + 1
  | .ne => imm.toNat = 0 ∧ h = 0
  | .o | .no | .s | .ns | .p | .np | .l | .ge | .le | .g => LetsThrough c imm h

theorem letsThrough_iff_fits (hw : 2 ≤ 2 ^ w) (c : Condition) :
    LetsThrough c imm h ↔ c.Fits imm h := by
  cases c with
  | a => exact letsThrough_a
  | ae => exact letsThrough_ae
  | b => exact letsThrough_b
  | be => exact iff_false_intro letsThrough_be
  | e => exact letsThrough_e
  | ne => exact letsThrough_ne hw
  | o | no | s | ns | p | np | l | ge | le | g => exact Iff.rfl

end Widths
end X86
