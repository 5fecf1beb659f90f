import Mathlib.Algebra.Order.Ring.Nat
import Mathlib.Logic.Function.Basic

/-!
# The integer core of x86-64

General-purpose registers with their parts, little-endian memory,
and the two-operand arithmetic, logic and shift instructions.
-/
namespace X86

inductive Reg where
  | rax | rbx | rcx | rdx | rsi | rdi | rsp | rbp
  | r8 | r9 | r10 | r11 | r12 | r13 | r14 | r15
  deriving DecidableEq, Repr

/-- The `w` bits of a register from bit `lo` on. -/
def readPart (lo w : Nat) (x : BitVec 64) : BitVec w := x.extractLsb' lo w

/-- A write of 32 bits clears the upper half; a smaller one keeps all other bits. -/
def writePart (lo : Nat) (x : BitVec 64) {w : Nat} (y : BitVec w) : BitVec 64 :=
  if 32 ≤ w then y.setWidth 64
  else (x &&& ~~~((BitVec.allOnes w).setWidth 64 <<< lo)) ||| y.setWidth 64 <<< lo

/-- A write of at least 32 bits sets the whole register. -/
theorem writePart_wide {w : Nat} (h : 32 ≤ w) (lo : Nat) (x : BitVec 64) (y : BitVec w) :
    writePart lo x y = y.setWidth 64 := if_pos h

abbrev Memory := BitVec 64 → BitVec 8

/-- The number stored in the `n` bytes from an address on, the lowest byte first. -/
def Memory.number (mem : Memory) (addr : BitVec 64) : Nat → Nat
  | 0 => 0
  | n + 1 => (mem (addr + BitVec.ofNat 64 n)).toNat * 256 ^ n + Memory.number mem addr n

theorem Memory.number_lt (mem : Memory) (addr : BitVec 64) (n : Nat) :
    mem.number addr n < 2 ^ (8 * n) := by
  induction n with
  | zero => simp [number]
  | succ n ih =>
    have hb := (mem (addr + BitVec.ofNat 64 n)).isLt
    have hpow : 2 ^ (8 * (n + 1)) = 256 * 2 ^ (8 * n) := by
      rw [Nat.mul_succ, Nat.pow_add]
      omega
    have h256 : 256 ^ n = 2 ^ (8 * n) := by rw [Nat.pow_mul]
    have hle := Nat.mul_le_mul_right (2 ^ (8 * n)) (Nat.succ_le_of_lt hb)
    rw [Nat.succ_mul] at hle
    rw [number, hpow, h256]
    omega

def Memory.load (mem : Memory) (addr : BitVec 64) (width : Nat) : BitVec width :=
  BitVec.ofNat width (mem.number addr (width / 8))

def Memory.store (mem : Memory) (addr : BitVec 64) {width : Nat} (x : BitVec width) : Memory :=
  fun a => if (a - addr).toNat < width / 8 then x.extractLsb' (8 * (a - addr).toNat) 8 else mem a

/-- The bytes of a store are those of the value. -/
theorem Memory.store_apply (mem : Memory) (addr : BitVec 64) {w : Nat} (x : BitVec w) {i : Nat}
    (hi : i < w / 8) (hw : w ≤ 64) :
    mem.store addr x (addr + BitVec.ofNat 64 i) = x.extractLsb' (8 * i) 8 := by
  have hsub : (addr + BitVec.ofNat 64 i - addr).toNat = i := by
    rw [BitVec.add_comm, BitVec.add_sub_cancel, BitVec.toNat_ofNat, Nat.mod_eq_of_lt (by omega)]
  rw [store, hsub, if_pos hi]

/-- What is stored is loaded again. -/
theorem Memory.load_store (mem : Memory) (addr : BitVec 64) {w : Nat} (x : BitVec w)
    (hw : w % 8 = 0) (hw' : w ≤ 64) : (mem.store addr x).load addr w = x := by
  have hnum : ∀ k ≤ w / 8, (mem.store addr x).number addr k = x.toNat % 2 ^ (8 * k) := by
    intro k hk
    induction k with
    | zero => simp [number, Nat.mod_one]
    | succ k ih =>
      have h256 : 256 ^ k = 2 ^ (8 * k) := by rw [Nat.pow_mul]
      rw [number, ih (by omega), store_apply mem addr x (by omega) hw', BitVec.extractLsb'_toNat,
        Nat.shiftRight_eq_div_pow, h256, Nat.mul_succ, Nat.pow_add, Nat.mod_mul,
        Nat.mul_comm (2 ^ (8 * k)), Nat.add_comm]
  apply BitVec.eq_of_toNat_eq
  have hwidth : 8 * (w / 8) = w := by omega
  rw [load, hnum _ le_rfl, hwidth, BitVec.toNat_ofNat, Nat.mod_mod, Nat.mod_eq_of_lt x.isLt]

structure Machine where
  regs : Reg → BitVec 64
  mem : Memory

inductive AluOp where
  | add | sub | imul | and | or | xor
  deriving DecidableEq, Repr

def AluOp.den {w : Nat} : AluOp → BitVec w → BitVec w → BitVec w
  | .add, x, y => x + y
  | .sub, x, y => x - y
  | .imul, x, y => x * y
  | .and, x, y => x &&& y
  | .or, x, y => x ||| y
  | .xor, x, y => x ^^^ y

inductive ShiftOp where
  | shl | shr | sar
  deriving DecidableEq, Repr

/-- The count is one byte, of which a shift uses 6 bits at 64 bits and 5 elsewhere. -/
def shiftCount (w : Nat) (count : BitVec 8) : Nat := count.toNat % if w = 64 then 64 else 32

def ShiftOp.den {w : Nat} (o : ShiftOp) (x : BitVec w) (count : BitVec 8) : BitVec w :=
  match o with
  | .shl => x <<< shiftCount w count
  | .shr => x >>> shiftCount w count
  | .sar => x.sshiftRight (shiftCount w count)

end X86
