import Axe.Lib.Conditions
import Axe.Static.AbstractValues

/-!
# Refinement along the edges of a branch

A block that ends in a comparison with a number and a conditional jump narrows the compared
register on its two edges. The same bounds are taken for signed and for unsigned jumps.
-/
namespace Axe.Static

structure AbstractState where
  regs : Registers
  stack : StackSlots
  deriving DecidableEq

def AbstractState.empty : AbstractState := ⟨.empty, .empty⟩

def refineUpperBound (state : AbstractState) (reg : String) (hi : Word) (evidenceVa : Nat) :
    AbstractState :=
  { state with regs := state.regs.modify reg fun value => value.refineUpperBound hi evidenceVa }

def refineLowerBound (state : AbstractState) (reg : String) (lo : Word) (evidenceVa : Nat) :
    AbstractState :=
  { state with regs := state.regs.modify reg fun value => value.refineLowerBound lo evidenceVa }

def refineExactValue (state : AbstractState) (reg : String) (value : Word) (evidenceVa : Nat) :
    AbstractState :=
  { state with
    regs := state.regs.modify reg fun existing => existing.refineExactValue value evidenceVa }

/-- What a branch says about the compared register. -/
inductive Bound
  | upper (hi : Word)
  | lower (lo : Word)
  | exact (value : Word)
  deriving DecidableEq

def Bound.refine (bound : Bound) (state : AbstractState) (reg : String) (evidenceVa : Nat) :
    AbstractState :=
  match bound with
  | .upper hi => refineUpperBound state reg hi evidenceVa
  | .lower lo => refineLowerBound state reg lo evidenceVa
  | .exact value => refineExactValue state reg value evidenceVa

/-- The bound from a jump on the comparison with a number. -/
def boundOfJump (mnemonic : String) (taken fallthrough : Bool) (imm : Word) : Option Bound :=
  if ["jbe", "jle", "jng", "jna"].contains mnemonic then
    if taken then some (.upper imm)
    else if fallthrough then some (.lower (imm.saturatingAdd 1))
    else none
  else if ["jb", "jl", "jnge", "jnae"].contains mnemonic then
    if taken then some (.upper (imm.saturatingSub 1))
    else if fallthrough then some (.lower imm)
    else none
  else if ["jae", "jge", "jnl", "jnb"].contains mnemonic then
    if taken then some (.lower imm)
    else if fallthrough then some (.upper (imm.saturatingSub 1))
    else none
  else if ["ja", "jg", "jnle", "jnbe"].contains mnemonic then
    if taken then some (.lower (imm.saturatingAdd 1))
    else if fallthrough then some (.upper imm)
    else none
  else if ["je", "jz"].contains mnemonic then
    if taken then some (.exact imm) else none
  else none

def boundOnEdge (branch : IrInstruction) (edge : EdgeRecord) (imm : Word) : Option Bound :=
  let taken := decide (branch.directTarget = some edge.target)
  let fallthrough := decide (edge.edgeType = "fallthrough") && !taken
  boundOfJump branch.mnemonic taken fallthrough imm

/-- The last direct jump of the block and the last comparison of a lower address. -/
def refineStateForEdge (state : AbstractState) (blockIns : List IrInstruction)
    (edge : EdgeRecord) : AbstractState :=
  let refined : Option AbstractState := do
    let branch ← blockIns.reverse.find? fun ins => ins.isJump && ins.directTarget.isSome
    let cmp ← (blockIns.reverse.dropWhile fun ins => branch.address ≤ ins.address).find?
      fun ins => ["cmp", "test"].contains ins.mnemonic
    let reg ← cmp.readRegs.head?
    let imm ← cmp.immediate
    return (boundOnEdge branch edge imm).elim state fun bound => bound.refine state reg cmp.address
  refined.getD state

namespace AbstractValue

/-- A missing bound is no bound. -/
def Within (value : AbstractValue) (v : Word) : Prop :=
  (∀ lo, value.lo = some lo → lo ≤ v) ∧ ∀ hi, value.hi = some hi → v ≤ hi

def Ordered (value : AbstractValue) : Prop :=
  ∀ lo hi, value.lo = some lo → value.hi = some hi → lo ≤ hi

def least (value : AbstractValue) : Nat := (value.lo.getD 0).val

def greatest (value : AbstractValue) : Nat := (value.hi.getD (Fin.last _)).val

variable {value : AbstractValue} {v x : Word} {va : Nat}

theorem within_iff : value.Within v ↔ value.least ≤ v.val ∧ v.val ≤ value.greatest := by
  have hv := v.isLt
  have hlast : v.val ≤ (Fin.last (2 ^ 64 - 1)).val := by
    rw [Fin.val_last]
    omega
  rw [Within, least, greatest]
  refine and_congr ?_ ?_
  · cases value.lo with
    | none => exact ⟨fun _ => Nat.zero_le _, fun _ lo hlo => nomatch hlo⟩
    | some lo => exact ⟨fun h => h lo rfl, fun h lo' hlo => Option.some.inj hlo ▸ h⟩
  · cases value.hi with
    | none => exact ⟨fun _ => hlast, fun _ hi hhi => nomatch hhi⟩
    | some hi => exact ⟨fun h => h hi rfl, fun h hi' hhi => Option.some.inj hhi ▸ h⟩

theorem within_refineUpperBound (h : value.Within v) :
    (value.refineUpperBound x va).Within v ↔ v.val ≤ x.val := by
  have hv := v.isLt
  have hw := within_iff.mp h
  rw [within_iff]
  rw [least, greatest] at hw ⊢
  simp only [refineUpperBound, Option.getD_some]
  cases hhi : value.hi with
  | none =>
    rw [Option.map_none, Option.getD_none, Fin.coe_min]
    omega
  | some hi =>
    rw [hhi, Option.getD_some] at hw
    rw [Option.map_some, Option.getD_some, Fin.coe_min, Fin.coe_min]
    omega

theorem getD_max (value : AbstractValue) (x : Word) :
    ((value.lo.map fun old => max old x).getD x).val = max value.least x.val := by
  rw [least]
  cases value.lo with
  | none => exact (Nat.zero_max _).symm
  | some lo => exact Fin.coe_max lo x

/-- Where no upper bound was known, the new lower bound becomes one. -/
theorem within_refineLowerBound (h : value.Within v) :
    (value.refineLowerBound x va).Within v ↔
      if value.hi = none then x.val ≤ v.val ∧ v.val ≤ max value.least x.val
      else x.val ≤ v.val ∨ value.greatest ≤ v.val := by
  have hw := within_iff.mp h
  have hmax := getD_max value x
  rw [within_iff, least, greatest]
  simp only [refineLowerBound, Option.getD_some, Fin.coe_min, Fin.coe_max, hmax]
  cases hhi : value.hi with
  | none =>
    rw [if_pos rfl, Option.getD_none]
    omega
  | some hi =>
    rw [greatest, hhi, Option.getD_some] at hw
    rw [if_neg (Option.some_ne_none hi), greatest, hhi, Option.getD_some, Option.getD_some]
    omega

theorem within_refineExactValue : (value.refineExactValue x va).Within v ↔ v = x := by
  rw [Within]
  simp only [refineExactValue, Option.some.injEq, forall_eq']
  exact ⟨fun h => le_antisymm h.2 h.1, fun h => h ▸ ⟨le_rfl, le_rfl⟩⟩

end AbstractValue

end Axe.Static
