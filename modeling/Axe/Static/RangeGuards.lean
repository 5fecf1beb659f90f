import Axe.Lib.Conditions
import Axe.Lib.LastPosition
import Axe.Static.Lifting

/-!
# Range guards of switches

The bound of a switch is the last small immediate of a comparison or subtraction before the jump,
and its default the target of the last jump above; the two need not belong together. Which
instructions read and which write the flags is a parameter.
-/
namespace Axe.Static.RangeGuards

open X86 (Condition LetsThrough conditionOf)

/-- The immediate that an instruction may bound an index with. -/
def guardImmediate (prior : LiftedInstruction) : Option Int :=
  if prior.mnemonic = "cmp" || prior.mnemonic = "sub" then
    (prior.immediate.filter fun imm => 0 < imm.val && imm.val ≤ 4096).map asI64
  else none

def guardTarget (prior : LiftedInstruction) : Option Nat :=
  if ["ja", "jae", "jnbe", "jnb"].contains prior.mnemonic then prior.directTarget else none

def guardStep (s : Option Int × Option Nat) (prior : LiftedInstruction) :
    Option Int × Option Nat :=
  ((guardImmediate prior).or s.1, (guardTarget prior).or s.2)

def jumpPosition (jumpIns : LiftedInstruction) (slice : List LiftedInstruction) : Option Nat :=
  slice.findIdx? fun ins => ins.address = jumpIns.address

/-- The low and the high bound, and the default target. -/
def findRangeGuard (jumpIns : LiftedInstruction) (slice : List LiftedInstruction) :
    Option Int × Option Int × Option Nat :=
  match jumpPosition jumpIns slice with
  | none => (none, none, none)
  | some jumpPos =>
    let guard := ((slice.take jumpPos).drop (jumpPos - 16)).foldl guardStep (none, none)
    (guard.1.map fun _ => 0, guard.1, guard.2)

section Scan
variable {slice : List LiftedInstruction} {jumpIns : LiftedInstruction} {low : Option Int}

theorem foldl_guardStep (window : List LiftedInstruction) (s : Option Int × Option Nat) :
    window.foldl guardStep s =
      (window.foldl (fun acc prior => (guardImmediate prior).or acc) s.1,
        window.foldl (fun acc prior => (guardTarget prior).or acc) s.2) := by
  induction window generalizing s with
  | nil => rfl
  | cons prior rest ih =>
    rw [List.foldl_cons, ih]
    rfl

/-- Where the bound comes from. -/
def BoundAt (slice : List LiftedInstruction) (p : Nat) (high : Int) : Prop :=
  ∃ c prior, LastBefore (ReplacesAt guardImmediate slice (p - 16)) p c ∧ slice[c]? = some prior ∧
    guardImmediate prior = some high

/-- Where the default target comes from. -/
def DefaultAt (slice : List LiftedInstruction) (p : Nat) (default : Nat) : Prop :=
  ∃ j prior, LastBefore (ReplacesAt guardTarget slice (p - 16)) p j ∧ slice[j]? = some prior ∧
    guardTarget prior = some default

theorem findRangeGuard_spec {h : Int} {d : Nat}
    (hguard : findRangeGuard jumpIns slice = (low, some h, some d)) :
    ∃ p, jumpPosition jumpIns slice = some p ∧ BoundAt slice p h ∧ DefaultAt slice p d := by
  rw [findRangeGuard] at hguard
  cases hpos : jumpPosition jumpIns slice with
  | none =>
    rw [hpos] at hguard
    cases hguard
  | some p =>
    rw [hpos] at hguard
    dsimp only at hguard
    rw [foldl_guardStep, Prod.mk.injEq, Prod.mk.injEq] at hguard
    exact ⟨p, rfl, foldl_or_iff.mp hguard.2.1, foldl_or_iff.mp hguard.2.2⟩

/-- The bound is a small number. -/
theorem guardImmediate_range {prior : LiftedInstruction} {h : Int}
    (hprior : guardImmediate prior = some h) : ∃ n : Nat, h = n ∧ 0 < n ∧ n ≤ 4096 := by
  rw [guardImmediate] at hprior
  split at hprior
  · obtain ⟨imm, himm, rfl⟩ := Option.map_eq_some_iff.mp hprior
    obtain ⟨-, hrange⟩ := Option.filter_eq_some_iff.mp himm
    rw [Bool.and_eq_true, decide_eq_true_iff, decide_eq_true_iff] at hrange
    refine ⟨imm.val, ?_, hrange⟩
    rw [asI64, BitVec.toInt_eq_toNat_of_lt]
    · rfl
    · show 2 * imm.val < 2 ^ 64
      omega
  · cases hprior

end Scan

section Guards
variable (readsFlags writesFlags : Decoded → Bool)

/-- A comparison of a register with an immediate and the conditional jump that reads the flags
next, with nothing in between that writes them. -/
structure Pair (code : List Decoded) (k m : Nat) (part : Part) (i : Immediate) (c : Condition)
    (d : Nat) : Prop where
  lt : k < m
  compare : ∃ e r, code[k]? = some e ∧ e.mnemonic = "cmp" ∧
    e.instr.operands = [.register (.general r part), .immediate i]
  jump : ∃ e, code[m]? = some e ∧ conditionOf e.mnemonic = some c ∧ branchTarget e.instr = some d
  quiet : ∀ n, k < n → n < m → ∀ e, code[n]? = some e →
    readsFlags e = false ∧ writesFlags e = false

/-- A pair whose jump lets through the values of the register up to a bound. -/
def Guard (code : List Decoded) (k m h d : Nat) : Prop :=
  ∃ part i c, Pair readsFlags writesFlags code k m part i c d ∧
    LetsThrough c (i.bits.setWidth part.width) h

/-- No guard before the jump compares later than at a position. -/
def Closest (code : List Decoded) (p k : Nat) : Prop :=
  ∀ k' m h d, m < p → Guard readsFlags writesFlags code k' m h d → k' ≤ k

/-- The bound and the default target are those of the closest guard. -/
def Reported (code : List Decoded) (p h d : Nat) : Prop :=
  ∃ k m, m < p ∧ Guard readsFlags writesFlags code k m h d ∧
    Closest readsFlags writesFlags code p k

/-- The immediate of the closest guard fits the last bound of the window, and its target is that
of the last jump of the window. -/
def ClosestFits (code : List Decoded) (p : Nat) : Prop :=
  ∃ k m part i c d, ∃ bound : Nat, m < p ∧ Pair readsFlags writesFlags code k m part i c d ∧
    Closest readsFlags writesFlags code p k ∧ BoundAt (code.map fromIced) p bound ∧
    c.Fits (i.bits.setWidth part.width) bound ∧ DefaultAt (code.map fromIced) p d

variable {readsFlags writesFlags} {slice : List LiftedInstruction}

theorem BoundAt.unique {p : Nat} {h h' : Int} (hb : BoundAt slice p h) (hb' : BoundAt slice p h') :
    h = h' := by
  obtain ⟨c, prior, hlast, hprior, heq⟩ := hb
  obtain ⟨c', prior', hlast', hprior', heq'⟩ := hb'
  obtain rfl := hlast.unique hlast'
  rw [hprior, Option.some.injEq] at hprior'
  rw [← hprior', heq, Option.some.injEq] at heq'
  exact heq'

theorem DefaultAt.unique {p d d' : Nat} (hd : DefaultAt slice p d) (hd' : DefaultAt slice p d') :
    d = d' := by
  obtain ⟨j, prior, hlast, hprior, heq⟩ := hd
  obtain ⟨j', prior', hlast', hprior', heq'⟩ := hd'
  obtain rfl := hlast.unique hlast'
  rw [hprior, Option.some.injEq] at hprior'
  rw [← hprior', heq, Option.some.injEq] at heq'
  exact heq'

theorem two_le_width (part : Part) : 2 ≤ 2 ^ part.width := by
  cases part <;> decide

/-- The reported bound and default are those of the closest guard exactly if the immediate of
this guard fits the last bound, and its target is the last one. -/
theorem findRangeGuard_closest_iff (readsFlags writesFlags : Decoded → Bool)
    (code : List Decoded) (jumpIns : LiftedInstruction) (low : Option Int) (h : Int) (d : Nat)
    (hguard : findRangeGuard jumpIns (code.map fromIced) = (low, some h, some d)) :
    ∃ p n : Nat, jumpPosition jumpIns (code.map fromIced) = some p ∧ h = n ∧
      (Reported readsFlags writesFlags code p n d ↔
        ClosestFits readsFlags writesFlags code p) := by
  obtain ⟨p, hpos, hbound, hdefault⟩ := findRangeGuard_spec hguard
  obtain ⟨n, rfl, -, -⟩ : ∃ n : Nat, h = n ∧ 0 < n ∧ n ≤ 4096 := by
    obtain ⟨c, prior, -, -, hprior⟩ := hbound
    exact guardImmediate_range hprior
  refine ⟨p, n, hpos, rfl, ?_, ?_⟩
  · rintro ⟨k, m, hm, ⟨part, i, c, hpair, hlets⟩, hclosest⟩
    exact ⟨k, m, part, i, c, d, n, hm, hpair, hclosest, hbound,
      (X86.letsThrough_iff_fits (two_le_width part) c).mp hlets, hdefault⟩
  · rintro ⟨k, m, part, i, c, d', n', hm, hpair, hclosest, hbound', hfits, hdefault'⟩
    obtain rfl : n = n' := Int.ofNat_inj.mp (hbound.unique hbound')
    obtain rfl := hdefault.unique hdefault'
    exact ⟨k, m, hm, ⟨part, i, c, hpair,
      (X86.letsThrough_iff_fits (two_le_width part) c).mpr hfits⟩, hclosest⟩

end Guards

def listedReads (d : Decoded) : Bool := (conditionOf d.mnemonic).isSome

def listedWrites (d : Decoded) : Bool := ["cmp", "sub"].contains d.mnemonic

/-- `cmp eax, 11` -/
def cmpEax : Decoded :=
  ⟨⟨0x1100, 3, [.register (.general .rax .dword), .immediate ⟨8, 11, true⟩], none, none, 1, 0, 0, 0,
    none⟩, "cmp", false, false⟩

/-- `ja 0x1300` -/
def jumpAbove : Decoded :=
  ⟨⟨0x1103, 2, [.other], none, none, 1, 0, 0, 0x1300, none⟩, "ja", false, true⟩

/-- `sub rsp, 32` -/
def subRsp : Decoded :=
  ⟨⟨0x1105, 4, [.register (.general .rsp .qword), .immediate ⟨8, 32, true⟩], none, none, 1, 0, 0, 0,
    none⟩, "sub", false, false⟩

/-- `jmp rax` -/
def jmpRax : Decoded :=
  ⟨⟨0x1109, 2, [.register (.general .rax .qword)], none, none, 1, 0, 0, 0, none⟩, "jmp", false,
    true⟩

theorem findRangeGuard_closest_iff_cmpEax :
    ∃ p n : Nat,
      jumpPosition (fromIced jmpRax) ([cmpEax, jumpAbove, jmpRax].map fromIced) = some p ∧
      (11 : Int) = n ∧
      (Reported listedReads listedWrites [cmpEax, jumpAbove, jmpRax] p n 0x1300 ↔
        ClosestFits listedReads listedWrites [cmpEax, jumpAbove, jmpRax] p) :=
  findRangeGuard_closest_iff listedReads listedWrites [cmpEax, jumpAbove, jmpRax] (fromIced jmpRax)
    (some 0) 11 0x1300 (by decide)

/-- The size of a stack frame is taken for the bound of the switch. -/
theorem subRsp_overwrites :
    findRangeGuard (fromIced jmpRax) ([cmpEax, jumpAbove, subRsp, jmpRax].map fromIced) =
        (some 0, some 32, some 0x1300) ∧
      jumpPosition (fromIced jmpRax) ([cmpEax, jumpAbove, subRsp, jmpRax].map fromIced) = some 3 ∧
      ¬ Reported listedReads listedWrites [cmpEax, jumpAbove, subRsp, jmpRax] 3 32 0x1300 := by
  refine ⟨by decide, by decide, ?_⟩
  rintro ⟨k, m, hm, ⟨part, i, c, hpair, hlets⟩, -⟩
  obtain ⟨e, r, he, hname, hops⟩ := hpair.compare
  obtain ⟨b, hb, hcond, -⟩ := hpair.jump
  have hlt := hpair.lt
  have hk : k = 0 := by
    rcases (by omega : k = 0 ∨ k = 1) with rfl | rfl
    · rfl
    · cases he
      exact absurd hname (by decide)
  subst hk
  cases he
  cases hops
  have hc : c = .a := by
    rcases (by omega : m = 1 ∨ m = 2) with rfl | rfl
    · cases hb
      exact (Option.some.inj hcond).symm
    · cases hb
      cases hcond
  subst hc
  exact absurd (X86.letsThrough_a.mp hlets) (by decide)

end Axe.Static.RangeGuards
