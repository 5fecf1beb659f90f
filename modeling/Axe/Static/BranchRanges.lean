import Axe.Static.EdgeRefinement

/-!
# Which values an edge keeps

The bounds that a block with a comparison puts on its edges, beside the conditions of the
jumps they are taken from.
-/
namespace Axe.Static

open X86 (Condition compareFlags conditionOf)

/-- A block that ends in `cmp reg, imm` and a conditional jump. -/
structure CompareBlock where
  before : List IrInstruction
  cmp : IrInstruction
  branch : IrInstruction
  reg : String
  imm : Word
  target : Nat
  condition : Condition
  isCmp : cmp.mnemonic = "cmp"
  reads : cmp.readRegs = [reg]
  immediate : cmp.immediate = some imm
  ordered : cmp.address < branch.address
  jumps : branch.isJump = true
  direct : branch.directTarget = some target
  conditional : conditionOf branch.mnemonic = some condition

namespace CompareBlock

def instructions (b : CompareBlock) : List IrInstruction := b.before ++ [b.cmp, b.branch]

def next (b : CompareBlock) : Nat := b.branch.address + b.branch.size

/-- The jump is taken for a value of the register. -/
def Jumps (b : CompareBlock) (v : Word) : Prop :=
  b.condition.holds (compareFlags (BitVec.ofFin v) (BitVec.ofFin b.imm)) = true

instance (b : CompareBlock) (v : Word) : Decidable (b.Jumps v) :=
  inferInstanceAs (Decidable (_ = _))

/-- The edge on which the processor leaves the block. -/
def Follows (b : CompareBlock) (edge : EdgeRecord) (v : Word) : Prop :=
  edge.target = if b.Jumps v then b.target else b.next

theorem refineStateForEdge_eq (b : CompareBlock) (state : AbstractState) (edge : EdgeRecord) :
    refineStateForEdge state b.instructions edge =
      (boundOnEdge b.branch edge b.imm).elim state
        fun bound => bound.refine state b.reg b.cmp.address := by
  have hrev : b.instructions.reverse = b.branch :: b.cmp :: b.before.reverse := by
    simp [instructions]
  have hcmp : ¬ b.branch.address ≤ b.cmp.address := not_le.mpr b.ordered
  simp [refineStateForEdge, hrev, b.jumps, b.direct, hcmp, b.isCmp, b.reads, b.immediate]

end CompareBlock

/-- The bound of a condition on the edge where it holds and on the one where it fails. -/
def boundOf (imm : Word) (taken : Bool) : Condition → Option Bound
  | .be | .le => some (if taken then .upper imm else .lower (imm.saturatingAdd 1))
  | .b | .l => some (if taken then .upper (imm.saturatingSub 1) else .lower imm)
  | .ae | .ge => some (if taken then .lower imm else .upper (imm.saturatingSub 1))
  | .a | .g => some (if taken then .lower (imm.saturatingAdd 1) else .upper imm)
  | .e => if taken then some (.exact imm) else none
  | _ => none

theorem boundOfJump_eq (taken fallthrough : Bool) (imm : Word) : ∀ row ∈ X86.jumpConditions,
    boundOfJump row.1 taken fallthrough imm = none ∨
      boundOfJump row.1 taken fallthrough imm = boundOf imm taken row.2 := by
  cases taken <;> cases fallthrough <;> simp [X86.jumpConditions, boundOfJump, boundOf]

/-- A value with which a jump on the condition is taken or is not. -/
def Goes (c : Condition) (taken : Bool) (imm v : Word) : Prop :=
  c.holds (compareFlags (BitVec.ofFin v) (BitVec.ofFin imm)) = taken

def signed (v : Word) : Int := if v.val < 2 ^ 63 then v.val else v.val - 2 ^ 64

theorem toInt_ofFin (v : Word) : (BitVec.ofFin v).toInt = signed v := by
  have hv := v.isLt
  rw [BitVec.toInt_eq_toNat_cond, signed, BitVec.toNat_ofFin]
  split <;> split <;> omega

/-- What the conditions with a bound say about two numbers. -/
def Holds (v imm : Word) : Condition → Prop
  | .b => v.val < imm.val
  | .ae => imm.val ≤ v.val
  | .e => v.val = imm.val
  | .be => v.val ≤ imm.val
  | .a => imm.val < v.val
  | .l => signed v < signed imm
  | .ge => signed imm ≤ signed v
  | .le => signed v ≤ signed imm
  | .g => signed imm < signed v
  | _ => False

section Goes
variable {c : Condition} {bound : Bound} {imm v hi lo x : Word} {taken : Bool}

theorem goes_iff (h : boundOf imm taken c = some bound) :
    Goes c taken imm v ↔ (Holds v imm c ↔ taken = true) := by
  have hflags : c.holds (compareFlags (BitVec.ofFin v) (BitVec.ofFin imm)) = true ↔
      Holds v imm c := by
    cases c with
    | b => exact X86.holds_b
    | ae => exact X86.holds_ae
    | e => exact X86.holds_e
    | be => exact X86.holds_be
    | a => exact X86.holds_a
    | l => exact X86.holds_l.trans (by rw [toInt_ofFin, toInt_ofFin, Holds])
    | ge => exact X86.holds_ge.trans (by rw [toInt_ofFin, toInt_ofFin, Holds])
    | le => exact X86.holds_le.trans (by rw [toInt_ofFin, toInt_ofFin, Holds])
    | g => exact X86.holds_g.trans (by rw [toInt_ofFin, toInt_ofFin, Holds])
    | o | no | ne | s | ns | p | np => cases h
  rw [Goes, Bool.eq_iff_iff, hflags]

/-- Beyond an upper bound only negative numbers go, and they all do. -/
theorem goes_upper (h : boundOf imm taken c = some (.upper hi)) :
    (Goes c taken imm v →
      v.val ≤ hi.val ∨ (c.IsSigned ∧ imm.val < 2 ^ 63 ∧ 2 ^ 63 ≤ v.val)) ∧
    (c.IsSigned → imm.val < 2 ^ 63 → hi.val < 2 ^ 63 ∧ (2 ^ 63 ≤ v.val → Goes c taken imm v)) := by
  have hv := v.isLt
  have himm := imm.isLt
  have hsub : (imm.saturatingSub 1).val = imm.val - 1 := imm.val_saturatingSub 1
  rw [goes_iff h]
  cases c <;> cases taken <;> cases h <;>
    simp only [Holds, signed, Condition.IsSigned, hsub, List.mem_cons, reduceCtorEq, or_false,
      List.not_mem_nil, false_and, true_and, or_true, iff_true, forall_const,
      IsEmpty.forall_iff, and_true, Bool.false_eq_true, iff_false]
  all_goals (try split) <;> (try split) <;> omega

theorem goes_lower (h : boundOf imm taken c = some (.lower lo)) :
    (Goes c taken imm v →
      lo.val ≤ v.val ∨ (c.IsSigned ∧ 2 ^ 63 ≤ imm.val ∧ v.val < 2 ^ 63)) ∧
    (Goes c taken imm v → c.IsSigned → imm.val < 2 ^ 63 → v.val < 2 ^ 63) ∧
    (lo.val < v.val → (c.IsSigned → imm.val < 2 ^ 63 → v.val < 2 ^ 63) → Goes c taken imm v) ∧
    (c.IsSigned → 2 ^ 63 ≤ imm.val →
      2 ^ 63 ≤ lo.val ∧ (v.val < 2 ^ 63 → Goes c taken imm v)) := by
  have hv := v.isLt
  have himm := imm.isLt
  have hadd : (imm.saturatingAdd 1).val = imm.val + 1 ∨
      (imm.val = 2 ^ 64 - 1 ∧ (imm.saturatingAdd 1).val = 2 ^ 64 - 1) := by
    rw [Word.val_saturatingAdd, Fin.val_one]
    omega
  rw [goes_iff h]
  cases c <;> cases taken <;> cases h <;>
    simp only [Holds, signed, Condition.IsSigned, List.mem_cons, reduceCtorEq, or_false,
      List.not_mem_nil, false_and, true_and, or_true, iff_true, forall_const,
      IsEmpty.forall_iff, and_true, implies_true, Bool.false_eq_true, iff_false]
  all_goals (try split) <;> (try split) <;> omega

theorem goes_exact (h : boundOf imm taken c = some (.exact x)) :
    Goes c taken imm v ↔ v = x := by
  rw [goes_iff h]
  cases c <;> cases taken <;> cases h
  simp only [Holds, iff_true, Fin.val_inj]

end Goes

namespace Bound

/-- The bound as it is put on a value. -/
def refined (value : AbstractValue) (va : Nat) : Bound → AbstractValue
  | .upper hi => value.refineUpperBound hi va
  | .lower lo => value.refineLowerBound lo va
  | .exact x => value.refineExactValue x va

/-- The bound loses no value of a jump: a signed jump needs a number or a range on one side of
the sign, a lower bound needs an upper one unless it leaves nothing above. -/
def Keeps (value : AbstractValue) (c : Condition) (imm : Word) : Bound → Prop
  | .upper _ => c.IsSigned →
    2 ^ 63 ≤ imm.val ∨ value.greatest < 2 ^ 63 ∨ value.greatest < value.least
  | .lower lo =>
    (value.hi = none → 2 ^ 64 - 1 ≤ max value.least lo.val ∨
      (c.IsSigned ∧ imm.val < 2 ^ 63 ∧ 2 ^ 63 - 1 ≤ max value.least lo.val)) ∧
    (c.IsSigned → 2 ^ 63 ≤ imm.val →
      2 ^ 63 ≤ value.least ∨ value.greatest ≤ value.least)
  | .exact _ => True

/-- The bound loses no value at all. -/
def KeepsAll (value : AbstractValue) : Bound → Prop
  | .upper hi => value.greatest ≤ hi.val ∨ value.greatest < value.least
  | .lower lo => value.hi = none ∨ value.least < lo.val → value.greatest ≤ value.least
  | .exact x => value.greatest < value.least ∨ (value.least = x.val ∧ value.greatest = x.val)

variable {value : AbstractValue} {va : Nat} {bound : Bound} {c : Condition} {imm v : Word}
  {taken : Bool}

theorem refine_eq (state : AbstractState) (reg : String) :
    bound.refine state reg va =
      { state with regs := state.regs.modify reg fun value => bound.refined value va } := by
  cases bound <;> rfl

theorem ordered_refined : (bound.refined value va).Ordered := by
  intro lo hi hlo hhi
  cases bound with
  | upper x =>
    cases hlo
    cases hhi
    exact min_le_right _ _
  | lower x =>
    cases hlo
    cases hhi
    exact (min_le_right _ _).trans (le_max_left _ _)
  | exact x =>
    cases hlo
    cases hhi
    exact le_rfl

theorem greatest_lt : value.greatest < 2 ^ 64 := (value.hi.getD _).isLt

theorem greatest_of_none (h : value.hi = none) : value.greatest = 2 ^ 64 - 1 := by
  rw [AbstractValue.greatest, h]
  rfl

/-- The number between the bounds of a value as a word. -/
theorem exists_within (value : AbstractValue) (n : Nat) (hl : value.least ≤ n) (hg : n ≤ value.greatest) :
    ∃ v : Word, v.val = n ∧ value.Within v :=
  ⟨⟨n, hg.trans_lt greatest_lt⟩, rfl, AbstractValue.within_iff.mpr ⟨hl, hg⟩⟩

theorem keeps_upper {hi : Word} (h : boundOf imm taken c = some (.upper hi)) :
    (∀ v, value.Within v → Goes c taken imm v → (value.refineUpperBound hi va).Within v) ↔
      (Bound.upper hi).Keeps value c imm := by
  constructor
  · intro hkeep hs
    by_contra hlost
    obtain ⟨v, hval, hv⟩ := exists_within value (max value.least (2 ^ 63))
      (by omega) (by omega)
    obtain ⟨_, hneg⟩ := goes_upper (v := v) h
    obtain ⟨hhi, hgo⟩ := hneg hs (by omega)
    have := (AbstractValue.within_refineUpperBound hv).mp (hkeep v hv (hgo (by omega)))
    omega
  · intro hkeep v hv hgo
    have hw := AbstractValue.within_iff.mp hv
    rw [AbstractValue.within_refineUpperBound hv]
    rcases (goes_upper h).1 hgo with hle | ⟨hs, himm, hneg⟩
    · exact hle
    · have := hkeep hs
      omega

theorem keeps_lower {lo : Word} (h : boundOf imm taken c = some (.lower lo)) :
    (∀ v, value.Within v → Goes c taken imm v → (value.refineLowerBound lo va).Within v) ↔
      (Bound.lower lo).Keeps value c imm := by
  constructor
  · intro hkeep
    refine ⟨fun hnone => ?_, fun hs himm => ?_⟩
    · by_contra hlost
      have hg := greatest_of_none hnone
      obtain ⟨hmax, hsmax⟩ := not_or.mp hlost
      have hlast : ∃ n, max value.least lo.val < n ∧ n ≤ 2 ^ 64 - 1 ∧
          (c.IsSigned → imm.val < 2 ^ 63 → n < 2 ^ 63) := by
        by_cases hs : c.IsSigned ∧ imm.val < 2 ^ 63
        · have hpos : ¬ 2 ^ 63 - 1 ≤ max value.least lo.val := fun hle => hsmax ⟨hs.1, hs.2, hle⟩
          exact ⟨2 ^ 63 - 1, by omega, by omega, fun _ _ => by omega⟩
        · exact ⟨2 ^ 64 - 1, by omega, le_rfl, fun h1 h2 => absurd ⟨h1, h2⟩ hs⟩
      obtain ⟨n, hn, htop, hsn⟩ := hlast
      obtain ⟨v, rfl, hv⟩ := exists_within value n (by omega) (by omega)
      have hgo := (goes_lower (v := v) h).2.2.1 (by omega) hsn
      have := (AbstractValue.within_refineLowerBound hv).mp (hkeep v hv hgo)
      rw [if_pos hnone] at this
      omega
    · by_contra hlost
      obtain ⟨v, hval, hv⟩ := exists_within value value.least le_rfl (by omega)
      obtain ⟨hlo, hgo⟩ := (goes_lower (v := v) h).2.2.2 hs himm
      have := (AbstractValue.within_refineLowerBound hv).mp (hkeep v hv (hgo (by omega)))
      split at this <;> omega
  · rintro ⟨htop, hneg⟩ v hv hgo
    have hw := AbstractValue.within_iff.mp hv
    have hg : value.hi = none → _ := greatest_of_none
    obtain ⟨hlow, hpos, _⟩ := goes_lower (v := v) h
    rw [AbstractValue.within_refineLowerBound hv]
    rcases hlow hgo with hle | ⟨hs, himm, hvneg⟩
    · split
      · rename_i hnone
        refine ⟨hle, ?_⟩
        rcases htop hnone with hmax | ⟨hs, himm, hmax⟩
        · omega
        · have := hpos hgo hs himm
          omega
      · exact Or.inl hle
    · have := hneg hs himm
      split
      · rename_i hnone
        have := hg hnone
        omega
      · omega

theorem keeps_iff (va : Nat) (h : boundOf imm taken c = some bound) :
    (∀ v, value.Within v → Goes c taken imm v → (bound.refined value va).Within v) ↔
      bound.Keeps value c imm := by
  cases bound with
  | upper hi => exact keeps_upper h
  | lower lo => exact keeps_lower h
  | exact x =>
    refine iff_of_true (fun v _ hgo => ?_) trivial
    exact AbstractValue.within_refineExactValue.mpr ((goes_exact h).mp hgo)

theorem keepsAll_iff (va : Nat) :
    (∀ v, value.Within v → (bound.refined value va).Within v) ↔ bound.KeepsAll value := by
  cases bound with
  | upper hi =>
    constructor
    · intro hkeep
      by_contra hlost
      obtain ⟨hgt, hle⟩ := not_or.mp hlost
      obtain ⟨v, hval, hv⟩ := exists_within value value.greatest (not_lt.mp hle) le_rfl
      have := (AbstractValue.within_refineUpperBound hv).mp (hkeep v hv)
      omega
    · intro hkeep v hv
      have hw := AbstractValue.within_iff.mp hv
      refine (AbstractValue.within_refineUpperBound hv).mpr ?_
      rcases hkeep with h | h <;> omega
  | lower lo =>
    constructor
    · intro hkeep hopen
      by_contra hlt
      obtain ⟨v, hval, hv⟩ := exists_within value value.least le_rfl (not_le.mp hlt).le
      obtain ⟨w, hwval, hw⟩ := exists_within value value.greatest (not_le.mp hlt).le le_rfl
      have hv' := (AbstractValue.within_refineLowerBound hv).mp (hkeep v hv)
      have hw' := (AbstractValue.within_refineLowerBound hw).mp (hkeep w hw)
      split at hv' <;> rename_i hhi
      · rw [if_pos hhi] at hw'
        omega
      · have := hopen.resolve_left hhi
        omega
    · intro hkeep v hv
      have hw := AbstractValue.within_iff.mp hv
      have hlo := lo.isLt
      refine (AbstractValue.within_refineLowerBound hv).mpr ?_
      split
      · rename_i hnone
        have := hkeep (Or.inl hnone)
        have := greatest_of_none hnone
        omega
      · by_cases hlt : value.least < lo.val
        · have := hkeep (Or.inr hlt)
          omega
        · omega
  | exact x =>
    constructor
    · intro hkeep
      refine or_iff_not_imp_left.mpr fun hle => ?_
      obtain ⟨v, hval, hv⟩ := exists_within value value.least le_rfl (not_lt.mp hle)
      obtain ⟨w, hwval, hw⟩ := exists_within value value.greatest (not_lt.mp hle) le_rfl
      rw [← hval, ← hwval, AbstractValue.within_refineExactValue.mp (hkeep v hv),
        AbstractValue.within_refineExactValue.mp (hkeep w hw)]
      exact ⟨rfl, rfl⟩
    · intro hkeep v hv
      have hw := AbstractValue.within_iff.mp hv
      refine AbstractValue.within_refineExactValue.mpr (Fin.ext ?_)
      rcases hkeep with h | h <;> omega

end Bound

namespace AbstractState

/-- Nothing is known of a register without a value. -/
def Allows (state : AbstractState) (reg : String) (v : Word) : Prop :=
  ∀ value, state.regs.get reg = some value → value.Within v

def Ordered (state : AbstractState) (reg : String) : Prop :=
  ∀ value, state.regs.get reg = some value → value.Ordered

end AbstractState

/-- When the edge keeps the values of the block's register that follow it. -/
def CompareBlock.Sound (b : CompareBlock) (edge : EdgeRecord) (value : AbstractValue) : Prop :=
  match boundOnEdge b.branch edge b.imm with
  | none => value.Ordered
  | some bound =>
    if b.target = b.next then bound.KeepsAll value else bound.Keeps value b.condition b.imm

namespace CompareBlock

variable {b : CompareBlock} {edge : EdgeRecord} {state : AbstractState} {bound : Bound} {v : Word}

theorem get_refineStateForEdge (state : AbstractState)
    (h : boundOnEdge b.branch edge b.imm = some bound) :
    (refineStateForEdge state b.instructions edge).regs.get b.reg =
      (state.regs.get b.reg).map fun value => bound.refined value b.cmp.address := by
  rw [refineStateForEdge_eq, h, Option.elim_some, Bound.refine_eq, OrderedMap.get_modify,
    if_pos rfl]

theorem boundOf_of_boundOnEdge (h : boundOnEdge b.branch edge b.imm = some bound) :
    boundOf b.imm (decide (edge.target = b.target)) b.condition = some bound := by
  obtain ⟨before, after, hrows, _⟩ := List.lookup_eq_some_iff.mp b.conditional
  have hmem : (b.branch.mnemonic, b.condition) ∈ X86.jumpConditions := hrows ▸ by simp
  have htaken : decide (b.branch.directTarget = some edge.target) =
      decide (edge.target = b.target) := by
    rw [b.direct, decide_eq_decide, Option.some.injEq, eq_comm]
  rw [boundOnEdge, htaken] at h
  rcases boundOfJump_eq _ _ b.imm _ hmem with hnone | hbound
  · rw [hnone] at h
    cases h
  · exact hbound.symm.trans h

theorem follows_iff (hedge : edge.target = b.target ∨ edge.target = b.next)
    (hne : b.target ≠ b.next) :
    b.Follows edge v ↔ Goes b.condition (decide (edge.target = b.target)) b.imm v := by
  rw [Follows, Goes, Bool.eq_iff_iff, decide_eq_true_iff, ← Jumps]
  by_cases hj : b.Jumps v
  · rw [if_pos hj, iff_true_left hj]
  · rw [if_neg hj, iff_false_left hj]
    refine ⟨fun h heq => hne (heq.symm.trans h), hedge.resolve_left⟩

theorem follows_of_eq (hedge : edge.target = b.target ∨ edge.target = b.next)
    (heq : b.target = b.next) : b.Follows edge v := by
  rw [Follows, heq, ite_self]
  exact hedge.elim (fun h => h.trans heq) id

theorem sound_iff_of_bound {value : AbstractValue} {va : Nat}
    (hedge : edge.target = b.target ∨ edge.target = b.next)
    (h : boundOnEdge b.branch edge b.imm = some bound) :
    (∀ v, value.Within v → b.Follows edge v → (bound.refined value va).Within v) ↔
      b.Sound edge value := by
  rw [Sound, h]
  simp only
  split
  · rename_i heq
    rw [← Bound.keepsAll_iff va]
    exact forall₂_congr fun v _ => forall_prop_of_true (follows_of_eq hedge heq)
  · rename_i hne
    rw [← Bound.keeps_iff va (boundOf_of_boundOnEdge h)]
    exact forall₂_congr fun v _ => imp_congr_left (follows_iff hedge hne)

/-- `cmp rax, 10` and a jump to `0x2000`. -/
def tenBlock (mnemonic : String) (c : Condition) (h : conditionOf mnemonic = some c) :
    CompareBlock :=
  let ins : IrInstruction :=
    { address := 0x1000, size := 4, mnemonic := "cmp", writeReg := none, readRegs := ["rax"]
      immediate := some 10, ripTarget := none, stackSlot := none, memoryBase := none
      memoryIndex := none, memoryScale := 0, memoryDisplacement := 0, memoryWrite := false
      memoryRead := false, directTarget := none, isJump := false }
  { before := [], cmp := ins, reg := "rax", imm := 10, target := 0x2000, condition := c
    branch := { ins with address := 0x1004, size := 6, mnemonic := mnemonic, readRegs := []
                         immediate := none, directTarget := some 0x2000, isJump := true }
    isCmp := rfl, reads := rfl, immediate := rfl, ordered := show 0x1000 < 0x1004 by decide
    jumps := rfl, direct := rfl, conditional := h }

/-- The register after `and rax, -1`. -/
def anyRax : AbstractState := { AbstractState.empty with
  regs := OrderedMap.empty.insert "rax" (masked (Fin.last _)) }

theorem allows_anyRax (v : Word) : anyRax.Allows "rax" v := by
  intro value hvalue
  rw [anyRax, OrderedMap.get_insert_self, Option.some.injEq] at hvalue
  subst hvalue
  exact AbstractValue.within_iff.mpr ⟨Nat.zero_le _, Fin.le_last v⟩

def leBlock : CompareBlock := tenBlock "jle" .le rfl

end CompareBlock

end Axe.Static
