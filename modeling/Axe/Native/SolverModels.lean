import Axe.Native.Solver

/-!
# The models of the bounded solver

With one concrete operand the solver offers this number, the next one or the one before. The
condition code that jumps compares signed or unsigned numbers, and the offer is wrong just where
the next number or the one before leaves the range that the code compares in.
-/
namespace Axe.Native

variable {mnemonic : String} {rel : Relation} {c : Word}

/-- The greatest number for a condition code. -/
def greatest (mnemonic : String) : Word :=
  if comparesSigned mnemonic then BitVec.intMax 64 else BitVec.allOnes 64

theorem one_toNat : (1 : Word).toNat = 1 := rfl

theorem zero_toNat : (0 : Word).toNat = 0 := rfl

theorem ult_succ : c.ult (c + 1) = true ↔ c ≠ BitVec.allOnes 64 := by
  have hc := c.isLt
  rw [BitVec.ult, decide_eq_true_iff, BitVec.toNat_add, ne_eq, BitVec.toNat_eq,
    BitVec.toNat_allOnes, one_toNat]
  omega

theorem slt_succ : c.slt (c + 1) = true ↔ c ≠ BitVec.intMax 64 := by
  have hc := c.isLt
  rw [BitVec.slt, decide_eq_true_iff, ne_eq, BitVec.toNat_eq, BitVec.toNat_intMax,
    BitVec.toInt_eq_toNat_cond, BitVec.toInt_eq_toNat_cond, BitVec.toNat_add,
    one_toNat]
  split <;> split <;> omega

theorem ult_pred (h : c ≠ 0) : (c - 1).ult c = true := by
  have hc := c.isLt
  rw [ne_eq, BitVec.toNat_eq, zero_toNat] at h
  rw [BitVec.ult, decide_eq_true_iff, BitVec.toNat_sub, one_toNat]
  omega

theorem slt_pred : (c - 1).slt c = true ↔ c ≠ BitVec.intMin 64 := by
  have hc := c.isLt
  rw [BitVec.slt, decide_eq_true_iff, ne_eq, BitVec.toNat_eq, BitVec.toNat_intMin,
    BitVec.toInt_eq_toNat_cond, BitVec.toInt_eq_toNat_cond, BitVec.toNat_sub,
    one_toNat]
  split <;> split <;> omega

/-- A relation that a number has to itself. -/
theorem decided_self (h : rel = .eq ∨ rel = .ge ∨ rel = .le) : rel.decided mnemonic c c = true := by
  unfold Relation.decided
  rcases h with rfl | rfl | rfl <;>
    simp [Relation.holds, Relation.holdsSigned, BitVec.ule, BitVec.sle]

/-- The number above is greater unless there is none. -/
theorem decided_succ : Relation.lt.decided mnemonic c (c + 1) = true ↔ c ≠ greatest mnemonic := by
  unfold Relation.decided greatest
  split
  · exact slt_succ
  · exact ult_succ

/-- The number below is less, unless the code is signed and the number is the least. -/
theorem decided_pred (h : c ≠ 0) : Relation.lt.decided mnemonic (c - 1) c = true ↔
    ¬ (comparesSigned mnemonic = true ∧ c = BitVec.intMin 64) := by
  unfold Relation.decided
  split
  · next hsigned =>
    rw [hsigned]
    simpa [Relation.holdsSigned] using slt_pred
  · next hsigned => simpa [Relation.holds, hsigned] using ult_pred h

theorem decided_gt {l r : Word} :
    Relation.gt.decided mnemonic l r = Relation.lt.decided mnemonic r l := rfl

theorem decided_ne {l r : Word} : Relation.ne.decided mnemonic l r = true ↔ l ≠ r := by
  unfold Relation.decided
  split <;> exact bne_iff_ne

namespace BranchPredicate

variable (p : BranchPredicate)

def leftConst : Option Word := p.leftValue <|> parseInt p.left

def rightConst : Option Word := p.rightValue <|> parseInt p.right

/-- The condition of the jump, for two operands. -/
def condition (l r : Word) : Prop :=
  ∀ rel, relationForBranch p.mnemonic = some rel → rel.decided p.mnemonic l r = true

/-- A number offered for the operand that has none makes the condition true. -/
def ModelHolds : Prop :=
  (solvePredicate p).satisfiability = .satisfiable →
    match p.leftConst, p.rightConst with
    | none, some c => ∀ v, (p.left, v) ∈ (solvePredicate p).model → p.condition v c
    | some c, none => ∀ v, (p.right, v) ∈ (solvePredicate p).model → p.condition c v
    | _, _ => True

/-- The number is the last one in the direction in which the solver steps. -/
def AtEnd (up down : Relation) (c : Word) : Prop :=
  relationForBranch p.mnemonic = some up ∧ c = greatest p.mnemonic ∨
    relationForBranch p.mnemonic = some down ∧ comparesSigned p.mnemonic = true ∧
      c = BitVec.intMin 64

/-- Neither operand is unknown, and the only number is the last one. -/
def StepsOver : Prop :=
  p.left ≠ "unknown".toList ∧ p.right ≠ "unknown".toList ∧
    match p.leftConst, p.rightConst with
    | none, some c => p.AtEnd .gt .lt c
    | some c, none => p.AtEnd .lt .gt c
    | _, _ => False

end BranchPredicate

/-- The offer for a left operand. -/
theorem satisfyingValue_decided (rel : Relation) (c : Word) :
    (∀ v, satisfyingValue rel c = some v → rel.decided mnemonic v c = true) ↔
      ¬ (rel = .gt ∧ c = greatest mnemonic ∨
        rel = .lt ∧ comparesSigned mnemonic = true ∧ c = BitVec.intMin 64) := by
  cases rel with
  | eq | ge | le => simp [satisfyingValue, decided_self]
  | ne => simp [satisfyingValue, decided_ne]
  | gt =>
    simp only [satisfyingValue, Option.some.injEq, forall_eq', decided_gt, decided_succ,
      true_and, reduceCtorEq, false_and, or_false, ne_eq]
  | lt =>
    by_cases h : c = 0
    · have hmin : (0 : Word) ≠ BitVec.intMin 64 := by decide
      simp only [satisfyingValue, h, if_true, reduceCtorEq, false_implies, implies_true, false_and,
        hmin, and_false, or_false, not_false_eq_true]
    · simp only [satisfyingValue, h, if_false, Option.some.injEq, forall_eq', decided_pred h,
        reduceCtorEq, false_and, false_or, true_and]

/-- The offer for a right operand. -/
theorem satisfyingValueForRight_decided (rel : Relation) (c : Word) :
    (∀ v, satisfyingValueForRight rel c = some v → rel.decided mnemonic c v = true) ↔
      ¬ (rel = .lt ∧ c = greatest mnemonic ∨
        rel = .gt ∧ comparesSigned mnemonic = true ∧ c = BitVec.intMin 64) := by
  cases rel with
  | eq | ge | le => simp [satisfyingValueForRight, decided_self]
  | ne => simp [satisfyingValueForRight, decided_ne]
  | lt =>
    simp only [satisfyingValueForRight, Option.some.injEq, forall_eq', decided_succ,
      true_and, reduceCtorEq, false_and, or_false, ne_eq]
  | gt =>
    by_cases h : c = 0
    · have hmin : (0 : Word) ≠ BitVec.intMin 64 := by decide
      simp only [satisfyingValueForRight, h, if_true, reduceCtorEq, false_implies, implies_true,
        false_and, hmin, and_false, or_false, not_false_eq_true]
    · simp only [satisfyingValueForRight, h, if_false, Option.some.injEq, forall_eq', decided_gt,
        decided_pred h, reduceCtorEq, false_and, false_or, true_and]

/-- The result for one operand that has no number, from the number offered for it. -/
def offered (constraint operand : List Char) (offer : Option Word) : SolvedPredicate :=
  match offer with
  | some value => ⟨constraint, .satisfiable, [(operand, value)]⟩
  | none => ⟨constraint, .unknown, []⟩

theorem offered_iff {constraint operand : List Char} {offer : Option Word} {P : Word → Prop} :
    ((offered constraint operand offer).satisfiability = .satisfiable →
      ∀ v, (operand, v) ∈ (offered constraint operand offer).model → P v) ↔
    ∀ v, offer = some v → P v := by
  cases offer with
  | none => simp [offered]
  | some value => simp [offered]

/-- A model satisfies its branch just when the solver does not step over the last number. -/
theorem modelHolds_iff (p : BranchPredicate) : p.ModelHolds ↔ ¬ p.StepsOver := by
  unfold BranchPredicate.ModelHolds BranchPredicate.StepsOver BranchPredicate.AtEnd
    BranchPredicate.condition
  cases hrel : relationForBranch p.mnemonic with
  | none =>
    have hsolve : (solvePredicate p).satisfiability = .unknown := by
      simp only [solvePredicate, hrel]
    simp only [hsolve, reduceCtorEq, false_implies, true_iff, false_and, or_false]
    rintro ⟨-, -, h⟩
    split at h <;> exact h
  | some rel =>
    by_cases hunknown : p.left = "unknown".toList ∨ p.right = "unknown".toList
    · have hsolve : (solvePredicate p).satisfiability = .unknown := by
        simp only [solvePredicate, hrel, hunknown, if_true]
      simp only [hsolve, reduceCtorEq, false_implies, true_iff]
      rintro ⟨hl, hr, -⟩
      exact hunknown.elim hl hr
    · have hknown : p.left ≠ "unknown".toList ∧ p.right ≠ "unknown".toList := not_or.mp hunknown
      simp only [hknown.1, hknown.2, ne_eq, not_false_eq_true, true_and, Option.some.injEq,
        forall_eq']
      cases hl : p.leftConst with
      | none =>
        cases hr : p.rightConst with
        | none => simp
        | some c =>
          have hsolve : ∃ constraint, solvePredicate p =
              offered constraint p.left (satisfyingValue rel c) := by
            unfold BranchPredicate.leftConst at hl
            unfold BranchPredicate.rightConst at hr
            simp only [solvePredicate, hrel, hunknown, if_false, hl, hr]
            exact ⟨_, rfl⟩
          obtain ⟨constraint, hsolve⟩ := hsolve
          rw [hsolve, offered_iff]
          exact satisfyingValue_decided rel c
      | some c =>
        cases hr : p.rightConst with
        | some d => simp
        | none =>
          have hsolve : ∃ constraint, solvePredicate p =
              offered constraint p.right (satisfyingValueForRight rel c) := by
            unfold BranchPredicate.leftConst at hl
            unfold BranchPredicate.rightConst at hr
            simp only [solvePredicate, hrel, hunknown, if_false, hl, hr]
            exact ⟨_, rfl⟩
          obtain ⟨constraint, hsolve⟩ := hsolve
          rw [hsolve, offered_iff]
          exact satisfyingValueForRight_decided rel c

def compared (mnemonic : String) (c : Word) : BranchPredicate where
  siteVa := 0x1000
  mnemonic := mnemonic
  left := "rcx".toList
  right := "rdx".toList
  leftValue := none
  rightValue := some c

theorem not_modelHolds (v : Word) (rel : Relation)
    (hsat : (solvePredicate (compared mnemonic c)).satisfiability = .satisfiable)
    (hmodel : ("rcx".toList, v) ∈ (solvePredicate (compared mnemonic c)).model)
    (hrel : relationForBranch mnemonic = some rel) (hfalse : rel.decided mnemonic v c = false) :
    ¬ (compared mnemonic c).ModelHolds := by
  have hl : (compared mnemonic c).leftConst = none := by
    show (none <|> parseInt "rcx".toList) = none
    decide
  have hr : (compared mnemonic c).rightConst = some c := rfl
  unfold BranchPredicate.ModelHolds
  rw [hl, hr]
  intro h
  exact Bool.noConfusion (hfalse.symm.trans (h hsat v hmodel rel hrel))

/-- The number behind the greatest unsigned number is zero, and the one behind the greatest signed
number is the least. -/
theorem ja_model_wraps :
    ((solvePredicate (compared "ja" (BitVec.allOnes 64))).satisfiability = .satisfiable ∧
      (solvePredicate (compared "ja" (BitVec.allOnes 64))).model = [("rcx".toList, 0)] ∧
      Relation.gt.decided "ja" 0 (BitVec.allOnes 64) = false ∧
      ¬ (compared "ja" (BitVec.allOnes 64)).ModelHolds) ∧
    ¬ (compared "jg" (BitVec.intMax 64)).ModelHolds ∧
    ¬ (compared "jl" (BitVec.intMin 64)).ModelHolds := by
  have hja : (solvePredicate (compared "ja" (BitVec.allOnes 64))).model = [("rcx".toList, 0)] := by
    decide
  refine ⟨⟨by decide, hja, by decide, ?_⟩, ?_, ?_⟩
  · refine not_modelHolds 0 .gt (by decide) ?_ (by decide) (by decide)
    rw [hja]
    exact List.mem_singleton_self _
  · have hjg : (solvePredicate (compared "jg" (BitVec.intMax 64))).model =
        [("rcx".toList, BitVec.intMin 64)] := by decide
    refine not_modelHolds (BitVec.intMin 64) .gt (by decide) ?_ (by decide) (by decide)
    rw [hjg]
    exact List.mem_singleton_self _
  · have hjl : (solvePredicate (compared "jl" (BitVec.intMin 64))).model =
        [("rcx".toList, BitVec.intMax 64)] := by decide
    refine not_modelHolds (BitVec.intMax 64) .lt (by decide) ?_ (by decide) (by decide)
    rw [hjl]
    exact List.mem_singleton_self _

end Axe.Native
