import Axe.Native.Emulator

/-!
# The bounded solver of branch predicates

It compares the recorded operand values as unsigned numbers, whatever instruction
recorded them, while the emulator decides a branch from the flags.
-/
namespace Axe.Native

inductive Relation where
  | eq | ne | gt | ge | lt | le
  deriving DecidableEq

namespace Relation

def symbol : Relation → String
  | eq => "=="
  | ne => "!="
  | gt => ">"
  | ge => ">="
  | lt => "<"
  | le => "<="

def holds (rel : Relation) (left right : Word) : Bool :=
  match rel with
  | eq => left == right
  | ne => left != right
  | gt => right.ult left
  | ge => right.ule left
  | lt => left.ult right
  | le => left.ule right

end Relation

def relationForBranch (branch : String) : Option Relation :=
  if branch ∈ ["je", "jz"] then some .eq
  else if branch ∈ ["jne", "jnz"] then some .ne
  else if branch ∈ ["ja", "jnbe", "jg", "jnle"] then some .gt
  else if branch ∈ ["jae", "jnb", "jge", "jnl"] then some .ge
  else if branch ∈ ["jb", "jnae", "jl", "jnge"] then some .lt
  else if branch ∈ ["jbe", "jna", "jle", "jng"] then some .le
  else none

/-- A left operand that makes the relation hold. -/
def satisfyingValue (rel : Relation) (right : Word) : Option Word :=
  match rel with
  | .eq => some right
  | .ne => some (right + 1)
  | .gt => some (right + 1)
  | .ge => some right
  | .lt => if right = 0 then none else some (right - 1)
  | .le => some right

/-- A right operand that makes the relation hold. -/
def satisfyingValueForRight (rel : Relation) (left : Word) : Option Word :=
  match rel with
  | .eq => some left
  | .ne => some (left + 1)
  | .gt => if left = 0 then none else some (left - 1)
  | .ge => some left
  | .lt => some (left + 1)
  | .le => some left

inductive Satisfiability where
  | satisfiable | unsatisfiable | unknown
  deriving DecidableEq

/-- The model lists the operands that are not numbers. -/
structure SolvedPredicate where
  constraint : List Char
  satisfiability : Satisfiability
  model : List (List Char × Word)

def modelEntry (operand : List Char) (value : Word) : List (List Char × Word) :=
  if (parseInt operand).isNone ∧ operand ≠ [] then [(operand, value)] else []

def solvePredicate (p : BranchPredicate) : SolvedPredicate :=
  let relation := relationForBranch p.mnemonic
  let constraint := p.left ++ " ".toList ++
    ((relation.map Relation.symbol).getD "unknown").toList ++ " ".toList ++ p.right
  match relation with
  | none => ⟨constraint, .unknown, []⟩
  | some rel =>
    if p.left = "unknown".toList ∨ p.right = "unknown".toList then ⟨constraint, .unknown, []⟩
    else
      match p.leftValue <|> parseInt p.left, p.rightValue <|> parseInt p.right with
      | some left, some right =>
        if rel.holds left right then
          ⟨constraint, .satisfiable, modelEntry p.left left ++ modelEntry p.right right⟩
        else ⟨constraint, .unsatisfiable, []⟩
      | none, some right =>
        match satisfyingValue rel right with
        | some value => ⟨constraint, .satisfiable, [(p.left, value)]⟩
        | none => ⟨constraint, .unknown, []⟩
      | some left, none =>
        match satisfyingValueForRight rel left with
        | some value => ⟨constraint, .satisfiable, [(p.right, value)]⟩
        | none => ⟨constraint, .unknown, []⟩
      | none, none => ⟨constraint, .unknown, []⟩

/-- The condition codes that compare signed numbers. -/
def comparesSigned (mnemonic : String) : Bool :=
  mnemonic ∈ ["jg", "jnle", "jge", "jnl", "jl", "jnge", "jle", "jng"]

/-- A relation over signed numbers. -/
def Relation.holdsSigned (rel : Relation) (left right : Word) : Bool :=
  match rel with
  | .eq => left == right
  | .ne => left != right
  | .gt => right.slt left
  | .ge => right.sle left
  | .lt => left.slt right
  | .le => left.sle right

/-- The relation that a condition code decides. -/
def Relation.decided (rel : Relation) (mnemonic : String) (left right : Word) : Bool :=
  if comparesSigned mnemonic then rel.holdsSigned left right else rel.holds left right

section Flags
variable {s : NativeState} {a b l r : Word} {mnemonic : String} {rel : Relation}

/-- The sign and overflow flags of a subtraction tell the signed order. -/
theorem sf_of_cmp : ((l - r).msb != ((l ^^^ r) &&& (l ^^^ (l - r))).msb) = l.slt r := by
  rw [BitVec.slt_eq_ult, BitVec.msb_and, BitVec.msb_xor, BitVec.msb_xor]
  have hsub : (l - r).toNat = (2 ^ 64 - r.toNat + l.toNat) % 2 ^ 64 := BitVec.toNat_sub l r
  have hl := l.isLt
  have hr := r.isLt
  simp only [BitVec.msb_eq_decide, BitVec.ult]
  -- Which sign the difference has follows from the two signs and the order.
  by_cases h₁ : 2 ^ (64 - 1) ≤ l.toNat <;> by_cases h₂ : 2 ^ (64 - 1) ≤ r.toNat <;>
    by_cases h₃ : l.toNat < r.toNat <;> by_cases h₄ : 2 ^ (64 - 1) ≤ (l - r).toNat
  all_goals
    first
    | exact absurd hsub (by omega)
    | simp only [h₁, h₂, h₃, h₄, decide_true, decide_false]
      rfl

/-- The flags tell the order of two numbers, signed and unsigned. -/
structure NativeState.Orders (s : NativeState) (a b : Word) : Prop where
  zf : s.flagsZf = (a == b)
  cf : s.flagsCf = a.ult b
  sf : (s.flagsSf != s.flagsOf) = a.slt b

theorem compare_cmp : (s.compare false l r).Orders l r where
  zf := by
    show decide (l - r = 0) = (l == r)
    rw [Bool.beq_eq_decide_eq, decide_eq_decide]
    constructor
    · intro h
      exact BitVec.sub_eq_iff_eq_add.mp h |>.trans (BitVec.zero_add r)
    · rintro rfl
      exact BitVec.sub_self l
  cf := rfl
  sf := sf_of_cmp

theorem compare_test : (s.compare true l r).Orders (l &&& r) 0 where
  zf := (Bool.beq_eq_decide_eq _ _).symm
  cf := (decide_eq_false (Nat.not_lt_zero _)).symm
  sf := by
    show ((l &&& r).msb != false) = (l &&& r).slt 0#64
    rw [BitVec.slt_zero_eq_msb, Bool.bne_false]

theorem ult_or_eq : (a.ult b || a == b) = a.ule b := by
  simp only [BitVec.ult, BitVec.ule, Bool.beq_eq_decide_eq, ← Bool.decide_or, decide_eq_decide,
    BitVec.toNat_eq]
  omega

theorem slt_or_eq : (a.slt b || a == b) = a.sle b := by
  simp only [BitVec.slt, BitVec.sle, Bool.beq_eq_decide_eq, ← Bool.decide_or, decide_eq_decide,
    ← BitVec.toInt_inj]
  omega

theorem not_ult : (!a.ult b) = b.ule a := by
  rw [BitVec.ule_eq_not_ult]

theorem not_slt : (!a.slt b) = b.sle a := by
  rw [BitVec.sle_eq_not_slt]

/-- What each condition code of the solver reads from the flags. -/
theorem NativeState.Orders.conditionalHolds (h : s.Orders a b)
    (hrel : relationForBranch mnemonic = some rel) :
    Native.conditionalHolds (dropText 1 mnemonic) s = rel.decided mnemonic a b := by
  have hbe : (s.flagsCf || s.flagsZf) = a.ule b := by rw [h.cf, h.zf, ult_or_eq]
  have hle : (s.flagsZf || (s.flagsSf != s.flagsOf)) = a.sle b := by
    rw [h.zf, h.sf, Bool.or_comm, slt_or_eq]
  have ha : (!s.flagsCf && !s.flagsZf) = b.ult a := by
    rw [← Bool.not_or, hbe, BitVec.ule_eq_not_ult, Bool.not_not]
  have heq : (s.flagsSf == s.flagsOf) = !(s.flagsSf != s.flagsOf) := by rw [bne, Bool.not_not]
  have hg : (!s.flagsZf && (s.flagsSf == s.flagsOf)) = b.slt a := by
    rw [heq, ← Bool.not_or, hle, BitVec.sle_eq_not_slt, Bool.not_not]
  have hge : (s.flagsSf == s.flagsOf) = b.sle a := by rw [heq, h.sf, not_slt]
  unfold relationForBranch at hrel
  simp only [List.mem_cons, List.not_mem_nil, or_false] at hrel
  split at hrel
  · rename_i hm
    cases hrel
    rcases hm with rfl | rfl <;> exact h.zf
  · split at hrel
    · rename_i hm
      cases hrel
      rcases hm with rfl | rfl <;> exact congrArg (! ·) h.zf
    · split at hrel
      · rename_i hm
        cases hrel
        rcases hm with rfl | rfl | rfl | rfl
        · exact ha
        · exact ha
        · exact hg
        · exact hg
      · split at hrel
        · rename_i hm
          cases hrel
          rcases hm with rfl | rfl | rfl | rfl
          · exact (congrArg (! ·) h.cf).trans not_ult
          · exact (congrArg (! ·) h.cf).trans not_ult
          · exact hge
          · exact hge
        · split at hrel
          · rename_i hm
            cases hrel
            rcases hm with rfl | rfl | rfl | rfl
            · exact h.cf
            · exact h.cf
            · exact h.sf
            · exact h.sf
          · split at hrel
            · rename_i hm
              cases hrel
              rcases hm with rfl | rfl | rfl | rfl
              · exact hbe
              · exact hbe
              · exact hle
              · exact hle
            · cases hrel

end Flags

section Agreement
variable {l r : Word} {mnemonic : String} {rel : Relation}

/-- When the unsigned comparison of the recorded values is what the condition code decides: for a
`cmp`, a signed code needs values of one sign; for a `test`, the values must be related as their
conjunction is to zero. -/
def Agrees (isTest : Bool) (mnemonic : String) (rel : Relation) (l r : Word) : Prop :=
  if isTest then rel.holds l r = rel.decided mnemonic (l &&& r) 0
  else comparesSigned mnemonic = true → l.msb = r.msb

theorem holdsSigned_of_msb_eq (h : l.msb = r.msb) : rel.holdsSigned l r = rel.holds l r := by
  cases rel with
  | eq => rfl
  | ne => rfl
  | gt => exact BitVec.slt_eq_ult_of_msb_eq h.symm
  | ge =>
    rw [Relation.holdsSigned, Relation.holds, BitVec.sle_eq_not_slt, BitVec.ule_eq_not_ult,
      BitVec.slt_eq_ult_of_msb_eq h]
  | lt => exact BitVec.slt_eq_ult_of_msb_eq h
  | le =>
    rw [Relation.holdsSigned, Relation.holds, BitVec.sle_eq_not_slt, BitVec.ule_eq_not_ult,
      BitVec.slt_eq_ult_of_msb_eq h.symm]

/-- On values of different signs the two orders are opposite. -/
theorem holdsSigned_of_msb_ne (h : l.msb ≠ r.msb) (hrel : rel ≠ .eq ∧ rel ≠ .ne) :
    rel.holdsSigned l r = !rel.holds l r := by
  cases rel with
  | eq => exact absurd rfl hrel.1
  | ne => exact absurd rfl hrel.2
  | gt => exact BitVec.slt_eq_not_ult_of_msb_neq h.symm
  | ge =>
    rw [Relation.holdsSigned, Relation.holds, BitVec.sle_eq_not_slt, BitVec.ule_eq_not_ult,
      BitVec.slt_eq_not_ult_of_msb_neq h]
  | lt => exact BitVec.slt_eq_not_ult_of_msb_neq h
  | le =>
    rw [Relation.holdsSigned, Relation.holds, BitVec.sle_eq_not_slt, BitVec.ule_eq_not_ult,
      BitVec.slt_eq_not_ult_of_msb_neq h.symm]

theorem relation_of_signed (hrel : relationForBranch mnemonic = some rel)
    (hs : comparesSigned mnemonic = true) : rel ≠ .eq ∧ rel ≠ .ne := by
  rw [comparesSigned, decide_eq_true_iff] at hs
  simp only [List.mem_cons, List.not_mem_nil, or_false] at hs
  rcases hs with rfl | rfl | rfl | rfl | rfl | rfl | rfl | rfl <;>
    exact Option.some.inj hrel ▸ by decide

theorem holds_eq_decided_iff (isTest : Bool) (hrel : relationForBranch mnemonic = some rel) :
    rel.holds l r = rel.decided mnemonic (if isTest then l &&& r else l) (if isTest then 0 else r) ↔
      Agrees isTest mnemonic rel l r := by
  cases isTest with
  | true => exact Iff.rfl
  | false =>
    simp only [Agrees, Bool.false_eq_true, if_false, Relation.decided]
    split
    · rename_i hs
      simp only [hs, true_implies]
      constructor
      · intro h
        by_contra hne
        rw [holdsSigned_of_msb_ne hne (relation_of_signed hrel hs)] at h
        exact (Bool.eq_not_self _).mp h
      · intro h
        exact (holdsSigned_of_msb_eq h).symm
    · rename_i hs
      simp [hs]

end Agreement

end Axe.Native
