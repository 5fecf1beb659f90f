import Axe.Concolic.Expr

/-!
# What a node of the DAG means

Each inner expression is one SMT-LIB operator applied to its children. The
sort and the value of a node are folds of the operator's typing rule and of its
meaning, so both are independent of how the program walks the DAG. A node on a
cycle, or above an id out of range, has neither.
-/
namespace Axe.Concolic

open Smt (SmtSort Value Assignment)

def Expr.op : Expr → Option Smt.Op
  | .var _ _ | .bvConst _ _ | .boolConst _ => none
  | .not _ => some .not
  | .and _ => some .and
  | .or _ => some .or
  | .eq _ _ => some .eq
  | .bvAdd _ _ => some (.bin .add)
  | .bvSub _ _ => some (.bin .sub)
  | .bvMul _ _ => some (.bin .mul)
  | .bvAnd _ _ => some (.bin .and)
  | .bvOr _ _ => some (.bin .or)
  | .bvXor _ _ => some (.bin .xor)
  | .bvShl _ _ => some (.bin .shl)
  | .bvLShr _ _ => some (.bin .lshr)
  | .bvAShr _ _ => some (.bin .ashr)
  | .ult _ _ => some (.cmp .ult)
  | .ule _ _ => some (.cmp .ule)
  | .slt _ _ => some (.cmp .slt)
  | .sle _ _ => some (.cmp .sle)
  | .extract hi lo _ => some (.extract hi lo)
  | .concat _ _ => some .concat
  | .zeroExt extra _ => some (.zeroExtend extra)
  | .signExt extra _ => some (.signExtend extra)
  | .ite _ _ _ => some .ite
  | .load8 _ _ => some .select
  | .store8 _ _ _ => some .store

/-- The value of a leaf under an assignment of the variables. -/
def Expr.leafValue (σ : Assignment SymbolId) : Expr → Option Value
  | .var name s => some (.of s (σ name s))
  | .bvConst value bits => some (.bv bits (BitVec.ofNat bits value.toNat))
  | .boolConst b => some (.bool b)
  | _ => none

def evalAlg (σ : Assignment SymbolId) (e : Expr) (vs : List Value) : Option Value :=
  match e.op with
  | some o => o.apply vs
  | none => e.leafValue σ

/-- A constant fits a width in 1..=128; a variable has a sort that exists. -/
def Expr.leafSort : Expr → Option SmtSort
  | .var _ s => if s.Valid then some s else none
  | .bvConst value bits =>
    if 1 ≤ bits ∧ bits ≤ 128 ∧ value.toNat < 2 ^ bits then some (.bv bits) else none
  | .boolConst _ => some .bool
  | _ => none

/-- `Load8` and `Store8` work on arrays of bytes. -/
def Expr.byteWide : Expr → SmtSort → Bool
  | .load8 _ _, s => s = .bv 8
  | .store8 _ _ _, .array _ v => v = 8
  | .store8 _ _ _, _ => false
  | _, _ => true

def sortAlg (e : Expr) (ss : List SmtSort) : Option SmtSort :=
  match e.op with
  | some o => (o.sort ss).filter e.byteWide
  | none => e.leafSort

namespace ExprDag

def Evaluates (dag : ExprDag) (σ : Assignment SymbolId) (id : NodeId) (v : Value) : Prop :=
  DagFold.Folds dag.tryGet childrenOf (evalAlg σ) id v

/-- The SMT-LIB typing rules, over widths without a bound. -/
def HasSort (dag : ExprDag) (id : NodeId) (s : SmtSort) : Prop :=
  DagFold.Folds dag.tryGet childrenOf sortAlg id s

/-- The Boolean value of a node under an assignment. -/
def Gives (dag : ExprDag) (σ : Assignment SymbolId) (id : NodeId) (b : Bool) : Prop :=
  dag.Evaluates σ id (.bool b)

/-- The variables a node depends on. -/
def VarsOf (dag : ExprDag) (root : NodeId) : Set SymbolId :=
  {v | ∃ n s, dag.Reaches root n ∧ dag.tryGet n = some (.var v s)}

/-- `dag'` has the nodes of `dag`, under the same ids. -/
def Extends (dag' dag : ExprDag) : Prop := ∀ id e, dag.tryGet id = some e → dag'.tryGet id = some e

theorem Evaluates.unique {dag : ExprDag} {σ : Assignment SymbolId} {id : NodeId} {v w : Value}
    (h : dag.Evaluates σ id v) (h' : dag.Evaluates σ id w) : v = w := DagFold.Folds.unique h h'

theorem HasSort.unique {dag : ExprDag} {id : NodeId} {s t : SmtSort} (h : dag.HasSort id s)
    (h' : dag.HasSort id t) : s = t := DagFold.Folds.unique h h'

theorem HasSort.of_reaches {dag : ExprDag} {a b : NodeId} {s : SmtSort} (h : dag.HasSort a s)
    (hr : dag.Reaches a b) : ∃ t, dag.HasSort b t := DagFold.Folds.of_reaches h hr

theorem Evaluates.extend {dag dag' : ExprDag} (hx : dag'.Extends dag) {σ : Assignment SymbolId}
    {id : NodeId} {v : Value} (h : dag.Evaluates σ id v) : dag'.Evaluates σ id v :=
  DagFold.Folds.congr h (fun n e _ he => hx n e he) fun _ _ _ _ _ => rfl

/-- The leaf rules give the sort of the leaf's value. -/
theorem leafValue_of_sort {e : Expr} {s : SmtSort} (σ : Assignment SymbolId)
    (h : e.leafSort = some s) : ∃ v, e.leafValue σ = some v ∧ v.sort = s := by
  cases e <;> simp only [Expr.leafSort, Option.ite_none_right_eq_some, Option.some.injEq,
    reduceCtorEq] at h <;> simp [Expr.leafValue]
  · exact h.2
  · exact h.2
  · exact h

/-- A well-sorted node has a value of its sort, whatever the variables are. -/
theorem HasSort.evaluates {dag : ExprDag} {id : NodeId} {s : SmtSort} (h : dag.HasSort id s)
    (σ : Assignment SymbolId) : ∃ v, dag.Evaluates σ id v ∧ v.sort = s := by
  refine DagFold.Folds.fuse (R := fun s (v : Value) => v.sort = s) ?_ h
  · intro id e ss vs s he hvs hs
    have hmap : vs.map Value.sort = ss := by
      clear hs
      induction hvs with
      | nil => rfl
      | cons h _ ih => rw [List.map_cons, h, ih]
    unfold sortAlg at hs
    unfold evalAlg
    cases ho : e.op with
    | none =>
      simp only [ho] at hs ⊢
      exact leafValue_of_sort σ hs
    | some o =>
      simp only [ho, Option.filter_eq_some_iff] at hs ⊢
      exact Smt.Op.apply_of_sort (hmap ▸ hs.1)

theorem HasSort.gives {dag : ExprDag} {id : NodeId} (h : dag.HasSort id .bool)
    (σ : Assignment SymbolId) : ∃ b, dag.Gives σ id b := by
  obtain ⟨v, hv, hs⟩ := h.evaluates σ
  obtain ⟨b, rfl⟩ := Value.eq_bool_of_sort hs
  exact ⟨b, hv⟩

/-- The value of a node depends only on the variables it reaches. -/
theorem Evaluates.congr {dag : ExprDag} {σ τ : Assignment SymbolId} {id : NodeId} {v : Value}
    (h : dag.Evaluates σ id v) (heq : ∀ x ∈ dag.VarsOf id, σ x = τ x) :
    dag.Evaluates τ id v := by
  refine DagFold.Folds.congr h (fun _ _ _ he => he) fun n e vs hr he => ?_
  unfold evalAlg
  cases e <;> simp only [Expr.op, Expr.leafValue]
  rw [heq _ ⟨n, _, hr, he⟩]

end ExprDag

end Axe.Concolic
