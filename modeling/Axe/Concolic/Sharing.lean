import Axe.Concolic.Interning
import Axe.Lib.HashConsing

/-!
# Interning shares all there is to share

The index and the table of nodes are inverse to each other, whatever is interned. So two ids are
equal exactly when the trees that they unfold to are.
-/
namespace Axe.Concolic

open HashConsing (Unfolding Unfolds)

/-- An expression with the ids left out. -/
def shapeOf : Expr → Expr
  | .not _ => .not 0
  | .and _ => .and []
  | .or _ => .or []
  | .eq _ _ => .eq 0 0
  | .bvAdd _ _ => .bvAdd 0 0
  | .bvSub _ _ => .bvSub 0 0
  | .bvMul _ _ => .bvMul 0 0
  | .bvAnd _ _ => .bvAnd 0 0
  | .bvOr _ _ => .bvOr 0 0
  | .bvXor _ _ => .bvXor 0 0
  | .bvShl _ _ => .bvShl 0 0
  | .bvLShr _ _ => .bvLShr 0 0
  | .bvAShr _ _ => .bvAShr 0 0
  | .ult _ _ => .ult 0 0
  | .ule _ _ => .ule 0 0
  | .slt _ _ => .slt 0 0
  | .sle _ _ => .sle 0 0
  | .extract hi lo _ => .extract hi lo 0
  | .concat _ _ => .concat 0 0
  | .zeroExt extra _ => .zeroExt extra 0
  | .signExt extra _ => .signExt extra 0
  | .ite _ _ _ => .ite 0 0 0
  | .load8 _ _ => .load8 0 0
  | .store8 _ _ _ => .store8 0 0 0
  | e => e

/-- Puts ids into a shape. -/
def withChildren : Expr → List NodeId → Expr
  | .not _, [a] => .not a
  | .and _, v => .and v
  | .or _, v => .or v
  | .eq _ _, [a, b] => .eq a b
  | .bvAdd _ _, [a, b] => .bvAdd a b
  | .bvSub _ _, [a, b] => .bvSub a b
  | .bvMul _ _, [a, b] => .bvMul a b
  | .bvAnd _ _, [a, b] => .bvAnd a b
  | .bvOr _ _, [a, b] => .bvOr a b
  | .bvXor _ _, [a, b] => .bvXor a b
  | .bvShl _ _, [a, b] => .bvShl a b
  | .bvLShr _ _, [a, b] => .bvLShr a b
  | .bvAShr _ _, [a, b] => .bvAShr a b
  | .ult _ _, [a, b] => .ult a b
  | .ule _ _, [a, b] => .ule a b
  | .slt _ _, [a, b] => .slt a b
  | .sle _ _, [a, b] => .sle a b
  | .extract hi lo _, [value] => .extract hi lo value
  | .concat _ _, [a, b] => .concat a b
  | .zeroExt extra _, [value] => .zeroExt extra value
  | .signExt extra _, [value] => .signExt extra value
  | .ite _ _ _, [cond, thenId, elseId] => .ite cond thenId elseId
  | .load8 _ _, [mem, addr] => .load8 mem addr
  | .store8 _ _ _, [mem, addr, value] => .store8 mem addr value
  | e, _ => e

theorem withChildren_shapeOf (e : Expr) : withChildren (shapeOf e) (childrenOf e) = e := by
  cases e <;> rfl

/-- An expression is its shape and its ids. -/
theorem eq_of_shapeOf {e e' : Expr} (hshape : shapeOf e = shapeOf e')
    (hchildren : childrenOf e = childrenOf e') : e = e' := by
  rw [← withChildren_shapeOf e, hshape, hchildren, withChildren_shapeOf]

namespace ExprDag

variable {dag : ExprDag} {e f : Expr} {id : NodeId} {es : List Expr}

/-- The tree that an id stands for, with every shared expression written out. -/
abbrev Unfolds (dag : ExprDag) : NodeId → Unfolding Expr → Prop :=
  HashConsing.Unfolds dag.tryGet childrenOf shapeOf

/-- The expression of an id has that id in the index, and the other way round. -/
def Inverse (dag : ExprDag) : Prop :=
  ∀ e id, dag.index.lookup e = some id ↔ dag.tryGet id = some e

structure Shared (dag : ExprDag) : Prop where
  inverse : dag.Inverse
  ordered : dag.Ordered
  acyclic : dag.Acyclic
  unfolds : ∀ id < dag.len, ∃ tree, dag.Unfolds id tree
  sharing : ∀ id id' tree tree', dag.Unfolds id tree → dag.Unfolds id' tree' →
    (id = id' ↔ tree = tree')

def internNext (state : List NodeId × ExprDag) (e : Expr) : List NodeId × ExprDag :=
  (state.1 ++ [(state.2.intern e).1], (state.2.intern e).2)

/-- A sequence of intern calls on a new DAG, with the ids that they return. -/
def internAll (es : List Expr) : List NodeId × ExprDag := es.foldl internNext ([], .new)

/-- Every call gets ids that earlier calls have returned. -/
inductive Supplied : List Expr → Prop
  | nil : Supplied []
  | concat {es : List Expr} {e : Expr} : Supplied es →
    (∀ c ∈ childrenOf e, c ∈ (internAll es).1) → Supplied (es ++ [e])

theorem tryGet_append (hid : id ≠ dag.len) :
    (dag.nodes ++ [e])[id]? = dag.tryGet id := by
  rw [tryGet]
  rcases Nat.lt_or_gt_of_ne hid with hlt | hgt
  · exact List.getElem?_append_left hlt
  · rw [List.getElem?_eq_none, List.getElem?_eq_none (Nat.le_of_lt hgt)]
    rw [List.length_append, List.length_singleton]
    exact hgt

/-- An intern call keeps the index and the nodes inverse, and the id it returns is that of the
expression. -/
theorem Inverse.intern (h : dag.Inverse) (hlen : (dag.intern e).2.len < 2 ^ 32) :
    (dag.intern e).2.Inverse ∧ (dag.intern e).2.tryGet (dag.intern e).1 = some e := by
  cases hlookup : dag.index.lookup e with
  | some id =>
    rw [intern_of_some hlookup]
    exact ⟨h, (h e id).mp hlookup⟩
  | none =>
    rw [intern_of_none hlookup, Nat.mod_eq_of_lt (lt_of_le_of_lt (len_intern_le dag e).1 hlen)]
    have hlast : (dag.nodes ++ [e])[dag.len]? = some e := List.getElem?_concat_length
    refine ⟨fun f id => ?_, hlast⟩
    rw [List.lookup_cons, tryGet]
    by_cases hf : f = e
    · subst hf
      rw [BEq.rfl]
      refine ⟨fun hid => ?_, fun hget => ?_⟩
      · cases hid
        exact hlast
      · by_cases hid : id = dag.len
        · rw [hid]
        · rw [tryGet_append hid] at hget
          rw [(h f id).mpr hget] at hlookup
          cases hlookup
    · rw [beq_false_of_ne hf]
      by_cases hid : id = dag.len
      · subst hid
        refine ⟨fun hget => ?_, fun hget => ?_⟩
        · exact absurd (lt_of_tryGet ((h f dag.len).mp hget)) (Nat.lt_irrefl _)
        · rw [hlast, Option.some.injEq] at hget
          exact absurd hget.symm hf
      · rw [tryGet_append hid]
        exact h f id

/-- A node that comes after its children keeps the order. -/
theorem Ordered.intern (h : dag.Ordered) (hchildren : ∀ c ∈ childrenOf e, c < dag.len) :
    (dag.intern e).2.Ordered := by
  intro id hid c hc
  obtain ⟨f, hf⟩ := exists_tryGet hid
  rw [succ_eq hf] at hc
  rcases intern_nodes dag e with hn | hn
  · rw [tryGet, hn] at hf
    exact h id (lt_of_tryGet hf) c (succ_eq hf ▸ hc)
  · rw [tryGet, hn] at hf
    by_cases hlast : id = dag.len
    · rw [hlast, show (dag.nodes ++ [e])[dag.len]? = some e from List.getElem?_concat_length] at hf
      cases hf
      exact hlast ▸ hchildren c hc
    · rw [tryGet_append hlast] at hf
      exact h id (lt_of_tryGet hf) c (succ_eq hf ▸ hc)

/-- With the index inverse to the nodes and children first, sharing is maximal. -/
theorem Inverse.shared (h : dag.Inverse) (hordered : dag.Ordered) : dag.Shared where
  inverse := h
  ordered := hordered
  acyclic := hordered.acyclic
  unfolds id hid := HashConsing.exists_unfolds (fun _ => exists_tryGet)
    (fun id e he c hc => hordered id (lt_of_tryGet he) c (succ_eq he ▸ hc)) hid
  sharing id id' tree tree' htree htree' := by
    refine ⟨fun hid => ?_, fun heq => ?_⟩
    · exact DagFold.Folds.unique (hid ▸ htree) htree'
    · refine HashConsing.Unfolds.inj (fun _ _ => eq_of_shapeOf) ?_ htree (heq ▸ htree')
      intro id id' e he he'
      exact Option.some.inj (((h e id).mpr he).symm.trans ((h e id').mpr he'))

theorem internAll_concat (es : List Expr) (e : Expr) :
    internAll (es ++ [e]) = internNext (internAll es) e := by
  rw [internAll, List.foldl_append]
  rfl

theorem extends_internAll (es more : List Expr) :
    (internAll (es ++ more)).2.Extends (internAll es).2 := by
  induction more using List.reverseRecOn with
  | nil =>
    rw [List.append_nil]
    exact fun _ _ h => h
  | append_singleton more e ih =>
    rw [← List.append_assoc, internAll_concat]
    exact fun id f hf => extends_intern _ e id f (ih id f hf)

/-- The step lemma along a sequence of calls. -/
theorem internAll_spec (h : Supplied es) (hlen : (internAll es).2.len < 2 ^ 32) :
    (internAll es).2.Inverse ∧ (internAll es).2.Ordered ∧
      List.Forall₂ (fun e id => (internAll es).2.tryGet id = some e) es (internAll es).1 := by
  induction h with
  | nil =>
    refine ⟨fun e id => ?_, fun id hid => absurd hid (Nat.not_lt_zero id), .nil⟩
    exact ⟨fun h => absurd h.symm (Option.some_ne_none id), fun h => by cases h⟩
  | @concat es e _ hchildren ih =>
    rw [internAll_concat, internNext] at hlen ⊢
    obtain ⟨hinverse, hordered, hids⟩ := ih (lt_of_le_of_lt (len_intern_le _ e).1 hlen)
    obtain ⟨hinverse', hid⟩ := hinverse.intern hlen
    refine ⟨hinverse', hordered.intern fun c hc => ?_, ?_⟩
    · obtain ⟨f, -, hf⟩ := DagFold.forall₂_mem_left hids.flip c (hchildren c hc)
      exact lt_of_tryGet hf
    · refine List.rel_append (hids.imp fun f id hf => extends_intern _ e id f hf) ?_
      exact .cons hid .nil

/-- Interning gives maximal sharing, keeps what earlier calls have stored, and returns the id of
what is asked for. -/
theorem internAll_shares (es more : List Expr) (h : Supplied (es ++ more))
    (hlen : (internAll (es ++ more)).2.len < 2 ^ 32) :
    (internAll (es ++ more)).2.Shared ∧
      (∀ id e, (internAll es).2.tryGet id = some e →
        (internAll (es ++ more)).2.tryGet id = some e) ∧
      List.Forall₂ (fun e id => (internAll (es ++ more)).2.tryGet id = some e) (es ++ more)
        (internAll (es ++ more)).1 := by
  obtain ⟨hinverse, hordered, hids⟩ := internAll_spec h hlen
  exact ⟨hinverse.shared hordered, extends_internAll es more, hids⟩

theorem internAll_shares_twice :
    (internAll ([.boolConst true, .boolConst true, .not 0] ++ [.and [0, 1]])).2.Shared ∧
      (internAll ([.boolConst true, .boolConst true, .not 0] ++ [.and [0, 1]])).1 = [0, 0, 1, 2] :=
  ⟨(internAll_shares [.boolConst true, .boolConst true, .not 0] [.and [0, 1]]
    (.concat (.concat (.concat (.concat .nil (by decide)) (by decide)) (by decide)) (by decide))
    (by decide)).1, by decide⟩

end ExprDag
end Axe.Concolic
