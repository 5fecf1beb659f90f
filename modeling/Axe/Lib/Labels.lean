import Mathlib.Logic.Relation
import Axe.Lib.OrderedMap
import Axe.Lib.Saturation

/-!
# Labels that spread along edges

Some nodes carry labels. A round goes over all edges in order and gives the target of an edge the
label of its source when it has none. Every round but the last labels a target, so with more
rounds than edges all that can be reached from a labelled node is labelled, each node with a label
that it can be reached from.
-/
namespace Axe.Labels

variable {κ ν : Type} [LinearOrder κ] {edges rest : List (κ × κ)} {edge : κ × κ}
  {m m' : OrderedMap κ ν} {j k : κ} {v : ν}

/-- Keeps the label of a node that has one. -/
def orInsert (m : OrderedMap κ ν) (k : κ) (v : ν) : OrderedMap κ ν :=
  m.upsert k fun w => w.getD v

def visit (state : OrderedMap κ ν × Bool) (edge : κ × κ) : OrderedMap κ ν × Bool :=
  if (state.1.get edge.2).isSome then state
  else (state.1.get edge.1).elim state fun v => (state.1.insert edge.2 v, true)

def round (edges : List (κ × κ)) (m : OrderedMap κ ν) : OrderedMap κ ν × Bool :=
  edges.foldl visit (m, false)

def spread (edges : List (κ × κ)) (rounds : Nat) (m : OrderedMap κ ν) : OrderedMap κ ν :=
  Saturation.run (round edges) rounds m

def Reaches (edges : List (κ × κ)) : κ → κ → Prop := Relation.ReflTransGen fun a b => (a, b) ∈ edges

/-- What spreading makes of some labels. -/
structure Spreads (edges : List (κ × κ)) (m m' : OrderedMap κ ν) : Prop where
  keeps : ∀ k v, m.get k = some v → m'.get k = some v
  comes : ∀ k v, m'.get k = some v → ∃ j, m.get j = some v ∧ Reaches edges j k

/-- No edge leads from a labelled node to one without a label. -/
def Closed (edges : List (κ × κ)) (m : OrderedMap κ ν) : Prop :=
  ∀ edge ∈ edges, (m.get edge.1).isSome = true → (m.get edge.2).isSome = true

theorem get_orInsert :
    (orInsert m k v).get j = if j = k then some ((m.get k).getD v) else m.get j :=
  OrderedMap.get_upsert

/-- The first label that is given to a node stays. -/
theorem get_foldl_orInsert (rows : List (κ × ν)) :
    (rows.foldl (fun m row => orInsert m row.1 row.2) m).get k =
      (m.get k).or ((rows.find? fun row => row.1 = k).map Prod.snd) := by
  induction rows generalizing m with
  | nil => rw [List.foldl_nil, List.find?_nil, Option.map_none, Option.or_none]
  | cons row rows ih =>
    rw [List.foldl_cons, ih, get_orInsert, List.find?_cons]
    by_cases hk : row.1 = k
    · rw [if_pos hk.symm, decide_eq_true hk, hk]
      cases m.get k <;> rfl
    · rw [if_neg (Ne.symm hk), decide_eq_false hk]

theorem Spreads.refl (m : OrderedMap κ ν) : Spreads edges m m :=
  ⟨fun _ _ h => h, fun k _ h => ⟨k, h, .refl⟩⟩

theorem Spreads.trans {m'' : OrderedMap κ ν} (h : Spreads edges m m')
    (h' : Spreads edges m' m'') : Spreads edges m m'' := by
  refine ⟨fun k v hv => h'.keeps k v (h.keeps k v hv), fun k v hv => ?_⟩
  obtain ⟨j, hj, hjk⟩ := h'.comes k v hv
  obtain ⟨i, hi, hij⟩ := h.comes j v hj
  exact ⟨i, hi, hij.trans hjk⟩

/-- What one edge does: nothing, when it leads to a label or from none, or it labels its target. -/
theorem visit_cases (m : OrderedMap κ ν) (changed : Bool) (edge : κ × κ) :
    ((m.get edge.1).isSome = true → (m.get edge.2).isSome = true) ∧
        visit (m, changed) edge = (m, changed) ∨
      ∃ v, m.get edge.1 = some v ∧ m.get edge.2 = none ∧
        visit (m, changed) edge = (m.insert edge.2 v, true) := by
  rw [visit]
  by_cases hto : (m.get edge.2).isSome = true
  · exact .inl ⟨fun _ => hto, if_pos hto⟩
  · rw [if_neg hto]
    cases hfrom : m.get edge.1 with
    | none => exact .inl ⟨fun h => absurd h Bool.false_ne_true, rfl⟩
    | some v => exact .inr ⟨v, rfl, Option.not_isSome_iff_eq_none.mp hto, rfl⟩

theorem spreads_insert (hmem : edge ∈ edges) (hfrom : m.get edge.1 = some v)
    (hto : m.get edge.2 = none) : Spreads edges m (m.insert edge.2 v) := by
  refine ⟨fun k w hk => ?_, fun k w hk => ?_⟩
  · rw [OrderedMap.get_insert, if_neg fun heq => ?_]
    · exact hk
    · rw [heq, hto] at hk
      cases hk
  · rw [OrderedMap.get_insert] at hk
    split at hk
    · rename_i heq
      cases hk
      exact ⟨edge.1, hfrom, .single (heq ▸ hmem)⟩
    · exact ⟨k, hk, .refl⟩

/-- The edges that lead to no label yet. -/
def missing (edges : List (κ × κ)) (m : OrderedMap κ ν) : Nat :=
  edges.countP fun edge => (m.get edge.2).isNone

/-- A round spreads labels. It either changes nothing, and then nothing is left to do, or it
labels the target of some edge. -/
theorem foldl_visit (hsub : ∀ e ∈ rest, e ∈ edges) (changed : Bool) :
    Spreads edges m (rest.foldl visit (m, changed)).1 ∧
      ((rest.foldl visit (m, changed)).2 = changed ∧
          (rest.foldl visit (m, changed)).1 = m ∧ Closed rest m ∨
        (rest.foldl visit (m, changed)).2 = true ∧
          ∃ e ∈ rest, m.get e.2 = none ∧
            ((rest.foldl visit (m, changed)).1.get e.2).isSome = true) := by
  induction rest generalizing m changed with
  | nil => exact ⟨.refl m, .inl ⟨rfl, rfl, fun e he => absurd he List.not_mem_nil⟩⟩
  | cons e rest ih =>
    obtain ⟨he, hrest⟩ := List.forall_mem_cons.mp hsub
    rw [List.foldl_cons]
    rcases visit_cases m changed e with ⟨hclosed, hvisit⟩ | ⟨v, hfrom, hto, hvisit⟩
    · rw [hvisit]
      obtain ⟨hspreads, hcases⟩ := ih hrest changed (m := m)
      refine ⟨hspreads, ?_⟩
      rcases hcases with ⟨hsame, hmap, hall⟩ | ⟨htrue, e', he', hnone, hsome⟩
      · exact .inl ⟨hsame, hmap, List.forall_mem_cons.mpr ⟨hclosed, hall⟩⟩
      · exact .inr ⟨htrue, e', List.mem_cons_of_mem _ he', hnone, hsome⟩
    · rw [hvisit]
      obtain ⟨hspreads, hcases⟩ := ih hrest true (m := m.insert e.2 v)
      refine ⟨(spreads_insert he hfrom hto).trans hspreads,
        .inr ⟨?_, e, List.mem_cons_self, hto, ?_⟩⟩
      · exact hcases.elim And.left And.left
      · rw [hspreads.keeps e.2 v OrderedMap.get_insert_self]
        rfl

theorem missing_lt (hspreads : Spreads edges m m') (hmem : edge ∈ edges)
    (hnone : m.get edge.2 = none) (hsome : (m'.get edge.2).isSome = true) :
    missing edges m' < missing edges m := by
  have hle : ∀ e, (m'.get e).isNone = true → (m.get e).isNone = true := by
    intro e hnone'
    rw [Option.isNone_iff_eq_none] at hnone' ⊢
    refine Option.eq_none_iff_forall_ne_some.mpr fun v hv => ?_
    rw [hspreads.keeps e v hv] at hnone'
    cases hnone'
  obtain ⟨before, after, rfl⟩ := List.append_of_mem hmem
  have hbefore : before.countP (fun e => (m'.get e.2).isNone) ≤
      before.countP fun e => (m.get e.2).isNone := List.countP_mono_left fun e _ => hle e.2
  have hafter : after.countP (fun e => (m'.get e.2).isNone) ≤
      after.countP fun e => (m.get e.2).isNone := List.countP_mono_left fun e _ => hle e.2
  have hone : (m.get edge.2).isNone = true := Option.isNone_iff_eq_none.mpr hnone
  have hzero : ¬ (m'.get edge.2).isNone = true := by
    rw [Option.isNone_iff_eq_none]
    intro h
    rw [h] at hsome
    cases hsome
  rw [missing, missing, List.countP_append, List.countP_append, List.countP_cons,
    List.countP_cons, if_neg hzero, if_pos hone]
  omega

/-- With more rounds than edges that miss a label the labels are spread. -/
theorem spread_spec {rounds : Nat} (h : missing edges m < rounds) :
    Spreads edges m (spread edges rounds m) ∧ Closed edges (spread edges rounds m) := by
  induction rounds generalizing m with
  | zero => exact absurd h (Nat.not_lt_zero _)
  | succ rounds ih =>
    obtain ⟨hspreads, hcases⟩ := @foldl_visit _ _ _ edges edges m (fun e he => he) false
    rw [spread, Saturation.run]
    rcases hcases with ⟨hsame, hmap, hclosed⟩ | ⟨hchanged, e, he, hnone, hsome⟩
    · rw [if_neg (by rw [round, hsame]; exact Bool.false_ne_true), round, hmap]
      exact ⟨.refl m, hclosed⟩
    · rw [if_pos (show (round edges m).2 = true from hchanged)]
      have hlt := missing_lt hspreads he hnone hsome
      obtain ⟨hrest, hclosed⟩ := ih (m := (round edges m).1) (by rw [round]; omega)
      exact ⟨hspreads.trans hrest, hclosed⟩

theorem spread_all (edges : List (κ × κ)) (m : OrderedMap κ ν) {rounds : Nat}
    (h : edges.length < rounds) :
    Spreads edges m (spread edges rounds m) ∧ Closed edges (spread edges rounds m) :=
  spread_spec (lt_of_le_of_lt List.countP_le_length h)

/-- What can be reached from a labelled node is labelled. -/
theorem Closed.isSome_of_reaches (h : Closed edges m) (hjk : Reaches edges j k)
    (hj : (m.get j).isSome = true) : (m.get k).isSome = true := by
  induction hjk with
  | refl => exact hj
  | tail _ hedge ih => exact h _ hedge ih

end Axe.Labels
