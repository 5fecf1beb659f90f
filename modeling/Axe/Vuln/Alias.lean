import Mathlib.Combinatorics.SimpleGraph.Connectivity.Connected
import Mathlib.Data.List.AList
import Mathlib.Order.Lattice.Nat
import Mathlib.SetTheory.Cardinal.Finite
import Axe.Vuln.Graph

/-!
# Alias classes of copies

A search along data flow, in both directions, gives every copy that it meets one class.
The classes are the connected components of the flow between copies.
-/
namespace Axe.Vuln

namespace EvidenceGraph

def isCopy (g : EvidenceGraph) (n : NodeId) : Bool := g.node n = some .copy

/-- What the search pushes at a node: the copies after it, then the copies before it. -/
def copyNeighbours (g : EvidenceGraph) (n : NodeId) : List NodeId :=
  (g.outgoingOfKind n .dataFlow).filter g.isCopy ++ (g.incomingOfKind n .dataFlow).filter g.isCopy

/-- The flow between copies, along the edges and then against them. -/
def copyFlow (g : EvidenceGraph) : List (NodeId × NodeId) :=
  let flow := ((g.edgesOfKind .dataFlow).filter fun e => g.isCopy e.1 && g.isCopy e.2).reverse
  flow ++ flow.map Prod.swap

/-- The copies, joined where an edge of data flow joins them. -/
def aliasNet (g : EvidenceGraph) : SimpleGraph {n // g.isCopy n} :=
  SimpleGraph.fromRel fun a b => (a.1, b.1) ∈ g.edgesOfKind .dataFlow

variable {g : EvidenceGraph} {a b n : NodeId}

theorem mem_copyFlow : (a, b) ∈ g.copyFlow ↔
    g.isCopy a ∧ g.isCopy b ∧
      ((a, b) ∈ g.edgesOfKind .dataFlow ∨ (b, a) ∈ g.edgesOfKind .dataFlow) := by
  simp only [copyFlow, List.mem_append, List.mem_reverse, List.mem_filter, List.mem_map,
    Bool.and_eq_true, Prod.exists, Prod.swap_prod_mk, Prod.mk.injEq]
  constructor
  · rintro (⟨hflow, ha, hb⟩ | ⟨x, y, ⟨hflow, hx, hy⟩, rfl, rfl⟩)
    · exact ⟨ha, hb, .inl hflow⟩
    · exact ⟨hy, hx, .inr hflow⟩
  · rintro ⟨ha, hb, hflow | hflow⟩
    · exact .inl ⟨hflow, ha, hb⟩
    · exact .inr ⟨b, a, ⟨hflow, hb, ha⟩, rfl, rfl⟩

/-- At a copy the search pushes its neighbours, in the order of the two loops. -/
theorem successors_copyFlow (hn : g.isCopy n) :
    Traversal.successors g.copyFlow n = g.copyNeighbours n := by
  have hswap : ∀ flow : List (NodeId × NodeId),
      (flow.filter fun e => g.isCopy e.1 && g.isCopy e.2).map Prod.swap =
        (flow.map Prod.swap).filter fun e => g.isCopy e.1 && g.isCopy e.2 := by
    intro flow
    rw [List.filter_map]
    congr 1
    refine List.filter_congr fun e _ => ?_
    exact Bool.and_comm _ _
  rw [copyFlow, Traversal.successors_append, List.map_reverse, hswap,
    Traversal.successors_reverse, Traversal.successors_reverse, Traversal.successors_filter hn,
    Traversal.successors_filter hn, ← List.filter_reverse, ← List.filter_reverse,
    ← outgoingOfKind_dataFlow, ← incomingOfKind_dataFlow, copyNeighbours]

/-- Two copies are joined by the flow just if the search can go from one to the other. -/
theorem reachable_aliasNet (ha : g.isCopy a) (hb : g.isCopy b) :
    g.aliasNet.Reachable ⟨a, ha⟩ ⟨b, hb⟩ ↔ Traversal.Reaches g.copyFlow a b := by
  rw [SimpleGraph.reachable_iff_reflTransGen]
  constructor
  · intro h
    refine Relation.ReflTransGen.lift (fun x : {n // g.isCopy n} => x.1) ?_ _ _ h
    intro x y hadj
    exact mem_copyFlow.mpr ⟨x.2, y.2, ((SimpleGraph.fromRel_adj ..).mp hadj).2⟩
  · intro h
    induction h with
    | refl => exact .refl
    | @tail m b _ hedge ih =>
      obtain ⟨hm, -, hflow⟩ := mem_copyFlow.mp hedge
      by_cases heq : m = b
      · subst heq
        exact ih hb
      · have hadj : g.aliasNet.Adj ⟨m, hm⟩ ⟨b, hb⟩ :=
          (SimpleGraph.fromRel_adj ..).mpr ⟨fun h => heq (congrArg Subtype.val h), hflow⟩
        exact (ih hm).tail hadj

end EvidenceGraph

/-- The class of every copy that belongs to one. -/
structure AliasGraph where
  classes : AList fun _ : NodeId => List NodeId

namespace AliasGraph

def new : AliasGraph := ⟨∅⟩

/-- The nodes that the search from `start` meets. -/
def classFrom (g : EvidenceGraph) (start : NodeId) : List NodeId :=
  Traversal.search g.copyFlow (g.copyFlow.length + 1) [start] []

def assign (members : List NodeId) (classes : AList fun _ : NodeId => List NodeId) :
    AList fun _ : NodeId => List NodeId :=
  members.foldl (fun classes member => classes.insert member members) classes

def visit (g : EvidenceGraph) (classes : AList fun _ : NodeId => List NodeId) (start : NodeId) :
    AList fun _ : NodeId => List NodeId :=
  if start ∈ classes then classes else assign (classFrom g start) classes

def build (g : EvidenceGraph) : AliasGraph :=
  ⟨((g.nodesOfKind .copy).map Prod.fst).foldl (visit g) ∅⟩

def mayAlias (self : AliasGraph) (a b : NodeId) : Bool :=
  if a = b then a ∈ self.classes
  else match self.classes.lookup a with
    | some members => members.contains b
    | none => false

def classSize (self : AliasGraph) (n : NodeId) : Nat :=
  ((self.classes.lookup n).map List.length).getD 0

/-- The classes are told apart by their least members. -/
def representatives (self : AliasGraph) : List Nat :=
  (self.classes.entries.filterMap fun entry => entry.2.min?).dedup

def classCount (self : AliasGraph) : Nat := self.representatives.length

section Classes

variable {g : EvidenceGraph} {classes : AList fun _ : NodeId => List NodeId}
  {members : List NodeId} {a b n start : NodeId}

theorem mem_classFrom : n ∈ classFrom g start ↔ Traversal.Reaches g.copyFlow start n :=
  Traversal.mem_search_iff

theorem reaches_symm (h : Traversal.Reaches g.copyFlow a b) : Traversal.Reaches g.copyFlow b a := by
  induction h with
  | refl => exact .refl
  | tail _ hedge ih =>
    obtain ⟨hx, hy, hflow⟩ := EvidenceGraph.mem_copyFlow.mp hedge
    exact .head (EvidenceGraph.mem_copyFlow.mpr ⟨hy, hx, hflow.symm⟩) ih

theorem isCopy_of_reaches (ha : g.isCopy a) (h : Traversal.Reaches g.copyFlow a b) :
    g.isCopy b := by
  induction h with
  | refl => exact ha
  | tail _ hedge _ => exact (EvidenceGraph.mem_copyFlow.mp hedge).2.1

theorem lookup_assign :
    (assign members classes).lookup n =
      if n ∈ members then some members else classes.lookup n := by
  have hfold : ∀ (rest : List NodeId) (classes : AList fun _ : NodeId => List NodeId),
      (rest.foldl (fun classes member => classes.insert member members) classes).lookup n =
        if n ∈ rest then some members else classes.lookup n := by
    intro rest
    induction rest with
    | nil => exact fun _ => rfl
    | cons m rest ih =>
      intro classes
      rw [List.foldl_cons, ih]
      by_cases hrest : n ∈ rest
      · rw [if_pos hrest, if_pos (List.mem_cons_of_mem _ hrest)]
      · by_cases hm : n = m
        · subst hm
          rw [if_neg hrest, if_pos List.mem_cons_self, AList.lookup_insert]
        · rw [if_neg hrest, if_neg (by simp [hm, hrest]), AList.lookup_insert_ne hm]
  exact hfold members classes

/-- Only copies have a class, and it holds what its copy reaches. -/
def Exact (g : EvidenceGraph) (classes : AList fun _ : NodeId => List NodeId) : Prop :=
  ∀ n members, classes.lookup n = some members →
    g.isCopy n ∧ ∀ m, m ∈ members ↔ Traversal.Reaches g.copyFlow n m

theorem visit_exact (hstart : g.isCopy start) (h : Exact g classes) :
    Exact g (visit g classes start) := by
  rw [visit]
  split
  · exact h
  · intro n members hlookup
    rw [lookup_assign] at hlookup
    split at hlookup
    · rename_i hn
      cases hlookup
      have hreach := mem_classFrom.mp hn
      refine ⟨isCopy_of_reaches hstart hreach, fun m => ?_⟩
      rw [mem_classFrom]
      exact ⟨(reaches_symm hreach).trans, hreach.trans⟩
    · exact h n members hlookup

theorem mem_visit (hn : n ∈ classes ∨ n = start) : n ∈ visit g classes start := by
  rw [visit]
  split
  · rename_i hstart
    rcases hn with hn | rfl
    · exact hn
    · exact hstart
  · rw [← AList.lookup_isSome, lookup_assign]
    split
    · rfl
    · rename_i hmem
      rcases hn with hn | rfl
      · exact AList.lookup_isSome.mpr hn
      · exact absurd (mem_classFrom.mpr .refl) hmem

theorem visits_exact (classes : AList fun _ : NodeId => List NodeId) (starts : List NodeId)
    (hstarts : ∀ s ∈ starts, g.isCopy s)
    (h : Exact g classes) :
    Exact g (starts.foldl (visit g) classes) ∧
      ∀ n, n ∈ classes ∨ n ∈ starts → n ∈ starts.foldl (visit g) classes := by
  induction starts generalizing classes with
  | nil => exact ⟨h, fun n hn => hn.resolve_right List.not_mem_nil⟩
  | cons s rest ih =>
    obtain ⟨hexact, hmem⟩ := ih (visit g classes s)
      (fun x hx => hstarts x (List.mem_cons_of_mem _ hx))
      (visit_exact (hstarts s List.mem_cons_self) h)
    refine ⟨hexact, fun n hn => hmem n ?_⟩
    rcases hn with hn | hn
    · exact .inl (mem_visit (.inl hn))
    · rcases List.mem_cons.mp hn with rfl | hn
      · exact .inl (mem_visit (.inr rfl))
      · exact .inr hn

theorem mem_copies : n ∈ (g.nodesOfKind .copy).map Prod.fst ↔ g.isCopy n := by
  simp only [List.mem_map, Prod.exists, exists_and_right, exists_eq_right,
    EvidenceGraph.mem_nodesOfKind, EvidenceGraph.isCopy, decide_eq_true_eq]
  constructor
  · rintro ⟨payload, hnode, hkind⟩
    cases payload <;> simp_all [NodePayload.kind]
  · exact fun h => ⟨.copy, h, rfl⟩

theorem build_exact : Exact g (build g).classes :=
  (visits_exact ∅ _ (fun _ hs => mem_copies.mp hs) (fun _ _ h => by cases h)).1

theorem mem_build : n ∈ (build g).classes ↔ g.isCopy n := by
  constructor
  · intro hn
    obtain ⟨members, hlookup⟩ := Option.isSome_iff_exists.mp (AList.lookup_isSome.mpr hn)
    exact (build_exact n members hlookup).1
  · intro hn
    exact (visits_exact ∅ _ (fun _ hs => mem_copies.mp hs)
      (fun _ _ h => by cases h)).2 n (.inr (mem_copies.mpr hn))

/-- The answer of a built graph. -/
theorem mayAlias_iff :
    (build g).mayAlias a b ↔ g.isCopy a ∧ Traversal.Reaches g.copyFlow a b := by
  rw [mayAlias]
  split
  · rename_i heq
    subst heq
    rw [decide_eq_true_eq, mem_build]
    exact ⟨fun ha => ⟨ha, .refl⟩, And.left⟩
  · split
    · rename_i members hlookup
      obtain ⟨ha, hmembers⟩ := build_exact a members hlookup
      rw [List.contains_iff_mem, hmembers]
      exact ⟨fun hreach => ⟨ha, hreach⟩, And.right⟩
    · rename_i hlookup
      have ha : ¬ g.isCopy a := fun ha => AList.lookup_eq_none.mp hlookup (mem_build.mpr ha)
      exact ⟨fun h => absurd h Bool.false_ne_true, fun h => absurd h.1 ha⟩

/-- A representative is the least copy of its component. -/
theorem mem_representatives : n ∈ (build g).representatives ↔
    g.isCopy n ∧ ∀ m, Traversal.Reaches g.copyFlow n m → n ≤ m := by
  rw [representatives, List.mem_dedup, List.mem_filterMap]
  constructor
  · rintro ⟨entry, hentry, hmin⟩
    have hlookup : (build g).classes.lookup entry.1 = some entry.2 :=
      AList.mem_lookup_iff.mpr hentry
    obtain ⟨hcopy, hmembers⟩ := build_exact _ _ hlookup
    obtain ⟨hmem, hleast⟩ := List.min?_eq_some_iff.mp hmin
    have hreach := (hmembers n).mp hmem
    refine ⟨isCopy_of_reaches hcopy hreach, fun m hm => hleast m ?_⟩
    exact (hmembers m).mpr (hreach.trans hm)
  · rintro ⟨hcopy, hleast⟩
    obtain ⟨members, hlookup⟩ :=
      Option.isSome_iff_exists.mp (AList.lookup_isSome.mpr (mem_build.mpr hcopy))
    obtain ⟨-, hmembers⟩ := build_exact _ _ hlookup
    refine ⟨⟨n, members⟩, AList.mem_lookup_iff.mp hlookup, ?_⟩
    refine List.min?_eq_some_iff.mpr ⟨(hmembers n).mpr .refl, fun m hm => ?_⟩
    exact hleast m ((hmembers m).mp hm)

/-- Every component has one representative. -/
theorem classCount_eq : (build g).classCount = Nat.card g.aliasNet.ConnectedComponent := by
  have hcount : (build g).classCount = Nat.card {n // n ∈ (build g).representatives} := by
    have hnodup : (build g).representatives.Nodup := List.nodup_dedup _
    rw [Nat.subtype_card (build g).representatives.toFinset fun _ => List.mem_toFinset,
      List.toFinset_card_of_nodup hnodup, classCount]
  rw [hcount]
  refine Nat.card_congr (Equiv.ofBijective (fun r => g.aliasNet.connectedComponentMk
    ⟨r.1, (mem_representatives.mp r.2).1⟩) ⟨?_, ?_⟩)
  · intro r s hrs
    obtain ⟨hr, hrleast⟩ := mem_representatives.mp r.2
    obtain ⟨hs, hsleast⟩ := mem_representatives.mp s.2
    have hreach : Traversal.Reaches g.copyFlow r.1 s.1 :=
      (EvidenceGraph.reachable_aliasNet hr hs).mp (SimpleGraph.ConnectedComponent.eq.mp hrs)
    exact Subtype.ext (Nat.le_antisymm (hrleast _ hreach) (hsleast _ (reaches_symm hreach)))
  · intro c
    obtain ⟨⟨n, hn⟩, rfl⟩ := c.exists_rep
    have hmem : Traversal.Reaches g.copyFlow n (sInf {m | Traversal.Reaches g.copyFlow n m}) :=
      Nat.sInf_mem (s := {m | Traversal.Reaches g.copyFlow n m}) ⟨n, .refl⟩
    have hcopy := isCopy_of_reaches hn hmem
    refine ⟨⟨_, mem_representatives.mpr ⟨hcopy, fun m hm => ?_⟩⟩, ?_⟩
    · exact Nat.sInf_le (hmem.trans hm)
    · exact SimpleGraph.ConnectedComponent.eq.mpr
        ((EvidenceGraph.reachable_aliasNet hcopy hn).mpr (reaches_symm hmem))

/-- The relation of a built graph is the equivalence on copies that the flow between them
spans, and its classes are counted right. -/
theorem build_components (g : EvidenceGraph) :
    (∀ n, g.isCopy n → (build g).mayAlias n n) ∧
    (∀ a b, (build g).mayAlias a b → (build g).mayAlias b a) ∧
    (∀ a b c, (build g).mayAlias a b → (build g).mayAlias b c → (build g).mayAlias a c) ∧
    (∀ a b, (build g).mayAlias a b ↔
      ∃ ha hb, g.aliasNet.Reachable ⟨a, ha⟩ ⟨b, hb⟩) ∧
    (∀ a b, ¬ g.isCopy a ∨ ¬ g.isCopy b → (build g).mayAlias a b = false) ∧
    (build g).classCount = Nat.card g.aliasNet.ConnectedComponent := by
  have hcopies : ∀ a b, (build g).mayAlias a b → g.isCopy a ∧ g.isCopy b := by
    intro a b h
    obtain ⟨ha, hreach⟩ := mayAlias_iff.mp h
    exact ⟨ha, isCopy_of_reaches ha hreach⟩
  refine ⟨?_, ?_, ?_, ?_, ?_, classCount_eq⟩
  · intro n hn
    exact mayAlias_iff.mpr ⟨hn, .refl⟩
  · intro a b h
    exact mayAlias_iff.mpr ⟨(hcopies a b h).2, reaches_symm (mayAlias_iff.mp h).2⟩
  · intro a b c hab hbc
    exact mayAlias_iff.mpr ⟨(hcopies a b hab).1,
      (mayAlias_iff.mp hab).2.trans (mayAlias_iff.mp hbc).2⟩
  · intro a b
    constructor
    · intro h
      obtain ⟨ha, hb⟩ := hcopies a b h
      exact ⟨ha, hb, (EvidenceGraph.reachable_aliasNet ha hb).mpr (mayAlias_iff.mp h).2⟩
    · rintro ⟨ha, hb, h⟩
      exact mayAlias_iff.mpr ⟨ha, (EvidenceGraph.reachable_aliasNet ha hb).mp h⟩
  · intro a b hnot
    refine Bool.eq_false_iff.mpr fun h => ?_
    obtain ⟨ha, hb⟩ := hcopies a b h
    exact hnot.elim (· ha) (· hb)

example : (build ⟨[.copy, .source, .copy, .copy],
    [⟨0, 2, .dataFlow⟩, ⟨3, 1, .dataFlow⟩]⟩).classCount = 2 := by decide

end Classes

end AliasGraph

end Axe.Vuln
