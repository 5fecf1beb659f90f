import Mathlib.Algebra.Order.BigOperators.Group.List
import Axe.Lib.Dominance
import Axe.Lib.Loops

/-!
# Dominators by iterated intersection

Every node starts with a set that is too large, and sweeps over the nodes replace the set of a
node by a function of the sets of the others until a sweep changes nothing. The sets only
shrink, so the sweeps end, and they end with the greatest solution. Where the function meets the
sets of the predecessors, the solution is the dominators.
-/
namespace DominatorSets

open Dominance

variable {α : Type}

abbrev Sets (α : Type) := α → Finset α

def Isotone (next : Sets α → α → Finset α) : Prop :=
  ∀ D E : Sets α, (∀ b, D b ⊆ E b) → ∀ b, next D b ⊆ next E b

/-- No set is smaller than what a visit makes of it. -/
def Descending (next : Sets α → α → Finset α) (nodes : List α) (D : Sets α) : Prop :=
  ∀ b ∈ nodes, next D b ⊆ D b

/-- A family of sets that no visit takes anything from. -/
def Stays (next : Sets α → α → Finset α) (nodes : List α) (E : Sets α) : Prop :=
  ∀ b ∈ nodes, E b ⊆ next E b

def weight (nodes : List α) (D : Sets α) : Nat := (nodes.map fun b => (D b).card).sum

/-- What visits do to a family of sets. -/
structure Shrinks (next : Sets α → α → Finset α) (nodes : List α) (D D' : Sets α) : Prop where
  le : ∀ b, D' b ⊆ D b
  descending : Descending next nodes D'
  keeps : ∀ E, (∀ b, E b ⊆ D b) → Stays next nodes E → ∀ b, E b ⊆ D' b

section Sets
variable {next : Sets α → α → Finset α} {nodes : List α} {D D' D'' : Sets α} {b : α}

theorem Shrinks.refl (h : Descending next nodes D) : Shrinks next nodes D D :=
  ⟨fun _ => Finset.Subset.refl _, h, fun _ hE _ => hE⟩

theorem Shrinks.trans (h : Shrinks next nodes D D') (h' : Shrinks next nodes D' D'') :
    Shrinks next nodes D D'' :=
  ⟨fun b => (h'.le b).trans (h.le b), h'.descending,
    fun E hE hstays => h'.keeps E (h.keeps E hE hstays) hstays⟩

theorem weight_le (h : ∀ b, D' b ⊆ D b) : weight nodes D' ≤ weight nodes D :=
  List.sum_le_sum fun b _ => Finset.card_le_card (h b)

theorem weight_lt (h : ∀ b, D' b ⊆ D b) (hb : b ∈ nodes) (hlt : D' b ⊂ D b) :
    weight nodes D' < weight nodes D :=
  List.sum_lt_sum _ _ (fun b _ => Finset.card_le_card (h b)) ⟨b, hb, Finset.card_lt_card hlt⟩

end Sets

section Solutions
variable {edges : List (α × α)} {roots : α → Prop} {D D' : Sets α} {r u v a b : α} {p : List α}
  {next : Sets α → α → Finset α} {nodes : List α} {V : Finset α}

/-- Sets that hold their root alone, and elsewhere no more than the node and what each
predecessor has. -/
structure Sound (edges : List (α × α)) (roots : α → Prop) (D : Sets α) : Prop where
  root : ∀ r, roots r → D r ⊆ {r}
  edge : ∀ u v, (u, v) ∈ edges → ¬ roots v → ∀ a ∈ D v, a = v ∨ a ∈ D u

theorem Sound.mem_path (h : Sound edges roots D) (hp : Path edges u b p) (ha : a ∈ D b) :
    a ∈ p ∨ a ∈ D u := by
  induction hp with
  | single => exact .inr ha
  | @cons u v w p hedge hrest ih =>
    rcases ih ha with hmem | hmem
    · exact .inl (List.mem_cons_of_mem _ hmem)
    · by_cases hv : roots v
      · have heq := Finset.mem_singleton.mp (h.root v hv hmem)
        exact .inl (List.mem_cons_of_mem _ (heq ▸ hrest.head_mem))
      · rcases h.edge u v hedge hv a hmem with heq | hmem
        · exact .inl (List.mem_cons_of_mem _ (heq ▸ hrest.head_mem))
        · exact .inr hmem

/-- What is in the set of a node is on every path there from a root. -/
theorem Sound.dominates (h : Sound edges roots D) (hr : roots r) (ha : a ∈ D b) :
    Dominates edges r a b := by
  intro p hp
  rcases h.mem_path hp ha with hmem | hmem
  · exact hmem
  · exact Finset.mem_singleton.mp (h.root r hr hmem) ▸ hp.head_mem

/-- A dominator of a node other than itself is one of each predecessor. -/
theorem dominates_pred (h : Dominates edges r a v) (hne : a ≠ v) (hedge : (u, v) ∈ edges) :
    Dominates edges r a u := by
  intro p hp
  have hmem := h _ (hp.snoc hedge)
  rw [List.mem_append, List.mem_singleton] at hmem
  exact hmem.resolve_right hne

/-- The nodes that are on every path from each root. -/
noncomputable def dominatorsFrom (edges : List (α × α)) (roots : α → Prop) (V : Finset α) (b : α) :
    Finset α :=
  open Classical in V.filter fun a => ∀ r, roots r → Dominates edges r a b

theorem mem_dominatorsFrom :
    a ∈ dominatorsFrom edges roots V b ↔
      a ∈ V ∧ ∀ r, roots r → Dominates edges r a b := by
  classical exact Finset.mem_filter

/-- Where the sweeps end with sets that are sound, these are the dominators. -/
theorem mem_greatest_iff (hV : ∀ b, D b ⊆ V) (hstart : ∀ b, dominatorsFrom edges roots V b ⊆ D b)
    (hstays : Stays next nodes (dominatorsFrom edges roots V)) (hshrinks : Shrinks next nodes D D')
    (hsound : Sound edges roots D') :
    a ∈ D' b ↔ a ∈ V ∧ ∀ r, roots r → Dominates edges r a b := by
  constructor
  · exact fun ha => ⟨hV b (hshrinks.le b ha), fun r hr => hsound.dominates hr ha⟩
  · exact fun ha => hshrinks.keeps _ hstart hstays b (mem_dominatorsFrom.mpr ha)

end Solutions

variable [DecidableEq α]

/-- One visit of a node, with the mark whether a set was replaced so far. -/
def visit (next : Sets α → α → Finset α) (found : Sets α × Bool) (b : α) : Sets α × Bool :=
  if found.1 b = next found.1 b then found
  else (Function.update found.1 b (next found.1 b), true)

def sweep (next : Sets α → α → Finset α) (nodes : List α) (D : Sets α) : Sets α × Bool :=
  nodes.foldl (visit next) (D, false)

def turn (next : Sets α → α → Finset α) (nodes : List α) (D : Sets α) :
    Loops.Turn (Sets α) (Sets α) :=
  if (sweep next nodes D).2 then .next (sweep next nodes D).1 else .ended (sweep next nodes D).1

section Sweeps
variable {next : Sets α → α → Finset α} {nodes visited : List α} {D D' E : Sets α} {b : α}
  {n : Nat}

theorem shrinks_update (hmono : Isotone next) (h : Descending next nodes D) (hb : b ∈ nodes) :
    Shrinks next nodes D (Function.update D b (next D b)) := by
  have hle : ∀ c, Function.update D b (next D b) c ⊆ D c := by
    intro c
    by_cases hc : c = b
    · subst hc
      rw [Function.update_self]
      exact h c hb
    · rw [Function.update_of_ne hc]
  refine ⟨hle, fun c hcn => ?_, fun E hE hstays c => ?_⟩
  · have hnext := hmono _ _ hle c
    by_cases hc : c = b
    · subst hc
      rwa [Function.update_self]
    · rw [Function.update_of_ne hc]
      exact hnext.trans (h c hcn)
  · by_cases hc : c = b
    · subst hc
      rw [Function.update_self]
      exact (hstays c hb).trans (hmono _ _ hE c)
    · rw [Function.update_of_ne hc]
      exact hE c

/-- A run of visits shrinks the sets. With a change the weight goes down; without one every
visited node has the set that its visit gives. -/
theorem foldl_visit (hmono : Isotone next) (h : Descending next nodes D)
    (hsub : ∀ b ∈ visited, b ∈ nodes) (changed : Bool) :
    Shrinks next nodes D (visited.foldl (visit next) (D, changed)).1 ∧
    ((visited.foldl (visit next) (D, changed)).2 = true →
      changed = true ∨
        weight nodes (visited.foldl (visit next) (D, changed)).1 < weight nodes D) ∧
    ((visited.foldl (visit next) (D, changed)).2 = false →
      changed = false ∧ (visited.foldl (visit next) (D, changed)).1 = D ∧
        ∀ b ∈ visited, next D b = D b) := by
  induction visited generalizing D changed with
  | nil =>
    exact ⟨.refl h, fun hc => .inl hc, fun hc => ⟨hc, rfl, fun b hb => absurd hb List.not_mem_nil⟩⟩
  | cons b rest ih =>
    have hb := hsub b List.mem_cons_self
    have hrest := fun c hc => hsub c (List.mem_cons_of_mem b hc)
    rw [List.foldl_cons, visit]
    by_cases heq : D b = next D b
    · rw [if_pos heq]
      obtain ⟨hshrinks, htrue, hfalse⟩ := ih h hrest changed
      refine ⟨hshrinks, htrue, fun hc => ?_⟩
      obtain ⟨hunchanged, hsame, hall⟩ := hfalse hc
      exact ⟨hunchanged, hsame, List.forall_mem_cons.mpr ⟨heq.symm, hall⟩⟩
    · rw [if_neg heq]
      have hstep := shrinks_update hmono h hb
      have hlt : weight nodes (Function.update D b (next D b)) < weight nodes D := by
        refine weight_lt hstep.le hb ?_
        rw [Function.update_self]
        exact (h b hb).ssubset_of_ne (Ne.symm heq)
      obtain ⟨hshrinks, -, hfalse⟩ := ih hstep.descending hrest true
      refine ⟨hstep.trans hshrinks, fun _ => .inr ?_, fun hc => ?_⟩
      · exact Nat.lt_of_le_of_lt (weight_le hshrinks.le) hlt
      · exact absurd (hfalse hc).1.symm Bool.false_ne_true

/-- The sweeps end, given a turn for each element and one more, and they end with the greatest
family of sets that visits leave alone. -/
theorem exists_greatest (hmono : Isotone next) (h : Descending next nodes D)
    (hn : weight nodes D < n) :
    ∃ D', Loops.run (turn next nodes) n D = some D' ∧ Shrinks next nodes D D' ∧
      ∀ b ∈ nodes, next D' b = D' b := by
  have hself : ∀ b ∈ nodes, b ∈ nodes := fun _ hb => hb
  have hturn : ∀ s s', turn next nodes s = .next s' → Shrinks next nodes D s →
      Shrinks next nodes D s' ∧ weight nodes s' < weight nodes s := by
    intro s s' hs hD
    obtain ⟨hshrinks, htrue, -⟩ := foldl_visit hmono hD.descending hself false
    rw [turn] at hs
    split at hs
    · rename_i hc
      cases hs
      exact ⟨hD.trans hshrinks, (htrue hc).resolve_left Bool.false_ne_true⟩
    · cases hs
  have hended : ∀ s r, turn next nodes s = .ended r → Shrinks next nodes D s →
      Shrinks next nodes D r ∧ ∀ b ∈ nodes, next r b = r b := by
    intro s r hs hD
    obtain ⟨-, -, hfalse⟩ := foldl_visit hmono hD.descending hself false
    rw [turn] at hs
    split at hs
    · cases hs
    · rename_i hc
      obtain ⟨-, hsame, hall⟩ := hfalse (Bool.eq_false_iff.mpr hc)
      cases hs
      rw [show (sweep next nodes s).1 = s from hsame]
      exact ⟨hD, hall⟩
  obtain ⟨D', hD'⟩ := Loops.run_ends_of _ hturn (.refl h) hn
  have hlast := Loops.run_keeps (Q := fun r => Shrinks next nodes D r ∧ ∀ b ∈ nodes, next r b = r b)
    (fun s s' hs hD => (hturn s s' hs hD).1) hended hD' (.refl h)
  exact ⟨D', hD', hlast⟩

end Sweeps

/-- The elements that all of the sets have; none when there are no sets. -/
def meet : List (Finset α) → Finset α
  | [] => ∅
  | s :: rest => rest.foldl (· ∩ ·) s

section Meet
variable {sets : List (Finset α)} {s : Finset α} {a b : α}

theorem mem_foldl_inter : a ∈ sets.foldl (· ∩ ·) s ↔ a ∈ s ∧ ∀ t ∈ sets, a ∈ t := by
  induction sets generalizing s with
  | nil => exact ⟨fun h => ⟨h, fun t ht => absurd ht List.not_mem_nil⟩, And.left⟩
  | cons t rest ih => rw [List.foldl_cons, ih, Finset.mem_inter, List.forall_mem_cons, and_assoc]

theorem mem_meet (hne : sets ≠ []) : a ∈ meet sets ↔ ∀ t ∈ sets, a ∈ t := by
  cases sets with
  | nil => exact absurd rfl hne
  | cons s rest => rw [meet, mem_foldl_inter, List.forall_mem_cons]

/-- The node itself, and what is in the sets of all of its predecessors. -/
def meetOver (preds : α → List α) (D : Sets α) (b : α) : Finset α :=
  insert b (meet ((preds b).map D))

theorem mem_meetOver {preds : α → List α} {D : Sets α} (hne : preds b ≠ []) :
    a ∈ meetOver preds D b ↔ a = b ∨ ∀ p ∈ preds b, a ∈ D p := by
  rw [meetOver, Finset.mem_insert, mem_meet (List.map_eq_nil_iff.not.mpr hne),
    List.forall_mem_map]

theorem meetOver_nil {preds : α → List α} {D : Sets α} (h : preds b = []) :
    meetOver preds D b = {b} := by
  rw [meetOver, h]
  rfl

theorem isotone_meetOver (preds : α → List α) : Isotone (meetOver preds) := by
  intro D E hDE b a ha
  by_cases hne : preds b = []
  · rwa [meetOver_nil hne] at ha ⊢
  · rw [mem_meetOver hne] at ha ⊢
    exact ha.imp_right fun h p hp => hDE p (h p hp)

end Meet

section Dominators
variable {edges : List (α × α)} {roots : α → Prop} {V : Finset α} {nodes : List α}
  {preds : α → List α} {b : α}

/-- Visits that meet predecessors take nothing from the dominators. -/
theorem dominatorsFrom_subset_meetOver (hpreds : ∀ u ∈ preds b, (u, b) ∈ edges)
    (h : preds b = [] → roots b) :
    dominatorsFrom edges roots V b ⊆ meetOver preds (dominatorsFrom edges roots V) b := by
  intro a ha
  rw [mem_dominatorsFrom] at ha
  by_cases hne : preds b = []
  · rw [meetOver_nil hne]
    exact Finset.mem_singleton.mpr (List.mem_singleton.mp (ha.2 b (h hne) _ (.single b)))
  · rw [mem_meetOver hne]
    by_cases heq : a = b
    · exact .inl heq
    · refine .inr fun p hp => mem_dominatorsFrom.mpr ⟨ha.1, fun r hr => ?_⟩
      exact dominates_pred (ha.2 r hr) heq (hpreds p hp)

/-- All nodes for each, but the root alone for the root. -/
def initialSets (root : α) (V : Finset α) (b : α) : Finset α := if b = root then {root} else V

theorem initialSets_subset {root : α} (h : root ∈ V) : initialSets root V b ⊆ V := by
  rw [initialSets]
  split
  · exact Finset.singleton_subset_iff.mpr h
  · exact Finset.Subset.refl V

/-- The set of the root stays the root alone. -/
theorem Shrinks.root_subset {root : α} {next : Sets α → α → Finset α} {D : Sets α}
    (h : Shrinks next nodes (initialSets root V) D) : D root ⊆ {root} := by
  have hle := h.le root
  rwa [initialSets, if_pos rfl] at hle

theorem descending_initialSets {root : α} (preds : α → List α) (hroot : root ∈ V)
    (hnodes : ∀ b ∈ nodes, b ∈ V ∧ b ≠ root) :
    Descending (meetOver preds) nodes (initialSets root V) := by
  intro b hb a ha
  obtain ⟨hV, hne⟩ := hnodes b hb
  rw [initialSets, if_neg hne]
  by_cases hnone : preds b = []
  · rw [meetOver_nil hnone] at ha
    exact Finset.mem_singleton.mp ha ▸ hV
  · rcases (mem_meetOver hnone).mp ha with rfl | hall
    · exact hV
    · obtain ⟨p, hp⟩ := List.exists_mem_of_ne_nil _ hnone
      exact initialSets_subset hroot (hall p hp)

theorem dominatorsFrom_subset_initialSets {root : α} (h : roots root) :
    dominatorsFrom edges roots V b ⊆ initialSets root V b := by
  intro a ha
  rw [mem_dominatorsFrom] at ha
  rw [initialSets]
  split
  · rename_i heq
    subst heq
    exact Finset.mem_singleton.mpr (List.mem_singleton.mp (ha.2 b h _ (.single b)))
  · exact ha.1

theorem weight_initialSets_lt {root : α} {l : List α} (h : root ∈ l)
    (hnodes : nodes.length ≤ l.length) :
    weight nodes (initialSets root l.toFinset) < l.length * l.length + 1 := by
  have hcard : ∀ n ∈ nodes.map fun b => (initialSets root l.toFinset b).card, n ≤ l.length := by
    intro n hn
    obtain ⟨b, -, rfl⟩ := List.mem_map.mp hn
    have hsub := Finset.card_le_card (initialSets_subset (b := b) (List.mem_toFinset.mpr h))
    exact hsub.trans (List.toFinset_card_le l)
  have hsum := List.sum_le_card_nsmul _ _ hcard
  rw [List.length_map, nsmul_eq_mul, Nat.cast_id] at hsum
  exact Nat.lt_succ_iff.mpr (hsum.trans (Nat.mul_le_mul_right _ hnodes))

end Dominators

end DominatorSets
