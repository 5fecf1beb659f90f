import Axe.Lib.Dijkstra
import Axe.Vuln.Graph

/-!
# Call distance

The edges of all kinds are searched. One that is not a call costs so much that what was reached
over it is above the cut-off, and the sums are of 32 bits.
-/
namespace Axe.Vuln

open Relaxation (Graph Walk)
open Dijkstra (Search Fits)

def U32_MAX : Nat := 4294967295

def edgeCost (kind : EdgeKind) : Nat := if kind = .calls then 1 else U32_MAX / 4

/-- The graph with the costs of its edges, the newest first. -/
def costGraph (g : EvidenceGraph) : Graph NodeId where
  next n := (g.edges.filter (·.source = n)).reverse.map fun e => (e.target, edgeCost e.kind)
  nodes := List.range g.nodes.length ++ g.edges.map Edge.target
  closed := by
    intro n e he
    obtain ⟨edge, hedge, rfl⟩ := List.mem_map.mp he
    have hmem := (List.mem_filter.mp (List.mem_reverse.mp hedge)).1
    exact List.mem_append.mpr (.inr (List.mem_map_of_mem hmem))

/-- The search of the library, from a node to a goal or to all nodes: the scores, or none where a
sum overflows. -/
abbrev DijkstraFn := Graph NodeId → NodeId → Option NodeId → Option (NodeId → Option Nat)

def callDistance (dijkstra : DijkstraFn) (g : EvidenceGraph) (source target : NodeId) :
    Option (Option Nat) :=
  if source = target then some (some 0)
  else (dijkstra (costGraph g) source (some target)).map fun scores =>
    (scores target).filter (· < U32_MAX / 4)

def callDistancesFrom (dijkstra : DijkstraFn) (g : EvidenceGraph) (source : NodeId) :
    Option (NodeId → Option Nat) :=
  (dijkstra (costGraph g) source none).map fun scores node =>
    (scores node).filter (· < U32_MAX / 4)

/-- What is relied on of the library: it settles nodes by their scores, from a node of the graph,
and sums the costs in 32 bits. -/
def SettlesByScore (dijkstra : DijkstraFn) : Prop :=
  ∀ graph start goal, start ∈ graph.nodes →
    Search graph U32_MAX goal (Dijkstra.initial start) (dijkstra graph start goal)

/-- The numbers of edges of the paths along calls. -/
inductive CallPath (g : EvidenceGraph) (source : NodeId) : NodeId → Nat → Prop
  | refl : CallPath g source source 0
  | step {u v : NodeId} {n : Nat} (h : CallPath g source u n)
      (he : ⟨u, v, .calls⟩ ∈ g.edges) : CallPath g source v (n + 1)

/-- The distances are those along calls, the two functions agree, and no sum overflows. -/
structure ExactDistances (dijkstra : DijkstraFn) (g : EvidenceGraph) (source : NodeId) : Prop where
  distance : ∀ target, ∃ r, callDistance dijkstra g source target = some r ∧
    ∀ d, r = some d ↔ IsLeast {n | CallPath g source target n} d
  distances : ∃ all, callDistancesFrom dijkstra g source = some all ∧
    ∀ target, callDistance dijkstra g source target = some (all target)

section Distances
variable {dijkstra : DijkstraFn} {g : EvidenceGraph} {source target n : NodeId} {d w : Nat}

theorem mem_costGraph_next {e : NodeId × Nat} : e ∈ (costGraph g).next n ↔
    ∃ kind, ⟨n, e.1, kind⟩ ∈ g.edges ∧ e.2 = edgeCost kind := by
  simp only [costGraph, List.mem_map, List.mem_reverse, List.mem_filter, decide_eq_true_eq]
  constructor
  · rintro ⟨⟨_, target, kind⟩, ⟨hmem, rfl⟩, rfl⟩
    exact ⟨kind, hmem, rfl⟩
  · rintro ⟨kind, hmem, hcost⟩
    exact ⟨_, ⟨hmem, rfl⟩, Prod.ext rfl hcost.symm⟩

theorem edgeCost_pos (kind : EdgeKind) : 0 < edgeCost kind := by
  cases kind <;> decide

/-- A walk below the cut-off is along calls. -/
theorem callPath_of_walk (h : Walk (costGraph g) source target w) (hw : w < U32_MAX / 4) :
    CallPath g source target w := by
  induction h with
  | refl => exact .refl
  | @step u w e hu he ih =>
    obtain ⟨kind, hedge, hcost⟩ := mem_costGraph_next.mp he
    rw [hcost, edgeCost] at hw ⊢
    split at hw
    · rename_i hkind
      rw [if_pos hkind]
      exact .step (ih (by omega)) (hkind ▸ hedge)
    · omega

theorem walk_of_callPath (h : CallPath g source target d) :
    Walk (costGraph g) source target d := by
  induction h with
  | refl => exact .refl
  | @step u v d hu he ih => exact .step (v, 1) ih (mem_costGraph_next.mpr ⟨.calls, he, rfl⟩)

theorem least_iff (hd : d < U32_MAX / 4) : IsLeast {w | Walk (costGraph g) source target w} d ↔
    IsLeast {n | CallPath g source target n} d := by
  constructor
  · rintro ⟨hwalk, hleast⟩
    exact ⟨callPath_of_walk hwalk hd, fun n hn => hleast (walk_of_callPath hn)⟩
  · rintro ⟨hpath, hleast⟩
    refine ⟨walk_of_callPath hpath, fun w hw => ?_⟩
    by_cases hlow : w < U32_MAX / 4
    · exact hleast (callPath_of_walk hw hlow)
    · omega

/-- The scores below the cut-off are the distances along calls, if these are below it. -/
theorem filter_score_iff {score : Option Nat}
    (hscore : ∀ d, score = some d ↔ IsLeast {w | Walk (costGraph g) source target w} d)
    (hshort : ∀ d, IsLeast {n | CallPath g source target n} d → d < U32_MAX / 4) :
    score.filter (· < U32_MAX / 4) = some d ↔ IsLeast {n | CallPath g source target n} d := by
  rw [Option.filter_eq_some_iff, hscore, decide_eq_true_eq]
  constructor
  · rintro ⟨hleast, hlow⟩
    exact (least_iff hlow).mp hleast
  · intro hleast
    exact ⟨(least_iff (hshort d hleast)).mpr hleast, hshort d hleast⟩

theorem source_least : IsLeast {n | CallPath g source source n} 0 :=
  ⟨.refl, fun _ _ => Nat.zero_le _⟩

theorem exact_of_fits (hlib : SettlesByScore dijkstra) (hsource : source ∈ (costGraph g).nodes)
    (hfits : Fits (costGraph g) U32_MAX source)
    (hshort : ∀ target d, IsLeast {n | CallPath g source target n} d → d < U32_MAX / 4) :
    ExactDistances dijkstra g source := by
  have hscores : ∀ goal, ∃ scores, dijkstra (costGraph g) source goal = some scores ∧
      ∀ v, goal = none ∨ goal = some v → ∀ d,
        (scores v).filter (· < U32_MAX / 4) = some d ↔ IsLeast {n | CallPath g source v n} d := by
    intro goal
    have hsearch := hlib (costGraph g) source goal hsource
    have hinv : Dijkstra.Inv (costGraph g) source (Dijkstra.initial source) :=
      Dijkstra.inv_initial
    obtain ⟨scores, hout⟩ :=
      Option.ne_none_iff_exists'.mp (hsearch.not_overflow hfits hinv)
    refine ⟨scores, hout, fun v hv d => filter_score_iff (fun d => ?_) (hshort v)⟩
    exact hsearch.exact hinv (fun _ _ => List.not_mem_nil) hout hv
  obtain ⟨all, hall, hexact⟩ := hscores none
  have hone : ∀ target, ∃ r, callDistance dijkstra g source target = some r ∧
      ∀ d, r = some d ↔ IsLeast {n | CallPath g source target n} d := by
    intro target
    rw [callDistance]
    split
    · rename_i heq
      subst heq
      refine ⟨some 0, rfl, fun d => ?_⟩
      rw [Option.some.injEq]
      exact ⟨fun h => h ▸ source_least, fun h => source_least.unique h⟩
    · obtain ⟨scores, hout, hscore⟩ := hscores (some target)
      rw [hout, Option.map_some]
      exact ⟨_, rfl, hscore target (.inr rfl)⟩
  refine ⟨hone, ⟨fun node => (all node).filter (· < U32_MAX / 4), ?_, fun target => ?_⟩⟩
  · rw [callDistancesFrom, hall, Option.map_some]
  · obtain ⟨r, hr, hleast⟩ := hone target
    rw [hr]
    congr 1
    exact Option.ext fun d => (hleast d).trans (hexact target (.inl rfl) d).symm

/-- There is such a library, whatever one search of it is. -/
theorem exists_library {graph : Graph NodeId} {start : NodeId} {out : Option (NodeId → Option Nat)}
    (hout : Search graph U32_MAX none (Dijkstra.initial start) out) :
    ∃ dijkstra, SettlesByScore dijkstra ∧ dijkstra graph start none = out := by
  classical
  have hruns : ∀ (graph : Graph NodeId) (start : NodeId) (goal : Option NodeId),
      ∃ out, Search graph U32_MAX goal (Dijkstra.initial start) out :=
    fun graph start goal => Dijkstra.inv_initial.exists_search U32_MAX goal
  choose run hrun using hruns
  refine ⟨fun graph' start' goal =>
    if graph' = graph ∧ start' = start ∧ goal = none then out else run graph' start' goal, ?_, ?_⟩
  · intro graph' start' goal _
    dsimp only
    split
    · rename_i heq
      obtain ⟨rfl, rfl, rfl⟩ := heq
      exact hout
    · exact hrun graph' start' goal
  · exact if_pos ⟨rfl, rfl, rfl⟩

/-- The distances from a node are exact with every such library just when no least cost overflows
with the cost of an edge to a node that is not nearer, and no call distance comes to the
cut-off. -/
theorem exact_iff_fits (g : EvidenceGraph) (source : NodeId) (hsource : source < g.nodeCount) :
    (∀ dijkstra, SettlesByScore dijkstra → ExactDistances dijkstra g source) ↔
      Fits (costGraph g) U32_MAX source ∧
      ∀ target d, IsLeast {n | CallPath g source target n} d → d < U32_MAX / 4 := by
  have hnode : source ∈ (costGraph g).nodes :=
    List.mem_append.mpr (.inl (List.mem_range.mpr hsource))
  have hinv : Dijkstra.Inv (costGraph g) source (Dijkstra.initial source) :=
    Dijkstra.inv_initial
  constructor
  · intro hexact
    constructor
    · intro u d hleast e he hfar
      by_contra hover
      have hpos : ∀ u, ∀ e ∈ (costGraph g).next u, 0 < e.2 := by
        intro u e he
        obtain ⟨kind, -, hcost⟩ := mem_costGraph_next.mp he
        exact hcost ▸ edgeCost_pos kind
      have hsearch := hinv.exists_overflow hpos hleast he hfar (not_le.mp hover)
        List.not_mem_nil List.not_mem_nil
      obtain ⟨dijkstra, hlib, hout⟩ := exists_library hsearch
      obtain ⟨all, hall, -⟩ := (hexact dijkstra hlib).distances
      rw [callDistancesFrom, hout] at hall
      cases hall
    · intro target d hleast
      obtain ⟨out, hsearch⟩ := hinv.exists_search U32_MAX none
      obtain ⟨dijkstra, hlib, -⟩ := exists_library hsearch
      obtain ⟨all, hall, hsame⟩ := (hexact dijkstra hlib).distances
      obtain ⟨r, hr, hdist⟩ := (hexact dijkstra hlib).distance target
      have hd := (hdist d).mpr hleast
      rw [hsame target, Option.some.injEq] at hr
      rw [callDistancesFrom, Option.map_eq_some_iff] at hall
      obtain ⟨scores, -, rfl⟩ := hall
      rw [← hr, Option.filter_eq_some_iff] at hd
      exact of_decide_eq_true hd.2
  · rintro ⟨hfits, hshort⟩ dijkstra hlib
    exact exact_of_fits hlib hnode hfits hshort

end Distances

section Example

/-- A function and five of its blocks, each followed by the next. -/
def blockChain : EvidenceGraph where
  nodes := .function 4096 ::
    (List.range 5).map fun i => .basicBlock 4096 (4096 + 16 * i) (4112 + 16 * i)
  edges := (List.range 5).map fun i => ⟨i, i + 1, .controlFlow⟩

theorem mem_blockChain_edges {e : Edge} : e ∈ blockChain.edges ↔
    ∃ i < 5, ⟨i, i + 1, .controlFlow⟩ = e := by
  simp only [blockChain, List.mem_map, List.mem_range]

theorem blockChain_edge {n : Nat} {e : Nat × Nat} (he : e ∈ (costGraph blockChain).next n) :
    e.1 = n + 1 ∧ e.2 = U32_MAX / 4 := by
  obtain ⟨kind, hedge, hcost⟩ := mem_costGraph_next.mp he
  obtain ⟨i, -, heq⟩ := mem_blockChain_edges.mp hedge
  obtain ⟨rfl, hend, rfl⟩ := Edge.mk.inj heq
  exact ⟨hend.symm, hcost⟩

theorem blockChain_walk {n w : Nat} (h : Walk (costGraph blockChain) 0 n w) :
    w = n * (U32_MAX / 4) := by
  induction h with
  | refl => rfl
  | step e _ he ih =>
    obtain ⟨hnode, hcost⟩ := blockChain_edge he
    rw [ih, hnode, hcost, Nat.succ_mul]

theorem blockChain_reached {n : Nat} (hn : n ≤ 4) :
    Walk (costGraph blockChain) 0 n (n * (U32_MAX / 4)) := by
  induction n with
  | zero => exact .refl
  | succ n ih =>
    rw [Nat.succ_mul]
    refine .step (n + 1, U32_MAX / 4) (ih (by omega))
      (mem_costGraph_next.mpr ⟨.controlFlow, ?_, rfl⟩)
    exact mem_blockChain_edges.mpr ⟨n, Nat.lt_succ_of_lt hn, rfl⟩

/-- The fifth step overflows, with every library. -/
theorem blockChain_overflows : (∃ dijkstra, SettlesByScore dijkstra) ∧
    ¬ ∃ dijkstra, SettlesByScore dijkstra ∧ ExactDistances dijkstra blockChain 0 := by
  have hinv : Dijkstra.Inv (costGraph blockChain) 0 (Dijkstra.initial 0) := Dijkstra.inv_initial
  constructor
  · obtain ⟨out, hsearch⟩ := hinv.exists_search U32_MAX none
    obtain ⟨dijkstra, hlib, -⟩ := exists_library hsearch
    exact ⟨dijkstra, hlib⟩
  · rintro ⟨dijkstra, hlib, hexact⟩
    obtain ⟨all, hall, -⟩ := hexact.distances
    have hleast : IsLeast {w | Walk (costGraph blockChain) 0 4 w} (4 * (U32_MAX / 4)) :=
      ⟨blockChain_reached (Nat.le_refl 4), fun w hw => (blockChain_walk hw).ge⟩
    have hedge : ((5, U32_MAX / 4) : NodeId × Nat) ∈ (costGraph blockChain).next 4 := by decide
    have hfar : ∀ w, Walk (costGraph blockChain) 0 5 w → 4 * (U32_MAX / 4) < w := by
      intro w hw
      rw [blockChain_walk hw]
      decide
    have hover := (hlib (costGraph blockChain) 0 none (by decide)).overflow_of_far rfl hinv hleast
      hedge hfar (by decide) List.not_mem_nil List.not_mem_nil
    rw [callDistancesFrom, hover] at hall
    cases hall

/-- A function that calls another one. -/
def oneCall : EvidenceGraph := ⟨[.function 4096, .function 8192], [⟨0, 1, .calls⟩]⟩

theorem exact_iff_fits_oneCall : 0 < oneCall.nodeCount ∧
    ((∀ dijkstra, SettlesByScore dijkstra → ExactDistances dijkstra oneCall 0) ↔
      Fits (costGraph oneCall) U32_MAX 0 ∧
      ∀ target d, IsLeast {n | CallPath oneCall 0 target n} d → d < U32_MAX / 4) :=
  ⟨by decide, exact_iff_fits oneCall 0 (by decide)⟩

end Example

end Axe.Vuln
