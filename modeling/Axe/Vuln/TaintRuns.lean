import Axe.Vuln.Taint

/-!
# What the marks say

A mark of the first pass stands for a path of data flow. The second pass only adds
summary marks behind the marks of the first.
-/
namespace Axe.Vuln

namespace TaintMap

section Lower
variable {mark : TaintMark} {l : List TaintMark} {s : NodeId} {P : TaintMark → Prop}

theorem lower_origins :
    (∃ x ∈ (lower mark l).1, x.sourceNode = s) ↔
      (∃ x ∈ l, x.sourceNode = s) ∨ mark.sourceNode = s := by
  induction l with
  | nil => simp [lower]
  | cons m rest ih =>
    rw [lower]
    split
    · rename_i heq
      split
      · simp only [List.mem_cons, exists_eq_or_imp, heq.1]
        grind
      · simp only [List.mem_cons, exists_eq_or_imp, heq.1]
        grind
    · simp only [List.mem_cons, exists_eq_or_imp, ih, or_assoc]

/-- What holds of the mark and of the old marks holds of the new ones. -/
theorem lower_forall (hmark : P mark) (hl : ∀ x ∈ l, P x)
    (hcongr : ∀ x, P x → P { x with hopCount := mark.hopCount }) :
    ∀ x ∈ (lower mark l).1, P x := by
  induction l with
  | nil => exact List.forall_mem_singleton.mpr hmark
  | cons m rest ih =>
    obtain ⟨hm, hrest⟩ := List.forall_mem_cons.mp hl
    rw [lower]
    split
    · split
      · exact List.forall_mem_cons.mpr ⟨hcongr m hm, hrest⟩
      · exact hl
    · exact List.forall_mem_cons.mpr ⟨hm, ih hrest⟩

/-- A summary mark goes behind the exact ones. -/
theorem lower_append {exacts : List TaintMark} (hexact : ∀ x ∈ exacts, x.mode = .exact)
    (hmark : mark.mode = .summary) : (lower mark (exacts ++ l)).1 = exacts ++ (lower mark l).1 := by
  induction exacts with
  | nil => rfl
  | cons m rest ih =>
    obtain ⟨hm, hrest⟩ := List.forall_mem_cons.mp hexact
    rw [List.cons_append, lower, if_neg (by rw [hm, hmark]; exact fun h => nomatch h.2)]
    exact congrArg (m :: ·) (ih hrest)

end Lower

section Add
variable {m m' : TaintMap} {n s : NodeId} {marks : List (NodeId × TaintMark)}

theorem addAll_eq :
    (addAll marks m).1 = marks.foldl (fun m x => (m.add x.1 x.2).1) m := by
  rw [addAll]
  generalize false = changed
  induction marks generalizing m changed with
  | nil => rfl
  | cons x rest ih => exact ih _

theorem addAll_origins :
    (∃ x ∈ (addAll marks m).1 n, x.sourceNode = s) ↔
      (∃ x ∈ m n, x.sourceNode = s) ∨ ∃ x ∈ marks, x.1 = n ∧ x.2.sourceNode = s := by
  rw [addAll_eq]
  induction marks generalizing m with
  | nil => simp
  | cons x rest ih =>
    rw [List.foldl_cons, ih, TaintMap.add]
    simp only [List.mem_cons, exists_eq_or_imp]
    by_cases h : x.1 = n
    · rw [h, Function.update_self, lower_origins]
      simp only [true_and, or_assoc]
    · rw [Function.update_of_ne (Ne.symm h)]
      simp only [h, false_and, false_or]

theorem addAll_forall {P : TaintMark → Prop} (hmarks : ∀ x ∈ marks, P x.2)
    (hm : ∀ n, ∀ x ∈ m n, P x)
    (hcongr : ∀ mark x, P mark → P x → P { x with hopCount := mark.hopCount }) :
    ∀ n, ∀ x ∈ (addAll marks m).1 n, P x := by
  rw [addAll_eq]
  induction marks generalizing m with
  | nil => exact hm
  | cons y rest ih =>
    obtain ⟨hy, hrest⟩ := List.forall_mem_cons.mp hmarks
    refine ih hrest fun n => ?_
    dsimp only [TaintMap.add]
    by_cases h : n = y.1
    · rw [h, Function.update_self]
      exact lower_forall hy (hm _) fun x => hcongr _ x hy
    · rw [Function.update_of_ne h]
      exact hm n

/-- A map with summary marks behind the exact marks of another. -/
def Extends (m m' : TaintMap) : Prop :=
  ∀ n, ∃ rest, m' n = m n ++ rest ∧ ∀ x ∈ rest, x.mode = .summary

theorem Extends.addAll (hm : ∀ n, ∀ x ∈ m n, x.mode = .exact) (h : Extends m m')
    (hmarks : ∀ x ∈ marks, x.2.mode = .summary) : Extends m (m'.addAll marks).1 := by
  rw [addAll_eq]
  induction marks generalizing m' with
  | nil => exact h
  | cons y rest ih =>
    obtain ⟨hy, hrest⟩ := List.forall_mem_cons.mp hmarks
    refine ih (fun n => ?_) hrest
    obtain ⟨tail, htail, hsummary⟩ := h n
    dsimp only [TaintMap.add]
    by_cases hn : n = y.1
    · subst hn
      refine ⟨(lower y.2 tail).1, ?_, lower_forall hy hsummary fun _ hx => hx⟩
      rw [Function.update_self, htail, lower_append (hm _) hy]
    · rw [Function.update_of_ne hn]
      exact ⟨tail, htail, hsummary⟩

end Add

end TaintMap

section Propagation
variable {g : EvidenceGraph} {summaries : Nat → Option CallSummary}

theorem reaches_reverse {edges : List (NodeId × NodeId)} :
    Traversal.Reaches edges.reverse = Traversal.Reaches edges := by
  simp only [Traversal.Reaches, List.mem_reverse]

/-- The marks of one source, on all that it flows to. -/
def markFrom (g : EvidenceGraph) (m : TaintMap) (source : NodeId × String) : TaintMap :=
  (m.addAll ((Traversal.search (g.edgesOfKind .dataFlow).reverse
    ((g.edgesOfKind .dataFlow).length + 1) [source.1] []).map fun n =>
      (n, ⟨source.1, source.2, .exact, 0⟩))).1

theorem propagateIntraprocedural_eq (toLowercase : String → String) (g : EvidenceGraph)
    (catalog : List Source) :
    propagateIntraprocedural toLowercase g catalog =
      (discoverSourceNodes toLowercase g catalog).foldl (markFrom g) TaintMap.new := rfl

theorem markFrom_origins {m : TaintMap} {source : NodeId × String} {n s : NodeId} :
    (∃ x ∈ markFrom g m source n, x.sourceNode = s) ↔
      (∃ x ∈ m n, x.sourceNode = s) ∨ s = source.1 ∧ g.FlowsTo s n := by
  rw [markFrom, TaintMap.addAll_origins]
  refine or_congr_right ?_
  simp only [List.mem_map, exists_exists_and_eq_and]
  rw [← List.length_reverse, EvidenceGraph.FlowsTo, ← reaches_reverse]
  constructor
  · rintro ⟨a, ha, rfl, rfl⟩
    exact ⟨rfl, Traversal.mem_search_iff.mp ha⟩
  · rintro ⟨rfl, hreach⟩
    exact ⟨n, Traversal.mem_search_iff.mpr hreach, rfl, rfl⟩

theorem foldl_markFrom_origins (sources : List (NodeId × String)) (m : TaintMap) (n s : NodeId) :
    (∃ x ∈ sources.foldl (markFrom g) m n, x.sourceNode = s) ↔
      (∃ x ∈ m n, x.sourceNode = s) ∨ s ∈ sources.map Prod.fst ∧ g.FlowsTo s n := by
  induction sources generalizing m with
  | nil => simp
  | cons source rest ih =>
    rw [List.foldl_cons, ih, markFrom_origins, List.map_cons, List.mem_cons, or_and_right, or_assoc]

/-- The first pass marks a node from just the sources that flow to it. -/
theorem intraprocedural_origins (toLowercase : String → String) (g : EvidenceGraph)
    (catalog : List Source) (n s : NodeId) :
    (∃ x ∈ propagateIntraprocedural toLowercase g catalog n, x.sourceNode = s) ↔
      s ∈ (discoverSourceNodes toLowercase g catalog).map Prod.fst ∧ g.FlowsTo s n := by
  rw [propagateIntraprocedural_eq, foldl_markFrom_origins]
  simp [TaintMap.new]

theorem intraprocedural_exact (toLowercase : String → String) (g : EvidenceGraph)
    (catalog : List Source) :
    ∀ n, ∀ x ∈ propagateIntraprocedural toLowercase g catalog n,
      x.mode = .exact ∧ x.hopCount = 0 := by
  have hfold : ∀ (sources : List (NodeId × String)) (m : TaintMap),
      (∀ n, ∀ x ∈ m n, x.mode = .exact ∧ x.hopCount = 0) →
      ∀ n, ∀ x ∈ sources.foldl (markFrom g) m n, x.mode = .exact ∧ x.hopCount = 0 := by
    intro sources
    induction sources with
    | nil => exact fun m h => h
    | cons source rest ih =>
      intro m h
      refine ih _ (TaintMap.addAll_forall ?_ h fun mark x hmark hx => ⟨hx.1, hmark.2⟩)
      intro x hx
      obtain ⟨a, -, rfl⟩ := List.mem_map.mp hx
      exact ⟨rfl, rfl⟩
  rw [propagateIntraprocedural_eq]
  exact hfold _ _ fun _ _ hx => absurd hx List.not_mem_nil

theorem passedMarks_summary {m : TaintMap} {functionId : NodeId} {va : Nat} :
    ∀ x ∈ passedMarks g summaries m functionId va, x.2.mode = .summary := by
  intro x hx
  rw [passedMarks] at hx
  split at hx
  · exact absurd hx List.not_mem_nil
  · rcases List.mem_append.mp hx with hx | hx
    · split at hx
      · obtain ⟨⟨api, sinkVa⟩, -, hx⟩ := List.mem_flatMap.mp hx
        dsimp only at hx
        split at hx
        · obtain ⟨mark, -, rfl⟩ := List.mem_map.mp hx
          rfl
        · exact absurd hx List.not_mem_nil
      · exact absurd hx List.not_mem_nil
    · obtain ⟨callee, -, hx⟩ := List.mem_flatMap.mp hx
      obtain ⟨-, hx⟩ := List.mem_ite_nil_right.mp hx
      obtain ⟨mark, -, rfl⟩ := List.mem_map.mp hx
      rfl

theorem extends_round {m m' : TaintMap} (hm : ∀ n, ∀ x ∈ m n, x.mode = .exact)
    (h : m.Extends m') : m.Extends (propagateRound g summaries m').1 := by
  rw [propagateRound]
  generalize false = changed
  induction g.nodesOfKind .function generalizing m' changed with
  | nil => exact h
  | cons x rest ih =>
    obtain ⟨functionId, payload⟩ := x
    cases payload with
    | function va => exact ih (h.addAll hm passedMarks_summary) _
    | _ => exact ih h _

theorem extends_rounds {m m' : TaintMap} (hm : ∀ n, ∀ x ∈ m n, x.mode = .exact)
    (h : m.Extends m') (count : Nat) : m.Extends (rounds g summaries count m') := by
  induction count generalizing m' with
  | zero => exact h
  | succ count ih =>
    rw [rounds]
    dsimp only
    split
    · exact ih (extends_round hm h)
    · exact extends_round hm h

/-- The second pass keeps the marks of the first in front. -/
theorem propagate_extends (toLowercase : String → String) (g : EvidenceGraph)
    (catalog : List Source) (summaries : Nat → Option CallSummary) :
    (propagateIntraprocedural toLowercase g catalog).Extends
      (propagate toLowercase g catalog summaries) :=
  extends_rounds (fun n x hx => (intraprocedural_exact _ _ _ n x hx).1)
    (fun _ => ⟨[], (List.append_nil _).symm, fun _ h => absurd h List.not_mem_nil⟩) _

end Propagation

end Axe.Vuln
