import Axe.Lib.Relaxation
import Mathlib.Data.Nat.Find

/-!
# Distances to the targets

For every target the distances of the functions that reach it are searched backwards along the
calls. A call weighs one to three by its confidence and kind, and distances end at 64.
-/
namespace Axe.Fuzzer

open Relaxation (Graph Walk search search_exact initial inv_initial)

structure CallGraphRecord where
  caller : Nat
  callee : Option Nat
  callKind : String
  confidence : String

def MAX_DIST : Nat := 64

def asciiLowercase (s : String) : String := String.ofList (s.toList.map Char.toLower)

def callWeight (cg : CallGraphRecord) : Nat :=
  let confidence := asciiLowercase cg.confidence
  if confidence = "high" then 1
  else if confidence ∈ ["medium", "med"] then 2
  else if asciiLowercase cg.callKind ∈ ["tail", "tail_call", "jump"] then 3
  else 2

/-- The callers of a function, each with the weight of the call. -/
def callersOf (callgraph : List CallGraphRecord) (node : Nat) : List (Nat × Nat) :=
  callgraph.filterMap fun cg =>
    if cg.callee = some node then some (cg.caller, callWeight cg) else none

theorem mem_callersOf {callgraph : List CallGraphRecord} {node : Nat} {e : Nat × Nat} :
    e ∈ callersOf callgraph node ↔
      ∃ cg ∈ callgraph, cg.callee = some node ∧ e = (cg.caller, callWeight cg) := by
  simp only [callersOf, List.mem_filterMap, Option.ite_none_right_eq_some, Option.some.injEq]
  exact exists_congr fun cg => and_congr_right fun _ => and_congr_right fun _ => eq_comm

def buildReverseCallgraph (callgraph : List CallGraphRecord) : Graph Nat where
  next := callersOf callgraph
  nodes := callgraph.map CallGraphRecord.caller
  closed := by
    intro u e he
    obtain ⟨cg, hcg, -, rfl⟩ := mem_callersOf.mp he
    exact List.mem_map_of_mem hcg

def bfsBackward (start : Nat) (reverse : Graph Nat) : Nat → Option Nat :=
  (search reverse MAX_DIST (initial start)).dist

structure ReachabilityGraph where
  distances : Nat → Option (Nat → Option Nat)
  targetVas : List Nat

namespace ReachabilityGraph

/-- A target that comes twice gets its table again. -/
def build (callgraph : List CallGraphRecord) (targets : List Nat) : ReachabilityGraph where
  distances := targets.foldl (fun distances target =>
    Function.update distances target (some (bfsBackward target (buildReverseCallgraph callgraph))))
    fun _ => none
  targetVas := targets

def distance (graph : ReachabilityGraph) (functionVa targetVa : Nat) : Option Nat :=
  (graph.distances targetVa).bind fun m => m functionVa

/-- The better of the best target so far and another one. -/
def closer (graph : ReachabilityGraph) (functionVa : Nat) (best : Option (Nat × Nat))
    (targetVa : Nat) : Option (Nat × Nat) :=
  match graph.distance functionVa targetVa with
  | none => best
  | some d =>
    match best with
    | some (va, bd) => if bd ≤ d then some (va, bd) else some (targetVa, d)
    | none => some (targetVa, d)

def closestTarget (graph : ReachabilityGraph) (functionVa : Nat) : Option (Nat × Nat) :=
  graph.targetVas.foldl (graph.closer functionVa) none

end ReachabilityGraph

/-- The weights of the call paths from a function to a target. -/
inductive CallPath (callgraph : List CallGraphRecord) (target : Nat) : Nat → Nat → Prop
  | refl : CallPath callgraph target target 0
  | call {cg : CallGraphRecord} {u w : Nat} (hcg : cg ∈ callgraph) (hcallee : cg.callee = some u)
      (h : CallPath callgraph target u w) : CallPath callgraph target cg.caller (w + callWeight cg)

section Exact
variable {callgraph : List CallGraphRecord} {targets : List Nat} {start target v w d : Nat}
  {graph : ReachabilityGraph} {best : Option (Nat × Nat)}

/-- The walks of the reversed graph are the call paths. -/
theorem walk_iff : Walk (buildReverseCallgraph callgraph) start v w ↔
    CallPath callgraph start v w := by
  constructor
  · intro h
    induction h with
    | refl => exact .refl
    | step e hu he ih =>
      obtain ⟨cg, hcg, hcallee, rfl⟩ := mem_callersOf.mp he
      exact .call hcg hcallee ih
  · intro h
    induction h with
    | refl => exact .refl
    | call hcg hcallee h ih => exact .step (_, _) ih (mem_callersOf.mpr ⟨_, hcg, hcallee, rfl⟩)

theorem bfsBackward_eq : bfsBackward start (buildReverseCallgraph callgraph) v = some d ↔
    IsLeast {w | CallPath callgraph start v w} d ∧ d ≤ MAX_DIST := by
  simp only [← walk_iff]
  exact search_exact

/-- A function has a distance just when some call path stays within the cap. -/
theorem bfsBackward_isSome : (∃ d, bfsBackward start (buildReverseCallgraph callgraph) v = some d) ↔
    ∃ w ≤ MAX_DIST, CallPath callgraph start v w := by
  classical
  constructor
  · rintro ⟨d, hd⟩
    obtain ⟨⟨hpath, -⟩, hcap⟩ := bfsBackward_eq.mp hd
    exact ⟨d, hcap, hpath⟩
  · rintro ⟨w, hcap, hpath⟩
    have hex : ∃ w, CallPath callgraph start v w := ⟨w, hpath⟩
    have hleast : IsLeast {w | CallPath callgraph start v w} (Nat.find hex) :=
      ⟨Nat.find_spec hex, fun w hw => Nat.find_min' hex hw⟩
    exact ⟨Nat.find hex, bfsBackward_eq.mpr ⟨hleast, (hleast.2 hpath).trans hcap⟩⟩

theorem distances_foldl (tables : Nat → Nat → Option Nat) (targets : List Nat)
    (distances : Nat → Option (Nat → Option Nat)) (target : Nat) :
    targets.foldl (fun acc t => Function.update acc t (some (tables t))) distances target =
      if target ∈ targets then some (tables target) else distances target := by
  induction targets generalizing distances with
  | nil => exact (if_neg List.not_mem_nil).symm
  | cons t targets ih =>
    rw [List.foldl_cons, ih]
    by_cases hmem : target ∈ targets
    · rw [if_pos hmem, if_pos (List.mem_cons_of_mem _ hmem)]
    · rw [if_neg hmem]
      by_cases heq : target = t
      · subst heq
        rw [Function.update_self, if_pos List.mem_cons_self]
      · rw [Function.update_of_ne heq, if_neg]
        exact fun h => (List.mem_cons.mp h).elim heq hmem

theorem distance_build (hmem : target ∈ targets) :
    (ReachabilityGraph.build callgraph targets).distance v target =
      bfsBackward target (buildReverseCallgraph callgraph) v := by
  have h := distances_foldl (fun t => bfsBackward t (buildReverseCallgraph callgraph)) targets
    (fun _ => none) target
  rw [if_pos hmem] at h
  unfold ReachabilityGraph.distance ReachabilityGraph.build
  dsimp only
  rw [h]
  rfl

/-- Of the targets seen so far, one with the least distance, or none where none has one. -/
def Nearest (graph : ReachabilityGraph) (v : Nat) (seen : List Nat) :
    Option (Nat × Nat) → Prop
  | none => ∀ t ∈ seen, graph.distance v t = none
  | some (t, d) => t ∈ seen ∧ graph.distance v t = some d ∧
    ∀ t' ∈ seen, ∀ d', graph.distance v t' = some d' → d ≤ d'

theorem Nearest.closer {seen : List Nat} (h : Nearest graph v seen best) (target : Nat) :
    Nearest graph v (seen ++ [target]) (graph.closer v best target) := by
  unfold ReachabilityGraph.closer
  have hsplit : ∀ t, t ∈ seen ++ [target] ↔ t ∈ seen ∨ t = target := fun t =>
    List.mem_append.trans (or_congr_right List.mem_singleton)
  cases htarget : graph.distance v target with
  | none =>
    cases best with
    | none =>
      intro t ht
      rcases (hsplit t).mp ht with ht | rfl
      · exact h t ht
      · exact htarget
    | some row =>
      obtain ⟨hmem, hdist, hle⟩ := h
      refine ⟨(hsplit _).mpr (.inl hmem), hdist, fun t ht d' hd' => ?_⟩
      rcases (hsplit t).mp ht with ht | rfl
      · exact hle t ht d' hd'
      · cases htarget.symm.trans hd'
  | some d =>
    cases best with
    | none =>
      refine ⟨(hsplit _).mpr (.inr rfl), htarget, fun t ht d' hd' => ?_⟩
      rcases (hsplit t).mp ht with ht | rfl
      · cases (h t ht).symm.trans hd'
      · cases htarget.symm.trans hd'
        exact Nat.le_refl _
    | some row =>
      obtain ⟨va, bd⟩ := row
      obtain ⟨hmem, hdist, hle⟩ := h
      by_cases hbd : bd ≤ d
      · simp only [hbd, if_true]
        refine ⟨(hsplit _).mpr (.inl hmem), hdist, fun t ht d' hd' => ?_⟩
        rcases (hsplit t).mp ht with ht | rfl
        · exact hle t ht d' hd'
        · cases htarget.symm.trans hd'
          exact hbd
      · simp only [hbd, if_false]
        refine ⟨(hsplit _).mpr (.inr rfl), htarget, fun t ht d' hd' => ?_⟩
        rcases (hsplit t).mp ht with ht | rfl
        · exact (Nat.le_of_not_le hbd).trans (hle t ht d' hd')
        · cases htarget.symm.trans hd'
          exact Nat.le_refl _

theorem nearest_foldl {seen : List Nat} (targets : List Nat) (h : Nearest graph v seen best) :
    Nearest graph v (seen ++ targets) (targets.foldl (graph.closer v) best) := by
  induction targets generalizing seen best with
  | nil =>
    rw [List.append_nil]
    exact h
  | cons target targets ih =>
    have hnext := ih (h.closer target)
    rw [List.append_assoc, List.singleton_append] at hnext
    exact hnext

/-- The search empties its queue and has the least weights of the call paths within the cap; the
closest target is one of least distance. -/
theorem reachability_exact (callgraph : List CallGraphRecord) (targets : List Nat) :
    (∀ start, (search (buildReverseCallgraph callgraph) MAX_DIST (initial start)).queue = []) ∧
    (∀ start v d, bfsBackward start (buildReverseCallgraph callgraph) v = some d ↔
      IsLeast {w | CallPath callgraph start v w} d ∧ d ≤ MAX_DIST) ∧
    (∀ start v, (∃ d, bfsBackward start (buildReverseCallgraph callgraph) v = some d) ↔
      ∃ w ≤ MAX_DIST, CallPath callgraph start v w) ∧
    (∀ v, ∀ target ∈ targets, (ReachabilityGraph.build callgraph targets).distance v target =
      bfsBackward target (buildReverseCallgraph callgraph) v) ∧
    ∀ v, Nearest (ReachabilityGraph.build callgraph targets) v targets
      ((ReachabilityGraph.build callgraph targets).closestTarget v) := by
  refine ⟨fun start => inv_initial.search.2, fun _ _ _ => bfsBackward_eq,
    fun _ _ => bfsBackward_isSome, fun _ _ => distance_build, fun v => ?_⟩
  have hnone : Nearest (ReachabilityGraph.build callgraph targets) v [] none :=
    fun t ht => absurd ht List.not_mem_nil
  exact nearest_foldl targets hnone

end Exact

end Axe.Fuzzer
