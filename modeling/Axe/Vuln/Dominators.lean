import Axe.Lib.Dominance
import Axe.Vuln.Query

/-!
# Dominators and post-dominators of a function

Both trees are built over the blocks of one function. The reversed graph has one root: the
exit of the lowest address, or the block at the address of the function where none is an exit.
-/
namespace Axe.Vuln

open Dominance (Path Reachable Dominates Strictly IsTree)

/-- The starts of the blocks from which no control flow goes on. -/
def exitStarts (g : EvidenceGraph) (functionVa : Nat) : List Nat :=
  ((blocksOfFunction g functionVa).filter fun block =>
    (g.outgoingOfKind block.1 .controlFlow).isEmpty).map fun block => block.2.1

def entryBlock (g : EvidenceGraph) (functionVa : Nat) (reverse : Bool) : Nat :=
  if reverse then (exitStarts g functionVa).min?.getD functionVa else functionVa

def buildTree (libs : Libraries) (g : EvidenceGraph) (functionVa : Nat) (reverse : Bool) :
    Option DominatorTree :=
  let blocks := blocksOfFunction g functionVa
  if blocks = [] then none
  else
    let starts := blocks.map fun b => b.2.1
    let edges := blocks.flatMap fun (id, start, _) =>
      (blockSuccessors g functionVa id).map fun other =>
        let source := (nodeOfBlock starts start).getD 0
        let target := (nodeOfBlock starts other).getD 0
        if reverse then (target, source) else (source, target)
    (nodeOfBlock starts (entryBlock g functionVa reverse)).map fun entry =>
      ⟨starts, libs.simpleFast starts.length edges entry⟩

def postDominatorsForFunction (libs : Libraries) (g : EvidenceGraph) (functionVa : Nat) :
    Option DominatorTree := buildTree libs g functionVa true

theorem dominatorsForFunction_eq (libs : Libraries) (g : EvidenceGraph) (functionVa : Nat) :
    dominatorsForFunction libs g functionVa = buildTree libs g functionVa false := rfl

/-- What is relied on of the library: it gives the dominator tree of its graph and root. -/
def FastDominators (libs : Libraries) : Prop :=
  ∀ n edges root, root < n → (∀ e ∈ edges, e.1 < n ∧ e.2 < n) →
    IsTree edges root (libs.simpleFast n edges root)

/-- The control flow between the blocks of a function, by their starts. -/
def blockEdges (g : EvidenceGraph) (functionVa : Nat) : List (Nat × Nat) :=
  (blocksOfFunction g functionVa).flatMap fun block =>
    (blockSuccessors g functionVa block.1).map fun other => (block.2.1, other)

section Nodes
variable {starts : List Nat} {a b va i : Nat}

theorem nodeOfBlock_some (h : nodeOfBlock starts va = some i) : starts[i]? = some va := by
  obtain ⟨⟨x, j⟩, hfind, rfl⟩ := Option.map_eq_some_iff.mp h
  have hx := List.find?_some hfind
  have hmem := List.mem_reverse.mp (List.mem_of_find?_eq_some hfind)
  simp only [decide_eq_true_eq] at hx
  rw [← hx]
  exact List.mem_zipIdx_iff_getElem?.mp hmem

theorem nodeOfBlock_isSome : (nodeOfBlock starts va).isSome ↔ va ∈ starts := by
  rw [nodeOfBlock, Option.isSome_map, List.find?_isSome]
  constructor
  · rintro ⟨⟨x, j⟩, hmem, hx⟩
    have hget := List.mem_zipIdx_iff_getElem?.mp (List.mem_reverse.mp hmem)
    exact of_decide_eq_true hx ▸ List.mem_of_getElem? hget
  · intro hmem
    obtain ⟨j, hj⟩ := List.getElem?_of_mem hmem
    exact ⟨(va, j), List.mem_reverse.mpr (List.mem_zipIdx_iff_getElem?.mpr hj), decide_eq_true rfl⟩

/-- The node of a start, 0 where there is none. -/
def place (starts : List Nat) (va : Nat) : Nat := (nodeOfBlock starts va).getD 0

theorem nodeOfBlock_place (h : va ∈ starts) : nodeOfBlock starts va = some (place starts va) := by
  obtain ⟨i, hi⟩ := Option.isSome_iff_exists.mp (nodeOfBlock_isSome.mpr h)
  rw [place, hi, Option.getD_some]

theorem place_lt (h : va ∈ starts) : place starts va < starts.length :=
  (List.getElem?_eq_some_iff.mp (nodeOfBlock_some (nodeOfBlock_place h))).1

/-- Starts have nodes of their own. -/
theorem place_injOn : Set.InjOn (place starts) {va | va ∈ starts} := by
  intro a ha b hb heq
  have hget := nodeOfBlock_some (nodeOfBlock_place ha)
  rw [heq, nodeOfBlock_some (nodeOfBlock_place hb)] at hget
  exact (Option.some.inj hget).symm

theorem go_eq_climb (dom : DominatorTree) (a n : Nat) (idom : Option Nat) :
    DominatorTree.dominates.go dom n a idom =
      Dominance.climb dom.immediateDominator a n idom := by
  induction n generalizing idom with
  | zero => cases idom <;> rfl
  | succ n ih =>
    cases idom with
    | none => rfl
    | some d =>
      rw [DominatorTree.dominates.go, Dominance.climb, ih]
      by_cases h : d = a <;> simp [h]

/-- A tree that is right for the places of the starts tells which starts dominate which. -/
theorem dominates_iff {edges : List (Nat × Nat)} {root : Nat} {idom : Nat → Option Nat}
    (hedges : ∀ e ∈ edges, e.1 ∈ starts ∧ e.2 ∈ starts) (hroot : root ∈ starts)
    (htree : IsTree (edges.map fun e => (place starts e.1, place starts e.2)) (place starts root)
      idom) :
    (Reachable edges root b →
      ((DominatorTree.mk starts idom).dominates a b ↔ Dominates edges root a b)) ∧
    (¬ Reachable edges root b →
      ((DominatorTree.mk starts idom).dominates a b ↔ a = b ∧ b ∈ starts)) := by
  have hinj : Set.InjOn (place starts) {va | va ∈ starts} := place_injOn
  have hends : ∀ e ∈ edges, e.1 ∈ {va | va ∈ starts} ∧ e.2 ∈ {va | va ∈ starts} := hedges
  have hlt : ∀ e ∈ edges.map fun e => (place starts e.1, place starts e.2),
      e.1 ∈ {i | i < starts.length} ∧ e.2 ∈ {i | i < starts.length} := by
    intro e he
    obtain ⟨x, hx, rfl⟩ := List.mem_map.mp he
    exact ⟨place_lt (hedges x hx).1, place_lt (hedges x hx).2⟩
  have hself : (DominatorTree.mk starts idom).dominates b b ↔ b ∈ starts := by
    rw [DominatorTree.dominates, if_pos rfl, decide_eq_true_eq]
  -- two different blocks are compared by climbing
  have hclimb : a ≠ b → a ∈ starts → b ∈ starts →
      ((DominatorTree.mk starts idom).dominates a b ↔
        Dominance.climb idom (place starts a) starts.length (idom (place starts b))) := by
    intro hne ha hb
    rw [DominatorTree.dominates, if_neg hne, nodeOfBlock_place ha, nodeOfBlock_place hb]
    dsimp only
    rw [go_eq_climb]
  have hoff : a ≠ b → ¬ (a ∈ starts ∧ b ∈ starts) →
      (DominatorTree.mk starts idom).dominates a b = false := by
    intro hne hnot
    rw [DominatorTree.dominates, if_neg hne]
    split
    · rename_i i j hi hj
      exact absurd ⟨nodeOfBlock_isSome.mp (Option.isSome_iff_exists.mpr ⟨i, hi⟩),
        nodeOfBlock_isSome.mp (Option.isSome_iff_exists.mpr ⟨j, hj⟩)⟩ hnot
    · rfl
  constructor
  · intro hreach
    obtain ⟨p, hp⟩ := hreach
    have hb : b ∈ starts := hp.mem_nodes hends hroot b hp.last_mem
    by_cases hne : a = b
    · subst hne
      exact iff_of_true (hself.mpr hb) Dominance.dominates_refl
    · by_cases ha : a ∈ starts
      · rw [hclimb hne ha hb, Dominance.climb_iff htree starts.length
          ((Dominance.reachable_map hinj hends hroot hb).mpr ⟨p, hp⟩), Strictly,
          Dominance.dominates_map hinj hends hroot ha hb]
        · exact and_iff_right fun heq => hne (hinj ha hb heq)
        · intro s hs
          have hsub : s ⊆ Finset.range starts.length := by
            intro x hx
            have hpath := hp.map (place starts)
            have hmem := hpath.mem_nodes hlt (place_lt hroot) x ((hs x hx).2 _ hpath)
            exact Finset.mem_range.mpr hmem
          exact (Finset.card_le_card hsub).trans (Finset.card_range _).le
      · rw [hoff hne fun h => ha h.1]
        refine iff_of_false Bool.false_ne_true fun h => ha ?_
        exact hp.mem_nodes hends hroot a (h p hp)
  · intro hreach
    by_cases hne : a = b
    · subst hne
      rw [hself]
      exact (and_iff_right rfl).symm
    · refine iff_of_false ?_ fun h => hne h.1
      by_cases hboth : a ∈ starts ∧ b ∈ starts
      · rw [hclimb hne hboth.1 hboth.2, htree.none _ (.inr fun h =>
          hreach ((Dominance.reachable_map hinj hends hroot hboth.2).mp h)), Dominance.climb]
        exact Bool.false_ne_true
      · rw [hoff hne hboth]
        exact Bool.false_ne_true

end Nodes

section Trees
variable {libs : Libraries} {g : EvidenceGraph} {functionVa : Nat} {reverse : Bool}

/-- The edges of a tree's graph, by the starts of the blocks. -/
def treeEdges (g : EvidenceGraph) (functionVa : Nat) (reverse : Bool) : List (Nat × Nat) :=
  if reverse then (blockEdges g functionVa).map Prod.swap else blockEdges g functionVa

def blockStarts (g : EvidenceGraph) (functionVa : Nat) : List Nat :=
  (blocksOfFunction g functionVa).map fun block => block.2.1

theorem mem_blocksOfFunction {id start stop : Nat} :
    (id, start, stop) ∈ blocksOfFunction g functionVa ↔
      g.node id = some (.basicBlock functionVa start stop) := by
  simp only [blocksOfFunction, List.mem_filterMap, Prod.exists, EvidenceGraph.mem_nodesOfKind]
  constructor
  · rintro ⟨i, payload, ⟨hnode, -⟩, hmatch⟩
    split at hmatch
    · rename_i fva s t
      split at hmatch
      · rename_i hfva
        cases hmatch
        rw [hnode, hfva]
      · cases hmatch
    · cases hmatch
  · intro hnode
    exact ⟨id, _, ⟨hnode, rfl⟩, if_pos rfl⟩

theorem mem_blockStarts_of_node {id start stop : Nat}
    (h : g.node id = some (.basicBlock functionVa start stop)) :
    start ∈ blockStarts g functionVa :=
  List.mem_map.mpr ⟨_, mem_blocksOfFunction.mpr h, rfl⟩

theorem mem_blockSuccessors {id other : Nat} : other ∈ blockSuccessors g functionVa id ↔
    ∃ next stop, (id, next) ∈ g.edgesOfKind .controlFlow ∧
      g.node next = some (.basicBlock functionVa other stop) := by
  simp only [blockSuccessors, List.mem_filterMap, EvidenceGraph.mem_outgoingOfKind]
  constructor
  · rintro ⟨next, hedge, hmatch⟩
    split at hmatch
    · rename_i fva s t hnode
      split at hmatch
      · rename_i hfva
        cases hmatch
        rw [hfva] at hnode
        exact ⟨next, _, hedge, hnode⟩
      · cases hmatch
    · cases hmatch
  · rintro ⟨next, stop, hedge, hnode⟩
    refine ⟨next, hedge, ?_⟩
    rw [hnode]
    exact if_pos rfl

theorem blockEdges_starts : ∀ e ∈ blockEdges g functionVa,
    e.1 ∈ blockStarts g functionVa ∧ e.2 ∈ blockStarts g functionVa := by
  intro e he
  obtain ⟨block, hblock, he⟩ := List.mem_flatMap.mp he
  obtain ⟨other, hother, rfl⟩ := List.mem_map.mp he
  obtain ⟨next, stop, -, hnode⟩ := mem_blockSuccessors.mp hother
  exact ⟨List.mem_map.mpr ⟨block, hblock, rfl⟩, mem_blockStarts_of_node hnode⟩

theorem treeEdges_starts : ∀ e ∈ treeEdges g functionVa reverse,
    e.1 ∈ blockStarts g functionVa ∧ e.2 ∈ blockStarts g functionVa := by
  intro e he
  rw [treeEdges] at he
  split at he
  · obtain ⟨e', he', rfl⟩ := List.mem_map.mp he
    exact (blockEdges_starts e' he').symm
  · exact blockEdges_starts e he

theorem buildTree_eq : buildTree libs g functionVa reverse =
    (nodeOfBlock (blockStarts g functionVa) (entryBlock g functionVa reverse)).map fun entry =>
      ⟨blockStarts g functionVa, libs.simpleFast (blockStarts g functionVa).length
        ((treeEdges g functionVa reverse).map fun e =>
          (place (blockStarts g functionVa) e.1, place (blockStarts g functionVa) e.2)) entry⟩ := by
  rw [buildTree]
  split
  · rename_i hnone
    rw [blockStarts, hnone]
    rfl
  · have hedges : ((treeEdges g functionVa reverse).map fun e =>
          (place (blockStarts g functionVa) e.1, place (blockStarts g functionVa) e.2)) =
        (blocksOfFunction g functionVa).flatMap fun block =>
          (blockSuccessors g functionVa block.1).map fun other =>
            if reverse then
              (place (blockStarts g functionVa) other, place (blockStarts g functionVa) block.2.1)
            else
              (place (blockStarts g functionVa) block.2.1,
                place (blockStarts g functionVa) other) := by
      cases reverse <;>
        simp [treeEdges, blockEdges, List.map_flatMap, List.map_map, Function.comp_def]
    rw [hedges]
    rfl

/-- A tree is there when its root is a block. -/
theorem buildTree_isSome : (buildTree libs g functionVa reverse).isSome ↔
    entryBlock g functionVa reverse ∈ blockStarts g functionVa := by
  rw [buildTree_eq, Option.isSome_map, nodeOfBlock_isSome]

/-- What a tree tells of two blocks is what the paths from its root tell. -/
theorem buildTree_dominates (hfast : FastDominators libs) {tree : DominatorTree}
    (htree : buildTree libs g functionVa reverse = some tree) (a b : Nat) :
    (Reachable (treeEdges g functionVa reverse) (entryBlock g functionVa reverse) b →
      (tree.dominates a b ↔ Dominates (treeEdges g functionVa reverse)
        (entryBlock g functionVa reverse) a b)) ∧
    (¬ Reachable (treeEdges g functionVa reverse) (entryBlock g functionVa reverse) b →
      (tree.dominates a b ↔ a = b ∧ b ∈ blockStarts g functionVa)) := by
  have hentry := buildTree_isSome.mp (Option.isSome_iff_exists.mpr ⟨tree, htree⟩)
  rw [buildTree_eq, nodeOfBlock_place hentry, Option.map_some] at htree
  cases htree
  refine dominates_iff treeEdges_starts hentry (hfast _ _ _ (place_lt hentry) ?_)
  intro e he
  obtain ⟨e', he', rfl⟩ := List.mem_map.mp he
  exact ⟨place_lt (treeEdges_starts e' he').1, place_lt (treeEdges_starts e' he').2⟩

/-- The paths of the reversed graph are those to the exit, backwards. -/
theorem reachable_swap {edges : List (Nat × Nat)} {u v : Nat} :
    Reachable (edges.map Prod.swap) v u ↔ Reachable edges u v := by
  constructor
  · rintro ⟨p, hp⟩
    exact ⟨_, Dominance.path_swap_iff.mp hp⟩
  · rintro ⟨p, hp⟩
    exact ⟨_, hp.reverse⟩

theorem dominates_swap {edges : List (Nat × Nat)} {root a b : Nat} :
    Dominates (edges.map Prod.swap) root a b ↔ ∀ p, Path edges b root p → a ∈ p := by
  constructor
  · intro h p hp
    exact List.mem_reverse.mp (h _ hp.reverse)
  · intro h p hp
    exact List.mem_reverse.mp (h _ (Dominance.path_swap_iff.mp hp))

theorem dominators_iff (hfast : FastDominators libs) {tree : DominatorTree}
    (htree : dominatorsForFunction libs g functionVa = some tree) {a b : Nat}
    (hreach : Reachable (blockEdges g functionVa) functionVa b) :
    tree.dominates a b ↔ ∀ p, Path (blockEdges g functionVa) functionVa b p → a ∈ p := by
  rw [dominatorsForFunction_eq] at htree
  exact (buildTree_dominates hfast htree a b).1 hreach

theorem postDominators_iff (hfast : FastDominators libs) {tree : DominatorTree}
    (htree : postDominatorsForFunction libs g functionVa = some tree) {a b : Nat}
    (hreach : Reachable (blockEdges g functionVa) b (entryBlock g functionVa true)) :
    tree.dominates a b ↔
      ∀ p, Path (blockEdges g functionVa) b (entryBlock g functionVa true) p → a ∈ p :=
  ((buildTree_dominates hfast htree a b).1 (reachable_swap.mpr hreach)).trans dominates_swap

/-- The two trees of a function tell its dominators, and its post-dominators as far as the one
chosen exit goes: the lowest one, or the block of the function where none is an exit. -/
theorem trees_exact (libs : Libraries) (hfast : FastDominators libs) (g : EvidenceGraph)
    (functionVa : Nat) :
    ((dominatorsForFunction libs g functionVa).isSome ↔ functionVa ∈ blockStarts g functionVa) ∧
    (∀ tree, dominatorsForFunction libs g functionVa = some tree → ∀ a b,
      Reachable (blockEdges g functionVa) functionVa b →
        (tree.dominates a b ↔ ∀ p, Path (blockEdges g functionVa) functionVa b p → a ∈ p)) ∧
    ((postDominatorsForFunction libs g functionVa).isSome ↔
      entryBlock g functionVa true ∈ blockStarts g functionVa) ∧
    (∀ tree, postDominatorsForFunction libs g functionVa = some tree → ∀ a b,
      (Reachable (blockEdges g functionVa) b (entryBlock g functionVa true) →
        (tree.dominates a b ↔
          ∀ p, Path (blockEdges g functionVa) b (entryBlock g functionVa true) p → a ∈ p)) ∧
      (¬ Reachable (blockEdges g functionVa) b (entryBlock g functionVa true) →
        (tree.dominates a b ↔ a = b ∧ b ∈ blockStarts g functionVa))) := by
  refine ⟨?_, fun tree htree a b => dominators_iff hfast htree, buildTree_isSome,
    fun tree htree a b => ⟨postDominators_iff hfast htree, fun hreach => ?_⟩⟩
  · rw [dominatorsForFunction_eq]
    exact buildTree_isSome
  · exact (buildTree_dominates hfast htree a b).2 fun h => hreach (reachable_swap.mp h)

end Trees

section Example

/-- A library whose dominators are right by definition. -/
noncomputable def referenceLibraries : Libraries :=
  ⟨id, fun _ edges root => Dominance.idomOf edges root⟩

theorem referenceLibraries_fast : FastDominators referenceLibraries :=
  fun _ edges root _ _ => Dominance.isTree_idomOf edges root

/-- A block that is followed by either of two exits. -/
def twoExits : EvidenceGraph :=
  ⟨[.basicBlock 16 16 32, .basicBlock 16 32 48, .basicBlock 16 48 64],
    [⟨0, 1, .controlFlow⟩, ⟨0, 2, .controlFlow⟩]⟩

theorem twoExits_path : Path (blockEdges twoExits 16) 16 32 [16, 32] :=
  .cons (by decide) (.single 32)

/-- The first exit post-dominates the branch, although a path leads to the other one. -/
theorem twoExits_postDominated : ∃ tree a b,
    postDominatorsForFunction referenceLibraries twoExits 16 = some tree ∧
      (∃ exit ∈ exitStarts twoExits 16, Reachable (blockEdges twoExits 16) b exit) ∧
      ¬ (tree.dominates a b ↔ ∀ exit ∈ exitStarts twoExits 16, ∀ p,
        Path (blockEdges twoExits 16) b exit p → a ∈ p) := by
  have hsome : (postDominatorsForFunction referenceLibraries twoExits 16).isSome :=
    buildTree_isSome.mpr (by decide)
  obtain ⟨tree, htree⟩ := Option.isSome_iff_exists.mp hsome
  refine ⟨tree, 32, 16, htree, ⟨32, by decide, _, twoExits_path⟩, fun h => ?_⟩
  have hdom : tree.dominates 32 16 := by
    refine (postDominators_iff referenceLibraries_fast htree ⟨_, twoExits_path⟩).mpr ?_
    exact fun p hp => hp.last_mem
  have hother : Path (blockEdges twoExits 16) 16 48 [16, 48] := .cons (by decide) (.single 48)
  exact absurd (h.mp hdom 48 (by decide) _ hother) (by decide)

theorem trees_exact_twoExits : ∃ tree,
    postDominatorsForFunction referenceLibraries twoExits 16 = some tree ∧
      (tree.dominates 32 16 ↔ ∀ p, Path (blockEdges twoExits 16) 16 32 p → 32 ∈ p) := by
  have hsome : (postDominatorsForFunction referenceLibraries twoExits 16).isSome :=
    buildTree_isSome.mpr (by decide)
  obtain ⟨tree, htree⟩ := Option.isSome_iff_exists.mp hsome
  exact ⟨tree, htree, ((trees_exact referenceLibraries referenceLibraries_fast twoExits 16).2.2.2
    tree htree 32 16).1 ⟨_, twoExits_path⟩⟩

end Example

end Axe.Vuln
