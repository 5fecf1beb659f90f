import Axe.Vuln.Dominators

/-!
# Lock and order checks beside other functions

The checks of a function go over the call sites and the sinks of the whole graph. A site outside
its blocks is taken for one of the nearest lower block, or for one before everything.
-/
namespace Axe.Vuln

open Dominance (Path Reachable Dominates)

/-- The address is in a block of the function. -/
def Inside (g : EvidenceGraph) (functionVa va : Nat) : Prop :=
  ∃ block ∈ blocksOfFunction g functionVa, block.2.1 ≤ va ∧ va < block.2.2

instance (g : EvidenceGraph) (functionVa va : Nat) : Decidable (Inside g functionVa va) :=
  inferInstanceAs (Decidable (∃ block ∈ blocksOfFunction g functionVa, _))

/-- The nodes of another function, at addresses outside the blocks of the first one. -/
def NodePayload.OfOther (g : EvidenceGraph) (functionVa otherVa : Nat) : NodePayload → Prop
  | .function va => va = otherVa
  | .basicBlock fva start stop => fva = otherVa ∧
    ∀ va, start ≤ va → va < stop → ¬ Inside g functionVa va
  | .callSite va _ => ¬ Inside g functionVa va
  | .sink _ siteVa => ¬ Inside g functionVa siteVa
  | _ => False

/-- Another function: its nodes, and edges with an end among them. -/
structure Addition (g : EvidenceGraph) (functionVa : Nat) where
  otherVa : Nat
  nodes : List NodePayload
  edges : List Edge
  other : otherVa ≠ functionVa
  ofOther : ∀ payload ∈ nodes, payload.OfOther g functionVa otherVa
  attached : ∀ e ∈ edges, g.nodes.length ≤ e.source ∨ g.nodes.length ≤ e.target

def EvidenceGraph.extend (g : EvidenceGraph) {functionVa : Nat} (a : Addition g functionVa) :
    EvidenceGraph := ⟨g.nodes ++ a.nodes, g.edges ++ a.edges⟩

def lockSite : NodePayload → Option Nat
  | .callSite va (some api) => if isLockAcquireApi api then some va else none
  | _ => none

def sinkSite : NodePayload → Option (String × Nat)
  | .sink api siteVa => some (api, siteVa)
  | _ => none

/-- The sites of the calls that acquire a lock. -/
def lockSites (nodes : List NodePayload) : List Nat := nodes.filterMap lockSite

section Sites
variable {libs : Libraries} {g : EvidenceGraph} {functionVa before after siteVa : Nat}

/-- What is picked from the nodes of one kind is picked from all nodes. -/
theorem filterMap_nodesOfKind {α : Type} (kind : NodeKind) {pick : NodePayload → Option α}
    (h : ∀ payload x, pick payload = some x → payload.kind = kind) :
    (g.nodesOfKind kind).filterMap (fun n => pick n.2) = g.nodes.filterMap pick := by
  have hpick : (fun n : NodePayload × Nat => if n.1.kind = kind then pick n.1 else none) =
      fun n => pick n.1 := by
    funext n
    split
    · rfl
    · rename_i hkind
      cases hn : pick n.1 with
      | none => rfl
      | some x => exact absurd (h n.1 x hn) hkind
  rw [EvidenceGraph.nodesOfKind, List.filterMap_map, List.filterMap_filter]
  simp only [decide_eq_true_eq, Function.comp_def, Prod.snd_swap]
  rw [hpick]
  conv_rhs => rw [← List.zipIdx_map_fst 0 g.nodes, List.filterMap_map]
  rfl

theorem sinkSites_eq : sinkSites g = g.nodes.filterMap sinkSite := by
  have hpick : sinkSites g = (g.nodesOfKind .sink).filterMap fun n => sinkSite n.2 := rfl
  rw [hpick]
  refine filterMap_nodesOfKind .sink fun payload x h => ?_
  cases payload <;> first | rfl | cases h

theorem lockSites_eq : lockSites g.nodes =
    (g.nodesOfKind .callSite).filterMap fun n => lockSite n.2 := by
  refine (filterMap_nodesOfKind .callSite fun payload x h => ?_).symm
  cases payload <;> first | rfl | cases h

theorem blockForSite_inside (h : Inside g functionVa siteVa) :
    ∃ b, blockForSite g functionVa siteVa = some b := by
  obtain ⟨block, hblock, hstart, hstop⟩ := h
  rw [blockForSite]
  cases hfind : (blocksOfFunction g functionVa).find? fun block =>
      block.2.1 ≤ siteVa && siteVa < block.2.2 with
  | some found => exact ⟨_, rfl⟩
  | none =>
    have hnot := List.find?_eq_none.mp hfind block hblock
    simp [hstart, hstop] at hnot

theorem blockForSite_mem {b : Nat} (h : blockForSite g functionVa siteVa = some b) :
    b ∈ blockStarts g functionVa := by
  rw [blockForSite] at h
  split at h
  · rename_i id start stop hfind
    cases h
    exact List.mem_map.mpr ⟨_, List.mem_of_find?_eq_some hfind, rfl⟩
  · exact (List.mem_filter.mp (List.max?_mem h)).1

theorem entry_of_reachable {c : Nat} (hreach : Reachable (blockEdges g functionVa) functionVa c)
    (hc : c ∈ blockStarts g functionVa) : functionVa ∈ blockStarts g functionVa := by
  obtain ⟨p, hp⟩ := hreach
  cases hp with
  | single => exact hc
  | cons hedge _ => exact (blockEdges_starts _ hedge).1

/-- One site counts as being before another one: it is lower, and unless a site has no block the
block of the first is the block of the second or dominates it. -/
def Counts (g : EvidenceGraph) (functionVa before after : Nat) : Prop :=
  before < after ∧ ∀ b, blockForSite g functionVa before = some b →
    ∀ c, blockForSite g functionVa after = some c →
      b = c ∨ (Reachable (blockEdges g functionVa) functionVa c ∧
        Dominates (blockEdges g functionVa) functionVa b c)

theorem dominators_ne_iff (hfast : FastDominators libs) {b c : Nat} (hne : b ≠ c)
    (hc : c ∈ blockStarts g functionVa) :
    (dominatorsForFunction libs g functionVa).any (fun dom => dom.dominates b c) = true ↔
      Reachable (blockEdges g functionVa) functionVa c ∧
        Dominates (blockEdges g functionVa) functionVa b c := by
  cases htree : dominatorsForFunction libs g functionVa with
  | none =>
    refine iff_of_false Bool.false_ne_true fun h => ?_
    have hsome : (buildTree libs g functionVa false).isSome :=
      buildTree_isSome.mpr (entry_of_reachable h.1 hc)
    rw [← dominatorsForFunction_eq, htree] at hsome
    cases hsome
  | some dom =>
    rw [Option.any_some]
    by_cases hreach : Reachable (blockEdges g functionVa) functionVa c
    · rw [dominators_iff hfast htree hreach]
      exact (and_iff_right hreach).symm
    · rw [dominatorsForFunction_eq] at htree
      rw [(buildTree_dominates hfast htree b c).2 hreach]
      exact iff_of_false (fun h => hne h.1) fun h => hreach h.1

theorem counts_iff (hfast : FastDominators libs) :
    callDominatesOrPrecedes libs g functionVa before after = true ↔
      Counts g functionVa before after := by
  rw [callDominatesOrPrecedes, Counts]
  by_cases hle : after ≤ before
  · rw [if_pos hle]
    exact iff_of_false Bool.false_ne_true fun h => absurd h.1 (not_lt.mpr hle)
  · rw [if_neg hle, and_iff_right (not_le.mp hle)]
    split
    · rename_i b c hb hc
      rw [hb, hc]
      simp only [Option.some.injEq, forall_eq']
      split
      · rename_i heq
        exact iff_of_true rfl (Or.inl heq)
      · rename_i hne
        rw [or_iff_right hne, ← dominators_ne_iff hfast hne (blockForSite_mem hc)]
        cases dominatorsForFunction libs g functionVa <;> rfl
    · rename_i hsome
      refine iff_of_true rfl fun b hb c hc => absurd hc (hsome b c hb)

/-- A lock among these sites counts for the site. -/
def Locked (g : EvidenceGraph) (functionVa : Nat) (locks : List Nat) (siteVa : Nat) : Prop :=
  ∃ lock ∈ locks, lock ≠ siteVa ∧ Counts g functionVa lock siteVa

theorem hasDominatingLock_iff (hfast : FastDominators libs) :
    hasDominatingLock libs g functionVa siteVa = true ↔
      Locked g functionVa (lockSites g.nodes) siteVa := by
  have hnode : hasDominatingLock libs g functionVa siteVa =
      (g.nodesOfKind .callSite).any fun n => (lockSite n.2).any fun lock =>
        decide (lock ≠ siteVa) && callDominatesOrPrecedes libs g functionVa lock siteVa := by
    rw [hasDominatingLock]
    congr 1
    funext n
    obtain ⟨id, payload⟩ := n
    cases payload with
    | callSite va api =>
      cases api with
      | none => rfl
      | some api => cases hlock : isLockAcquireApi api <;> simp [lockSite, hlock]
    | _ => rfl
  rw [hnode, Locked, lockSites_eq, List.any_eq_true]
  simp only [List.mem_filterMap, Option.any_eq_true, Bool.and_eq_true, decide_eq_true_eq,
    counts_iff hfast]
  constructor
  · rintro ⟨n, hn, lock, hlock, h⟩
    exact ⟨lock, ⟨n, hn, hlock⟩, h⟩
  · rintro ⟨lock, ⟨n, hn, hlock⟩, h⟩
    exact ⟨n, hn, lock, hlock, h⟩

/-- A privileged action among these sinks counts for the site. -/
def ActsBefore (g : EvidenceGraph) (functionVa : Nat) (sinks : List (String × Nat))
    (siteVa : Nat) : Prop :=
  ∃ sink ∈ sinks, sink.2 ≠ siteVa ∧ isPrivilegedActionApi sink.1 = true ∧
    Counts g functionVa sink.2 siteVa

theorem authAfterActionMatches_iff (hfast : FastDominators libs) :
    authAfterActionMatches libs g functionVa siteVa = true ↔
      ActsBefore g functionVa (sinkSites g) siteVa := by
  rw [authAfterActionMatches, List.any_eq_true, ActsBefore]
  simp only [Bool.and_eq_true, decide_eq_true_eq, counts_iff hfast, and_assoc]

/-- The file operations at other sites that share a path. -/
def IsPeer (libs : Libraries) (g : EvidenceGraph) (sinkCatalog : List Sink) (siteVa : Nat)
    (api : String) (sink : String × Nat) : Prop :=
  sink.2 ≠ siteVa ∧ isFileOperationApi sink.1 = true ∧
    ∃ left ∈ argValuesForRole libs g sinkCatalog api siteVa .path, normalizeFactValue left ≠ [] ∧
      ∃ right ∈ argValuesForRole libs g sinkCatalog sink.1 sink.2 .path,
        normalizeFactValue right = normalizeFactValue left

/-- One of the sinks is a peer for which no lock counts. -/
def OpenPeer (libs : Libraries) (g : EvidenceGraph) (sinkCatalog : List Sink)
    (functionVa siteVa : Nat) (api : String) (locks : List Nat) (sinks : List (String × Nat)) :
    Prop :=
  ∃ sink ∈ sinks, IsPeer libs g sinkCatalog siteVa api sink ∧ ¬ Locked g functionVa locks sink.2

theorem toctouMatches_iff (hfast : FastDominators libs) (sinkCatalog : List Sink) (api : String) :
    toctouMatches libs g sinkCatalog functionVa siteVa api = true ↔
      argValuesForRole libs g sinkCatalog api siteVa .path ≠ [] ∧
        ¬ Locked g functionVa (lockSites g.nodes) siteVa ∧
        OpenPeer libs g sinkCatalog functionVa siteVa api (lockSites g.nodes) (sinkSites g) := by
  rw [toctouMatches]
  dsimp only
  rw [← hasDominatingLock_iff hfast]
  by_cases hpaths : argValuesForRole libs g sinkCatalog api siteVa .path = []
  · rw [if_pos (.inl hpaths)]
    exact iff_of_false Bool.false_ne_true fun h => h.1 hpaths
  by_cases hlock : hasDominatingLock libs g functionVa siteVa = true
  · rw [if_pos (.inr hlock)]
    exact iff_of_false Bool.false_ne_true fun h => h.2.1 hlock
  · rw [if_neg fun h => h.elim hpaths hlock, and_iff_right hpaths, and_iff_right hlock]
    simp only [OpenPeer, IsPeer, ← hasDominatingLock_iff hfast, List.any_eq_true, Bool.and_eq_true,
      Bool.not_eq_true', Bool.not_eq_true, decide_eq_true_eq, and_assoc]
    refine exists_congr fun sink => ?_
    refine and_congr_right fun _ => and_congr_right fun _ => and_congr_right fun _ => and_comm

end Sites

section Additions
variable {libs : Libraries} {g : EvidenceGraph} {functionVa : Nat} (a : Addition g functionVa)
  {id start stop before after siteVa : Nat}

theorem nodesOfKind_extend (kind : NodeKind) : (g.extend a).nodesOfKind kind =
    g.nodesOfKind kind ++
      ((a.nodes.zipIdx g.nodes.length).filter (·.1.kind = kind)).map Prod.swap := by
  rw [EvidenceGraph.nodesOfKind, EvidenceGraph.extend, List.zipIdx_append, List.filter_append,
    List.map_append, Nat.zero_add]
  rfl

theorem blocksOfFunction_extend :
    blocksOfFunction (g.extend a) functionVa = blocksOfFunction g functionVa := by
  rw [blocksOfFunction, nodesOfKind_extend, List.filterMap_append, ← blocksOfFunction]
  refine (congrArg _ (List.filterMap_eq_nil_iff.mpr fun n hn => ?_)).trans (List.append_nil _)
  obtain ⟨m, hm, rfl⟩ := List.mem_map.mp hn
  have hother := a.ofOther _ (List.fst_mem_of_mem_zipIdx (List.mem_filter.mp hm).1)
  obtain ⟨payload, i⟩ := m
  cases payload with
  | basicBlock fva start stop => exact if_neg fun h => a.other (hother.1.symm.trans h)
  | _ => rfl

theorem blockForSite_extend :
    blockForSite (g.extend a) functionVa siteVa = blockForSite g functionVa siteVa := by
  rw [blockForSite, blocksOfFunction_extend, ← blockForSite]

/-- The start of a node that is a block of the function. -/
def startOf (functionVa : Nat) : Option NodePayload → Option Nat
  | some (.basicBlock fva start _) => if fva = functionVa then some start else none
  | _ => none

theorem blockSuccessors_eq (g : EvidenceGraph) (id : Nat) : blockSuccessors g functionVa id =
    (g.outgoingOfKind id .controlFlow).filterMap fun other => startOf functionVa (g.node other) :=
  rfl

theorem startOf_new {payload : NodePayload} (h : payload ∈ a.nodes) :
    startOf functionVa (some payload) = none := by
  have hother := a.ofOther payload h
  cases payload with
  | basicBlock fva start stop => exact if_neg fun h => a.other (hother.1.symm.trans h)
  | _ => rfl

theorem startOf_new_node (h : g.nodes.length ≤ id) :
    startOf functionVa ((g.extend a).node id) = none := by
  rw [EvidenceGraph.node, EvidenceGraph.extend, List.getElem?_append_right h]
  cases hnew : a.nodes[id - g.nodes.length]? with
  | none => rfl
  | some payload => exact startOf_new a (List.mem_of_getElem? hnew)

theorem startOf_node : startOf functionVa ((g.extend a).node id) =
    startOf functionVa (g.node id) := by
  by_cases hold : id < g.nodes.length
  · rw [EvidenceGraph.node, EvidenceGraph.extend, List.getElem?_append_left hold,
      EvidenceGraph.node]
  · rw [startOf_new_node a (not_lt.mp hold), EvidenceGraph.node,
      List.getElem?_eq_none (not_lt.mp hold)]
    rfl

/-- The edges that are added lead to no block of the function. -/
theorem blockSuccessors_extend (h : id < g.nodes.length) :
    blockSuccessors (g.extend a) functionVa id = blockSuccessors g functionVa id := by
  rw [blockSuccessors_eq, blockSuccessors_eq, EvidenceGraph.outgoingOfKind]
  simp only [startOf_node]
  rw [EvidenceGraph.extend, List.filter_append, List.reverse_append, List.map_append,
    List.filterMap_append, ← EvidenceGraph.outgoingOfKind]
  refine (congrArg (· ++ _) (List.filterMap_eq_nil_iff.mpr fun other hother => ?_)).trans
    (List.nil_append _)
  obtain ⟨e, he, rfl⟩ := List.mem_map.mp hother
  obtain ⟨he, hsource⟩ := List.mem_filter.mp (List.mem_reverse.mp he)
  simp only [Bool.and_eq_true, decide_eq_true_eq] at hsource
  have htarget : g.nodes.length ≤ e.target :=
    (a.attached e he).resolve_left (by rw [hsource.1]; exact not_le.mpr h)
  rw [← startOf_node a, startOf_new_node a htarget]

theorem blockEdges_extend :
    blockEdges (g.extend a) functionVa = blockEdges g functionVa := by
  rw [blockEdges, blocksOfFunction_extend, blockEdges]
  refine List.flatMap_congr fun block hblock => ?_
  have hnode : g.node block.1 = some _ := mem_blocksOfFunction.mp hblock
  rw [blockSuccessors_extend a (List.getElem?_eq_some_iff.mp hnode).1]

theorem counts_extend :
    Counts (g.extend a) functionVa before after ↔ Counts g functionVa before after := by
  simp only [Counts, blockForSite_extend, blockEdges_extend]

theorem locked_extend : Locked (g.extend a) functionVa (lockSites (g.extend a).nodes) siteVa ↔
    Locked g functionVa (lockSites g.nodes) siteVa ∨
      Locked g functionVa (lockSites a.nodes) siteVa := by
  simp only [Locked, counts_extend]
  rw [EvidenceGraph.extend, lockSites, List.filterMap_append, ← lockSites, ← lockSites]
  simp only [List.mem_append, or_and_right, exists_or]

theorem sinkSites_extend :
    sinkSites (g.extend a) = sinkSites g ++ a.nodes.filterMap sinkSite := by
  rw [sinkSites_eq, sinkSites_eq, EvidenceGraph.extend, List.filterMap_append]

/-- No facts about arguments are added. -/
theorem argValuesForRole_extend (sinkCatalog : List Sink) (api : String) (role : ArgRole) :
    argValuesForRole libs (g.extend a) sinkCatalog api siteVa role =
      argValuesForRole libs g sinkCatalog api siteVa role := by
  have hfacts : (g.extend a).nodesOfKind .globalState = g.nodesOfKind .globalState := by
    rw [nodesOfKind_extend, List.filter_eq_nil_iff.mpr, List.map_nil, List.append_nil]
    intro m hm hkind
    have hother := a.ofOther _ (List.fst_mem_of_mem_zipIdx hm)
    obtain ⟨payload, i⟩ := m
    cases payload <;> first | exact hother | cases of_decide_eq_true hkind
  rw [argValuesForRole, hfacts, ← argValuesForRole]

theorem openPeer_extend (sinkCatalog : List Sink) (api : String) (locks : List Nat)
    (sinks : List (String × Nat)) :
    OpenPeer libs (g.extend a) sinkCatalog functionVa siteVa api locks sinks ↔
      OpenPeer libs g sinkCatalog functionVa siteVa api locks sinks := by
  simp only [OpenPeer, IsPeer, Locked, argValuesForRole_extend, counts_extend]

theorem actsBefore_extend :
    ActsBefore (g.extend a) functionVa (sinkSites (g.extend a)) siteVa ↔
      ActsBefore g functionVa (sinkSites g) siteVa ∨
        ActsBefore g functionVa (a.nodes.filterMap sinkSite) siteVa := by
  rw [sinkSites_extend]
  simp only [ActsBefore, counts_extend, List.mem_append, or_and_right, exists_or]

end Additions

section Locality
variable {libs : Libraries} {g : EvidenceGraph} {functionVa siteVa : Nat} {sinkCatalog : List Sink}
  {api : String}

theorem locked_append {locks added : List Nat} : Locked g functionVa (locks ++ added) siteVa ↔
    Locked g functionVa locks siteVa ∨ Locked g functionVa added siteVa := by
  simp only [Locked, List.mem_append, or_and_right, exists_or]

/-- More locks leave fewer peers open. -/
theorem OpenPeer.of_append {locks added : List Nat} {sinks : List (String × Nat)}
    (h : OpenPeer libs g sinkCatalog functionVa siteVa api (locks ++ added) sinks) :
    OpenPeer libs g sinkCatalog functionVa siteVa api locks sinks := by
  obtain ⟨sink, hsink, hpeer, hlocked⟩ := h
  exact ⟨sink, hsink, hpeer, fun h => hlocked (locked_append.mpr (.inl h))⟩

theorem openPeer_append {locks : List Nat} {sinks added : List (String × Nat)} :
    OpenPeer libs g sinkCatalog functionVa siteVa api locks (sinks ++ added) ↔
      OpenPeer libs g sinkCatalog functionVa siteVa api locks sinks ∨
        OpenPeer libs g sinkCatalog functionVa siteVa api locks added := by
  simp only [OpenPeer, List.mem_append, or_and_right, exists_or]

/-- A call in the function itself that acquires a lock, in a block that dominates the block of the
site, or before it in the same one. -/
def RealLock (g : EvidenceGraph) (functionVa siteVa : Nat) : Prop :=
  ∃ lock ∈ lockSites g.nodes, Inside g functionVa lock ∧
    ∃ b, blockForSite g functionVa lock = some b ∧
    ∃ c, blockForSite g functionVa siteVa = some c ∧
      (b = c ∧ lock < siteVa ∨ b ≠ c ∧ Dominates (blockEdges g functionVa) functionVa b c)

/-- What is added leaves the answer about shared paths: where a peer is open no added lock counts
for the site, and not for every such peer; where none is, none is added or an added lock counts. -/
def ToctouKept (libs : Libraries) (g : EvidenceGraph) (sinkCatalog : List Sink)
    (functionVa siteVa : Nat) (api : String) (nodes : List NodePayload) : Prop :=
  argValuesForRole libs g sinkCatalog api siteVa .path ≠ [] →
  ¬ Locked g functionVa (lockSites g.nodes) siteVa →
    (OpenPeer libs g sinkCatalog functionVa siteVa api (lockSites g.nodes) (sinkSites g) →
      ¬ Locked g functionVa (lockSites nodes) siteVa ∧
      OpenPeer libs g sinkCatalog functionVa siteVa api (lockSites g.nodes ++ lockSites nodes)
        (sinkSites g ++ nodes.filterMap sinkSite)) ∧
    (¬ OpenPeer libs g sinkCatalog functionVa siteVa api (lockSites g.nodes) (sinkSites g) →
      Locked g functionVa (lockSites nodes) siteVa ∨
      ¬ OpenPeer libs g sinkCatalog functionVa siteVa api (lockSites g.nodes ++ lockSites nodes)
        (nodes.filterMap sinkSite))

/-- What is added has no privileged action that counts, unless one counts already. -/
def AuthKept (g : EvidenceGraph) (functionVa siteVa : Nat) (nodes : List NodePayload) : Prop :=
  ActsBefore g functionVa (nodes.filterMap sinkSite) siteVa →
    ActsBefore g functionVa (sinkSites g) siteVa

theorem toctou_kept_iff (hfast : FastDominators libs) (a : Addition g functionVa) :
    toctouMatches libs (g.extend a) sinkCatalog functionVa siteVa api =
        toctouMatches libs g sinkCatalog functionVa siteVa api ↔
      ToctouKept libs g sinkCatalog functionVa siteVa api a.nodes := by
  rw [Bool.eq_iff_iff, toctouMatches_iff hfast, toctouMatches_iff hfast, argValuesForRole_extend,
    locked_extend, openPeer_extend, sinkSites_extend, ToctouKept]
  have hlocks : lockSites (g.extend a).nodes = lockSites g.nodes ++ lockSites a.nodes :=
    List.filterMap_append
  rw [hlocks]
  rw [openPeer_append]
  have hless : OpenPeer libs g sinkCatalog functionVa siteVa api
      (lockSites g.nodes ++ lockSites a.nodes) (sinkSites g) →
      OpenPeer libs g sinkCatalog functionVa siteVa api (lockSites g.nodes) (sinkSites g) :=
    OpenPeer.of_append
  tauto

theorem auth_kept_iff (hfast : FastDominators libs) (a : Addition g functionVa) :
    authAfterActionMatches libs (g.extend a) functionVa siteVa =
        authAfterActionMatches libs g functionVa siteVa ↔
      AuthKept g functionVa siteVa a.nodes := by
  rw [Bool.eq_iff_iff, authAfterActionMatches_iff hfast, authAfterActionMatches_iff hfast,
    actsBefore_extend, AuthKept, or_iff_left_iff_imp]

/-- A lock of the function that counts is a real one. -/
theorem realLock_of_counts {lock : Nat} (hsite : Inside g functionVa siteVa)
    (hlock : lock ∈ lockSites g.nodes) (hinside : Inside g functionVa lock)
    (hcounts : Counts g functionVa lock siteVa) : RealLock g functionVa siteVa := by
  obtain ⟨b, hb⟩ := blockForSite_inside hinside
  obtain ⟨c, hc⟩ := blockForSite_inside hsite
  refine ⟨lock, hlock, hinside, b, hb, c, hc, ?_⟩
  by_cases heq : b = c
  · exact .inl ⟨heq, hcounts.1⟩
  · exact .inr ⟨heq, ((hcounts.2 b hb c hc).resolve_left heq).2⟩

theorem lock_real_iff (hfast : FastDominators libs) (hsite : Inside g functionVa siteVa) :
    (hasDominatingLock libs g functionVa siteVa = true → RealLock g functionVa siteVa) ↔
      ((∃ lock ∈ lockSites g.nodes, ¬ Inside g functionVa lock ∧
        Counts g functionVa lock siteVa) → RealLock g functionVa siteVa) := by
  rw [hasDominatingLock_iff hfast]
  constructor
  · rintro h ⟨lock, hlock, -, hcounts⟩
    exact h ⟨lock, hlock, hcounts.1.ne, hcounts⟩
  · rintro h ⟨lock, hlock, -, hcounts⟩
    by_cases hinside : Inside g functionVa lock
    · exact realLock_of_counts hsite hlock hinside hcounts
    · exact h ⟨lock, hlock, hinside, hcounts⟩

/-- The checks of a function are its own just when no site outside its blocks that counts as
before one in it decides them. -/
theorem checks_local_iff (libs : Libraries) (hfast : FastDominators libs) (g : EvidenceGraph)
    (sinkCatalog : List Sink) (functionVa siteVa : Nat) (api : String)
    (hsite : Inside g functionVa siteVa) (a : Addition g functionVa) :
    (toctouMatches libs (g.extend a) sinkCatalog functionVa siteVa api =
        toctouMatches libs g sinkCatalog functionVa siteVa api ∧
      authAfterActionMatches libs (g.extend a) functionVa siteVa =
        authAfterActionMatches libs g functionVa siteVa ∧
      (hasDominatingLock libs g functionVa siteVa = true → RealLock g functionVa siteVa)) ↔
    (ToctouKept libs g sinkCatalog functionVa siteVa api a.nodes ∧
      AuthKept g functionVa siteVa a.nodes ∧
      ((∃ lock ∈ lockSites g.nodes, ¬ Inside g functionVa lock ∧
        Counts g functionVa lock siteVa) → RealLock g functionVa siteVa)) :=
  and_congr (toctou_kept_iff hfast a)
    (and_congr (auth_kept_iff hfast a) (lock_real_iff hfast hsite))

end Locality

section Example

/-- One block, at its end a check of rights. -/
def checkedFunction : EvidenceGraph :=
  ⟨[.function 8192, .basicBlock 8192 8192 8208, .sink "AccessCheck" 8200], []⟩

theorem checkedFunction_inside {va : Nat} (h : Inside checkedFunction 8192 va) : 8192 ≤ va := by
  obtain ⟨block, hblock, hstart, -⟩ := h
  rw [List.mem_singleton.mp hblock] at hstart
  exact hstart

/-- Elsewhere, at lower addresses, a lock is taken and a file is opened. -/
def fileFunction : Addition checkedFunction 8192 where
  otherVa := 4096
  nodes := [.function 4096, .basicBlock 4096 4096 4112,
    .callSite 4100 (some "EnterCriticalSection"), .sink "CreateFileW" 4104]
  edges := []
  other := by decide
  ofOther := by
    have hlow : ∀ va < 8192, ¬ Inside checkedFunction 8192 va :=
      fun va hva h => absurd (checkedFunction_inside h) (not_le.mpr hva)
    rintro payload hmem
    simp only [List.mem_cons, List.not_mem_nil, or_false] at hmem
    obtain rfl | rfl | rfl | rfl := hmem
    · exact rfl
    · exact ⟨rfl, fun va _ hva => hlow va (hva.trans (by decide))⟩
    · exact hlow 4100 (by decide)
    · exact hlow 4104 (by decide)
  attached := by simp

/-- The file counts as opened before the check, and the lock as one held at it. -/
theorem lower_function_counts :
    authAfterActionMatches referenceLibraries (checkedFunction.extend fileFunction) 8192 8200 ≠
      authAfterActionMatches referenceLibraries checkedFunction 8192 8200 ∧
    hasDominatingLock referenceLibraries (checkedFunction.extend fileFunction) 8192 8200 = true ∧
    ¬ RealLock (checkedFunction.extend fileFunction) 8192 8200 := by
  refine ⟨by decide, by decide, ?_⟩
  rintro ⟨lock, hlock, hinside, -⟩
  have heq : lock = 4100 := List.mem_singleton.mp hlock
  exact absurd (heq ▸ hinside) (by decide)

theorem checks_local_fileFunction :
    Inside checkedFunction 8192 8200 ∧
    ((toctouMatches referenceLibraries (checkedFunction.extend fileFunction) [] 8192 8200
          "AccessCheck" =
        toctouMatches referenceLibraries checkedFunction [] 8192 8200 "AccessCheck" ∧
      authAfterActionMatches referenceLibraries (checkedFunction.extend fileFunction) 8192 8200 =
        authAfterActionMatches referenceLibraries checkedFunction 8192 8200 ∧
      (hasDominatingLock referenceLibraries checkedFunction 8192 8200 = true →
        RealLock checkedFunction 8192 8200)) ↔
    (ToctouKept referenceLibraries checkedFunction [] 8192 8200 "AccessCheck"
        fileFunction.nodes ∧
      AuthKept checkedFunction 8192 8200 fileFunction.nodes ∧
      ((∃ lock ∈ lockSites checkedFunction.nodes, ¬ Inside checkedFunction 8192 lock ∧
        Counts checkedFunction 8192 lock 8200) → RealLock checkedFunction 8192 8200))) :=
  ⟨by decide, checks_local_iff referenceLibraries referenceLibraries_fast checkedFunction [] 8192
    8200 "AccessCheck" (by decide) fileFunction⟩

end Example

end Axe.Vuln
