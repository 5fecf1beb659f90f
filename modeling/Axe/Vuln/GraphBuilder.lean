import Axe.Static.Blocks
import Axe.Vuln.Graph

/-!
# Functions and control flow in the evidence graph

A function record becomes a node and its known callees edges; a control flow record becomes
block nodes and the edges whose two ends are starts of blocks.
-/
namespace Axe.Vuln

open Axe.Static (BasicBlockRecord CfgRecord EdgeRecord FunctionRecord InstructionRecord)

def addFunction (acc : EvidenceGraph × List (Nat × NodeId)) (function : FunctionRecord) :
    EvidenceGraph × List (Nat × NodeId) :=
  let added := acc.1.addNode (.function function.start)
  (added.1, SortedMap.insert Prod.fst (function.start, added.2) acc.2)

def addCall (caller : NodeId) (graph : EvidenceGraph) (calleeVa : Nat) : EvidenceGraph :=
  match graph.functionByVa calleeVa with
  | some callee => graph.addEdge caller callee .calls
  | none => graph

def addCalls (graph : EvidenceGraph) (function : FunctionRecord) : EvidenceGraph :=
  match graph.functionByVa function.start with
  | some caller => function.calls.foldl (addCall caller) graph
  | none => graph

/-- The graph, and for each function address its node. -/
def ingestFunctions (graph : EvidenceGraph) (functions : List FunctionRecord) :
    EvidenceGraph × List (Nat × NodeId) :=
  let added := functions.foldl addFunction (graph, [])
  (functions.foldl addCalls added.1, added.2)

def ingestBlock (function : Nat) (graph : EvidenceGraph) (block : BasicBlockRecord) :
    EvidenceGraph :=
  if (graph.blockByVa function block.start).isSome then graph
  else (graph.addNode (.basicBlock function block.start block.stop)).1

def ingestEdge (function : Nat) (graph : EvidenceGraph) (edge : EdgeRecord) : EvidenceGraph :=
  match graph.blockByVa function edge.source with
  | none => graph
  | some source =>
    match graph.blockByVa function edge.target with
    | none => graph
    | some target => graph.addEdge source target .controlFlow

def ingestRecord (graph : EvidenceGraph) (cfg : CfgRecord) : EvidenceGraph :=
  if (graph.functionByVa cfg.function).isNone then graph
  else cfg.edges.foldl (ingestEdge cfg.function) (cfg.blocks.foldl (ingestBlock cfg.function) graph)

def ingestCfg (graph : EvidenceGraph) (cfgs : List CfgRecord) : EvidenceGraph :=
  cfgs.foldl ingestRecord graph

variable {g g' : EvidenceGraph} {va functionVa startVa id a b : Nat} {p : NodePayload}
  {cfgs done : List CfgRecord} {r : CfgRecord} {functions : List FunctionRecord}

/-- The node of a block, told by the block's function and start. -/
def IsBlockNode (g : EvidenceGraph) (functionVa startVa : Nat) (id : NodeId) : Prop :=
  ∃ endVa, g.node id = some (.basicBlock functionVa startVa endVa)

def HasFunction (g : EvidenceGraph) (va : Nat) : Prop := ∃ id, g.node id = some (.function va)

theorem functionByVa_isSome (h : HasFunction g va) : (g.functionByVa va).isSome := by
  obtain ⟨id, hid⟩ := h
  have hmem : (id, NodePayload.function va) ∈ (g.nodesOfKind .function).reverse :=
    List.mem_reverse.mpr (EvidenceGraph.mem_nodesOfKind.mpr ⟨hid, rfl⟩)
  rw [EvidenceGraph.functionByVa, Option.isSome_map, List.find?_isSome]
  exact ⟨_, hmem, decide_eq_true rfl⟩

theorem isBlockNode_of_blockByVa (h : g.blockByVa functionVa startVa = some id) :
    IsBlockNode g functionVa startVa id := by
  obtain ⟨n, hfind, rfl⟩ := Option.map_eq_some_iff.mp h
  have hmem := List.mem_reverse.mp (List.mem_of_find?_eq_some hfind)
  have hkey := List.find?_some hfind
  obtain ⟨hnode, _⟩ := EvidenceGraph.mem_nodesOfKind.mp hmem
  cases hpayload : n.2 with
  | basicBlock function start endVa =>
    rw [hpayload, Bool.and_eq_true, decide_eq_true_iff, decide_eq_true_iff] at hkey
    exact ⟨endVa, by rw [hnode, hpayload, hkey.1, hkey.2]⟩
  | _ =>
    rw [hpayload] at hkey
    exact absurd hkey Bool.false_ne_true

theorem blockByVa_isSome (h : IsBlockNode g functionVa startVa id) :
    (g.blockByVa functionVa startVa).isSome := by
  obtain ⟨endVa, hid⟩ := h
  have hmem : (id, NodePayload.basicBlock functionVa startVa endVa) ∈
      (g.nodesOfKind .basicBlock).reverse :=
    List.mem_reverse.mpr (EvidenceGraph.mem_nodesOfKind.mpr ⟨hid, rfl⟩)
  rw [EvidenceGraph.blockByVa, Option.isSome_map, List.find?_isSome]
  refine ⟨_, hmem, ?_⟩
  simp

/-- Every block has one node. -/
def UniqueBlocks (g : EvidenceGraph) : Prop :=
  ∀ functionVa startVa id id', IsBlockNode g functionVa startVa id →
    IsBlockNode g functionVa startVa id' → id = id'

theorem blockByVa_eq_some (hu : UniqueBlocks g) :
    g.blockByVa functionVa startVa = some id ↔ IsBlockNode g functionVa startVa id := by
  refine ⟨isBlockNode_of_blockByVa, fun h => ?_⟩
  obtain ⟨id', hid'⟩ := Option.isSome_iff_exists.mp (blockByVa_isSome h)
  rw [hid', hu _ _ _ _ (isBlockNode_of_blockByVa hid') h]

def Extends (g g' : EvidenceGraph) : Prop := ∀ id p, g.node id = some p → g'.node id = some p

theorem Extends.refl (g : EvidenceGraph) : Extends g g := fun _ _ h => h

theorem Extends.trans {g'' : EvidenceGraph} (h : Extends g g') (h' : Extends g' g'') :
    Extends g g'' :=
  fun id p hp => h' id p (h id p hp)

theorem Extends.isBlockNode (h : Extends g g') (hb : IsBlockNode g functionVa startVa id) :
    IsBlockNode g' functionVa startVa id :=
  hb.imp fun _ hid => h _ _ hid

theorem Extends.hasFunction (h : Extends g g') (hf : HasFunction g va) : HasFunction g' va :=
  hf.imp fun _ hid => h _ _ hid

theorem node_addNode :
    (g.addNode p).1.node id = if id = g.nodes.length then some p else g.node id := by
  rw [EvidenceGraph.addNode, EvidenceGraph.node, EvidenceGraph.node]
  rcases Nat.lt_trichotomy id g.nodes.length with hlt | heq | hgt
  · rw [List.getElem?_append_left hlt, if_neg hlt.ne]
  · rw [heq, if_pos rfl, List.getElem?_append_right (Nat.le_refl _), Nat.sub_self]
    rfl
  · rw [if_neg hgt.ne', List.getElem?_eq_none (by simp; omega),
      List.getElem?_eq_none (Nat.le_of_lt hgt)]

theorem extends_addNode : Extends g (g.addNode p).1 := by
  intro id q hq
  have hlt : id < g.nodes.length := (List.getElem?_eq_some_iff.mp hq).1
  rw [node_addNode, if_neg hlt.ne, hq]

theorem addFunction_extends (acc : EvidenceGraph × List (Nat × NodeId))
    (function : FunctionRecord) : Extends acc.1 (addFunction acc function).1 :=
  extends_addNode

/-- Only function nodes and calls are in the graph. -/
structure FunctionsOnly (g : EvidenceGraph) : Prop where
  noBlock : ∀ id functionVa startVa endVa,
    g.node id ≠ some (.basicBlock functionVa startVa endVa)
  noControlFlow : ∀ e ∈ g.edges, e.kind ≠ .controlFlow

theorem functionsOnly_new : FunctionsOnly .new where
  noBlock := by simp [EvidenceGraph.new, EvidenceGraph.node]
  noControlFlow := by simp [EvidenceGraph.new]

theorem functionsOnly_addFunction {acc : EvidenceGraph × List (Nat × NodeId)}
    (h : FunctionsOnly acc.1) (function : FunctionRecord) :
    FunctionsOnly (addFunction acc function).1 where
  noBlock := by
    intro id functionVa startVa endVa hid
    rw [addFunction, node_addNode] at hid
    split at hid
    · simp at hid
    · exact h.noBlock id functionVa startVa endVa hid
  noControlFlow := h.noControlFlow

theorem addFunctions_ok (functions : List FunctionRecord)
    (acc : EvidenceGraph × List (Nat × NodeId)) (h : FunctionsOnly acc.1) :
    FunctionsOnly (functions.foldl addFunction acc).1 ∧
      Extends acc.1 (functions.foldl addFunction acc).1 ∧
      ∀ f ∈ functions, HasFunction (functions.foldl addFunction acc).1 f.start := by
  induction functions generalizing acc with
  | nil => exact ⟨h, Extends.refl _, fun f hf => absurd hf List.not_mem_nil⟩
  | cons function rest ih =>
    obtain ⟨honly, hext, hhas⟩ := ih _ (functionsOnly_addFunction h function)
    refine ⟨honly, (addFunction_extends acc function).trans hext, fun f hf => ?_⟩
    rcases List.mem_cons.mp hf with rfl | hf
    · refine hext.hasFunction ⟨acc.1.nodes.length, ?_⟩
      rw [addFunction, node_addNode, if_pos rfl]
    · exact hhas f hf

/-- Adding calls keeps the nodes and adds no control flow. -/
structure CallsAdded (g g' : EvidenceGraph) : Prop where
  nodes : g'.nodes = g.nodes
  controlFlow : ∀ e ∈ g'.edges, e.kind = .controlFlow → e ∈ g.edges

theorem CallsAdded.trans {g'' : EvidenceGraph} (h : CallsAdded g g') (h' : CallsAdded g' g'') :
    CallsAdded g g'' where
  nodes := h'.nodes.trans h.nodes
  controlFlow := fun e he hk => h.controlFlow e (h'.controlFlow e he hk) hk

theorem callsAdded_addCall {caller : NodeId} (calleeVa : Nat) :
    CallsAdded g (addCall caller g calleeVa) := by
  rw [addCall]
  split
  · refine ⟨rfl, fun e he hk => ?_⟩
    rcases List.mem_append.mp he with he | he
    · exact he
    · rw [List.mem_singleton.mp he] at hk
      exact absurd hk EdgeKind.noConfusion
  · exact ⟨rfl, fun e he _ => he⟩

theorem callsAdded_foldl {α : Type} {step : EvidenceGraph → α → EvidenceGraph}
    (hstep : ∀ g x, CallsAdded g (step g x)) (l : List α) (g : EvidenceGraph) :
    CallsAdded g (l.foldl step g) := by
  induction l generalizing g with
  | nil => exact ⟨rfl, fun e he _ => he⟩
  | cons x rest ih => exact (hstep g x).trans (ih (step g x))

theorem callsAdded_addCalls (function : FunctionRecord) :
    CallsAdded g (addCalls g function) := by
  rw [addCalls]
  split
  · exact callsAdded_foldl (fun _ calleeVa => callsAdded_addCall calleeVa) _ _
  · exact ⟨rfl, fun e he _ => he⟩

theorem ingestFunctions_ok (h : FunctionsOnly g) (functions : List FunctionRecord) :
    FunctionsOnly (ingestFunctions g functions).1 ∧
      ∀ f ∈ functions, HasFunction (ingestFunctions g functions).1 f.start := by
  obtain ⟨honly, _, hhas⟩ := addFunctions_ok functions (g, []) h
  have hcalls := callsAdded_foldl (fun _ f => callsAdded_addCalls f) functions
    (functions.foldl addFunction (g, [])).1
  have hnode : ∀ id, (ingestFunctions g functions).1.node id =
      (functions.foldl addFunction (g, [])).1.node id := by
    intro id
    rw [ingestFunctions, EvidenceGraph.node, hcalls.nodes, EvidenceGraph.node]
  refine ⟨⟨fun id f s e hid => ?_, fun e he hk => ?_⟩, fun f hf => ?_⟩
  · rw [hnode] at hid
    exact honly.noBlock id f s e hid
  · exact honly.noControlFlow e (hcalls.controlFlow e he hk) hk
  · obtain ⟨id, hid⟩ := hhas f hf
    exact ⟨id, (hnode id).trans hid⟩

/-- What adding the blocks of a record does. -/
structure BlocksAdded (function : Nat) (blocks : List BasicBlockRecord)
    (g g' : EvidenceGraph) : Prop where
  edges : g'.edges = g.edges
  ext : Extends g g'
  unique : UniqueBlocks g → UniqueBlocks g'
  added : ∀ block ∈ blocks, ∃ id, IsBlockNode g' function block.start id
  only : ∀ id f s e, g'.node id = some (.basicBlock f s e) →
    g.node id = some (.basicBlock f s e) ∨
      (f = function ∧ ∃ block ∈ blocks, block.start = s ∧ block.stop = e)

theorem blocksAdded_ingestBlock (function : Nat) (block : BasicBlockRecord) :
    BlocksAdded function [block] g (ingestBlock function g block) := by
  rw [ingestBlock]
  split
  · rename_i hsome
    obtain ⟨id, hid⟩ := Option.isSome_iff_exists.mp hsome
    refine ⟨rfl, Extends.refl g, fun h => h, ?_, fun _ _ _ _ h => Or.inl h⟩
    intro b hb
    rw [List.mem_singleton.mp hb]
    exact ⟨id, isBlockNode_of_blockByVa hid⟩
  · rename_i hfresh
    have hnew : ∀ f s id, IsBlockNode (g.addNode (.basicBlock function block.start block.stop)).1
        f s id → IsBlockNode g f s id ∨
          (f = function ∧ s = block.start ∧ id = g.nodes.length) := by
      rintro f s id ⟨e, he⟩
      rw [node_addNode] at he
      split at he
      · rename_i hid
        obtain ⟨rfl, rfl, _⟩ := NodePayload.basicBlock.inj (Option.some.inj he)
        exact Or.inr ⟨rfl, rfl, hid⟩
      · exact Or.inl ⟨e, he⟩
    have hnone : ∀ id, ¬ IsBlockNode g function block.start id :=
      fun id hid => hfresh (blockByVa_isSome hid)
    refine ⟨rfl, extends_addNode, fun hu => ?_, ?_, ?_⟩
    · intro f s id id' hid hid'
      rcases hnew f s id hid with hold | ⟨rfl, rfl, heq⟩
      · rcases hnew f s id' hid' with hold' | ⟨rfl, rfl, _⟩
        · exact hu f s id id' hold hold'
        · exact absurd hold (hnone id)
      · rcases hnew f block.start id' hid' with hold' | ⟨_, _, heq'⟩
        · exact absurd hold' (hnone id')
        · rw [heq, heq']
    · intro b hb
      rw [List.mem_singleton.mp hb]
      exact ⟨g.nodes.length, block.stop, by rw [node_addNode, if_pos rfl]⟩
    · intro id f s e he
      rw [node_addNode] at he
      split at he
      · obtain ⟨rfl, rfl, rfl⟩ := NodePayload.basicBlock.inj (Option.some.inj he)
        exact Or.inr ⟨rfl, block, List.mem_singleton_self _, rfl, rfl⟩
      · exact Or.inl he

theorem blocksAdded_foldl (function : Nat) (blocks : List BasicBlockRecord) (g : EvidenceGraph) :
    BlocksAdded function blocks g (blocks.foldl (ingestBlock function) g) := by
  induction blocks generalizing g with
  | nil =>
    exact ⟨rfl, Extends.refl g, fun h => h, fun _ h => absurd h List.not_mem_nil,
      fun _ _ _ _ h => Or.inl h⟩
  | cons block rest ih =>
    have hhead := blocksAdded_ingestBlock function block (g := g)
    have hrest := ih (ingestBlock function g block)
    refine ⟨hrest.edges.trans hhead.edges, hhead.ext.trans hrest.ext,
      fun hu => hrest.unique (hhead.unique hu), ?_, ?_⟩
    · intro b hb
      rcases List.mem_cons.mp hb with rfl | hb
      · obtain ⟨id, hid⟩ := hhead.added b (List.mem_singleton_self _)
        exact ⟨id, hrest.ext.isBlockNode hid⟩
      · exact hrest.added b hb
    · intro id f s e he
      rcases hrest.only id f s e he with he | ⟨hf, b, hb, hbe⟩
      · refine (hhead.only id f s e he).imp_right ?_
        rintro ⟨hf, b, hb, hbe⟩
        exact ⟨hf, b, List.mem_singleton.mp hb ▸ List.mem_cons_self, hbe⟩
      · exact Or.inr ⟨hf, b, List.mem_cons_of_mem _ hb, hbe⟩

/-- An edge of the record becomes an edge of the graph when both its ends are block starts. -/
theorem mem_ingestEdge (hu : UniqueBlocks g) (function : Nat) (edge : EdgeRecord) (x : Edge) :
    (ingestEdge function g edge).nodes = g.nodes ∧
      (x ∈ (ingestEdge function g edge).edges ↔ x ∈ g.edges ∨
        (x.kind = .controlFlow ∧ IsBlockNode g function edge.source x.source ∧
          IsBlockNode g function edge.target x.target)) := by
  rw [ingestEdge]
  split
  · rename_i hnone
    refine ⟨rfl, Or.inl, ?_⟩
    rintro (h | ⟨_, hs, _⟩)
    · exact h
    · exact absurd ((blockByVa_eq_some hu).mpr hs) (hnone ▸ Option.some_ne_none _ |>.symm)
  · rename_i source hsource
    split
    · rename_i hnone
      refine ⟨rfl, Or.inl, ?_⟩
      rintro (h | ⟨_, _, ht⟩)
      · exact h
      · exact absurd ((blockByVa_eq_some hu).mpr ht) (hnone ▸ Option.some_ne_none _ |>.symm)
    · rename_i target htarget
      have hs := (blockByVa_eq_some hu).mp hsource
      have ht := (blockByVa_eq_some hu).mp htarget
      refine ⟨rfl, ?_⟩
      rw [EvidenceGraph.addEdge, List.mem_append, List.mem_singleton]
      refine or_congr_right ⟨?_, ?_⟩
      · rintro rfl
        exact ⟨rfl, hs, ht⟩
      · rintro ⟨hk, hs', ht'⟩
        rw [← hk, hu _ _ _ _ hs hs', hu _ _ _ _ ht ht']

theorem mem_foldl_ingestEdge (hu : UniqueBlocks g) (function : Nat) (edges : List EdgeRecord)
    (x : Edge) :
    (edges.foldl (ingestEdge function) g).nodes = g.nodes ∧
      (x ∈ (edges.foldl (ingestEdge function) g).edges ↔ x ∈ g.edges ∨
        (x.kind = .controlFlow ∧ ∃ edge ∈ edges, IsBlockNode g function edge.source x.source ∧
          IsBlockNode g function edge.target x.target)) := by
  induction edges generalizing g with
  | nil => simp
  | cons edge rest ih =>
    obtain ⟨hnodes, hmem⟩ := mem_ingestEdge hu function edge x
    have hblock : ∀ f s id, IsBlockNode (ingestEdge function g edge) f s id ↔
        IsBlockNode g f s id := by
      intro f s id
      rw [IsBlockNode, IsBlockNode, EvidenceGraph.node, EvidenceGraph.node, hnodes]
    have hu' : UniqueBlocks (ingestEdge function g edge) := by
      intro f s id id' h h'
      exact hu f s id id' ((hblock f s id).mp h) ((hblock f s id').mp h')
    obtain ⟨hnodes', hmem'⟩ := ih hu'
    rw [List.foldl_cons, hnodes', hnodes, hmem', hmem]
    refine ⟨rfl, ?_⟩
    simp only [hblock, List.mem_cons, exists_eq_or_imp]
    rw [or_assoc, ← and_or_left]

end Axe.Vuln
