import Mathlib.Algebra.Order.Ring.Nat
import Mathlib.Data.List.Infix
import Axe.Lib.Traversal

/-!
# The evidence graph

Nodes and edges keep the order in which they were added, and a node is named by its
place. Of a payload the fields are kept that the taint engine and the query read.
-/
namespace Axe.Vuln

abbrev NodeId := Nat

inductive NodeKind where
  | function | basicBlock | callSite | source | sink | sanitizer | boundsCheck | allocation
  | copy | parseStep | typeCast | integerOp | pointerDerivation | branchCondition | globalState
  deriving DecidableEq

inductive EdgeKind where
  | calls | controlFlow | dataFlow | taintFlow | dominates | postDominates | guardedBy
  | reaches | derivedFrom | writesTo | readsFrom | aliasMayPointTo
  deriving DecidableEq

inductive NodePayload where
  | function (va : Nat)
  | basicBlock (functionVa startVa endVa : Nat)
  | callSite (va : Nat) (api : Option String)
  | source
  | sink (api : String) (siteVa : Nat)
  | sanitizer
  | boundsCheck (var : String) (va : Nat)
  | allocation
  | copy
  | parseStep
  | typeCast
  | integerOp
  | pointerDerivation
  | branchCondition
  | globalState (key : String)
  deriving DecidableEq

def NodePayload.kind : NodePayload → NodeKind
  | function _ => .function
  | basicBlock _ _ _ => .basicBlock
  | callSite _ _ => .callSite
  | source => .source
  | sink _ _ => .sink
  | sanitizer => .sanitizer
  | boundsCheck _ _ => .boundsCheck
  | allocation => .allocation
  | copy => .copy
  | parseStep => .parseStep
  | typeCast => .typeCast
  | integerOp => .integerOp
  | pointerDerivation => .pointerDerivation
  | branchCondition => .branchCondition
  | globalState _ => .globalState

structure Edge where
  source : NodeId
  target : NodeId
  kind : EdgeKind

structure EvidenceGraph where
  nodes : List NodePayload
  edges : List Edge

namespace EvidenceGraph

def new : EvidenceGraph := ⟨[], []⟩

def addNode (g : EvidenceGraph) (payload : NodePayload) : EvidenceGraph × NodeId :=
  ({ g with nodes := g.nodes ++ [payload] }, g.nodes.length)

def addEdge (g : EvidenceGraph) (source target : NodeId) (kind : EdgeKind) : EvidenceGraph :=
  { g with edges := g.edges ++ [⟨source, target, kind⟩] }

def node (g : EvidenceGraph) (id : NodeId) : Option NodePayload := g.nodes[id]?

def nodeCount (g : EvidenceGraph) : Nat := g.nodes.length

def nodesOfKind (g : EvidenceGraph) (kind : NodeKind) : List (NodeId × NodePayload) :=
  (g.nodes.zipIdx.filter (·.1.kind = kind)).map Prod.swap

/-- The graph lists the edges of a node from the newest to the oldest. -/
def outgoingOfKind (g : EvidenceGraph) (n : NodeId) (kind : EdgeKind) : List NodeId :=
  (g.edges.filter fun e => e.source = n && e.kind = kind).reverse.map Edge.target

def incomingOfKind (g : EvidenceGraph) (n : NodeId) (kind : EdgeKind) : List NodeId :=
  (g.edges.filter fun e => e.target = n && e.kind = kind).reverse.map Edge.source

/-- The index keeps the newest sink of an address. -/
def sinkByVa (g : EvidenceGraph) (va : Nat) : Option NodeId :=
  ((g.nodesOfKind .sink).reverse.find? fun n => match n.2 with
    | .sink _ siteVa => siteVa = va
    | _ => false).map Prod.fst

/-- The newest function node of an address. -/
def functionByVa (g : EvidenceGraph) (va : Nat) : Option NodeId :=
  ((g.nodesOfKind .function).reverse.find? fun n => match n.2 with
    | .function functionVa => functionVa = va
    | _ => false).map Prod.fst

/-- The newest block node of a function and a start. -/
def blockByVa (g : EvidenceGraph) (functionVa startVa : Nat) : Option NodeId :=
  ((g.nodesOfKind .basicBlock).reverse.find? fun n => match n.2 with
    | .basicBlock function start _ => function = functionVa && start = startVa
    | _ => false).map Prod.fst

def edgesOfKind (g : EvidenceGraph) (kind : EdgeKind) : List (NodeId × NodeId) :=
  (g.edges.filter (·.kind = kind)).map fun e => (e.source, e.target)

/-- A path along edges of any kind. -/
def Path (g : EvidenceGraph) : NodeId → NodeId → Prop :=
  Traversal.Reaches (g.edges.map fun e => (e.source, e.target))

/-- A path along data flow. -/
def FlowsTo (g : EvidenceGraph) : NodeId → NodeId → Prop :=
  Traversal.Reaches (g.edgesOfKind .dataFlow)

variable {g : EvidenceGraph} {kind : NodeKind} {id n : NodeId} {payload : NodePayload}

theorem mem_nodesOfKind :
    (id, payload) ∈ g.nodesOfKind kind ↔ g.node id = some payload ∧ payload.kind = kind := by
  rw [nodesOfKind, List.mem_map, node]
  constructor
  · rintro ⟨⟨p, i⟩, hmem, heq⟩
    obtain ⟨rfl, rfl⟩ := Prod.mk.inj heq
    obtain ⟨hmem, hkind⟩ := List.mem_filter.mp hmem
    exact ⟨List.mem_zipIdx_iff_getElem?.mp hmem, of_decide_eq_true hkind⟩
  · rintro ⟨hnode, hkind⟩
    exact ⟨(payload, id), List.mem_filter.mpr
      ⟨List.mem_zipIdx_iff_getElem?.mpr hnode, decide_eq_true hkind⟩, rfl⟩

section Edges
variable {a b : NodeId} {edgeKind : EdgeKind}

theorem mem_edgesOfKind : (a, b) ∈ g.edgesOfKind edgeKind ↔ ⟨a, b, edgeKind⟩ ∈ g.edges := by
  simp only [edgesOfKind, List.mem_map, List.mem_filter, decide_eq_true_eq, Prod.mk.injEq]
  constructor
  · rintro ⟨⟨x, y, k⟩, ⟨hmem, rfl⟩, rfl, rfl⟩
    exact hmem
  · exact fun hmem => ⟨_, ⟨hmem, rfl⟩, rfl, rfl⟩

theorem mem_outgoingOfKind : b ∈ g.outgoingOfKind a edgeKind ↔ (a, b) ∈ g.edgesOfKind edgeKind := by
  rw [mem_edgesOfKind]
  simp only [outgoingOfKind, List.mem_map, List.mem_reverse, List.mem_filter, Bool.and_eq_true,
    decide_eq_true_eq]
  constructor
  · rintro ⟨⟨x, y, k⟩, ⟨hmem, rfl, rfl⟩, rfl⟩
    exact hmem
  · exact fun hmem => ⟨_, ⟨hmem, rfl, rfl⟩, rfl⟩

theorem mem_incomingOfKind : a ∈ g.incomingOfKind b edgeKind ↔ (a, b) ∈ g.edgesOfKind edgeKind := by
  rw [mem_edgesOfKind]
  simp only [incomingOfKind, List.mem_map, List.mem_reverse, List.mem_filter, Bool.and_eq_true,
    decide_eq_true_eq]
  constructor
  · rintro ⟨⟨x, y, k⟩, ⟨hmem, rfl, rfl⟩, rfl⟩
    exact hmem
  · exact fun hmem => ⟨_, ⟨hmem, rfl, rfl⟩, rfl⟩

end Edges

theorem outgoingOfKind_dataFlow :
    g.outgoingOfKind n .dataFlow =
      (Traversal.successors (g.edgesOfKind .dataFlow) n).reverse := by
  rw [outgoingOfKind, Traversal.successors, edgesOfKind, List.map_reverse, List.filterMap_map]
  congr 1
  induction g.edges with
  | nil => rfl
  | cons e rest ih =>
    by_cases hfrom : e.source = n <;> by_cases hkind : e.kind = .dataFlow <;>
      simp [hfrom, hkind, ih]

theorem incomingOfKind_dataFlow :
    g.incomingOfKind n .dataFlow =
      (Traversal.successors ((g.edgesOfKind .dataFlow).map Prod.swap) n).reverse := by
  rw [incomingOfKind, Traversal.successors, edgesOfKind, List.map_reverse, List.filterMap_map,
    List.filterMap_map]
  congr 1
  induction g.edges with
  | nil => rfl
  | cons e rest ih =>
    by_cases hto : e.target = n <;> by_cases hkind : e.kind = .dataFlow <;>
      simp [hto, hkind, ih]

end EvidenceGraph

end Axe.Vuln
