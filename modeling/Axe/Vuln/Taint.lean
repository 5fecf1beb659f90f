import Axe.Vuln.Catalog
import Mathlib.Logic.Function.Basic

/-!
# Taint propagation

Within a function the taint of a source follows data flow; across functions it follows
the calls, as far as the summaries let it. Hop counts are `u32` and saturate.
-/
namespace Axe.Vuln

inductive PropagationMode where
  | exact | summary
  deriving DecidableEq

structure TaintMark where
  sourceNode : NodeId
  sourceKind : String
  mode : PropagationMode
  hopCount : Nat
  deriving DecidableEq

/-- The marks of each node. A node without an entry has none, and no entry is empty. -/
abbrev TaintMap := NodeId → List TaintMark

structure CallSummary where
  taintIn : List Bool
  taintOut : List Bool
  sinksReached : List (String × Nat)
  allocations : List Nat
  freeCalls : List Nat

namespace TaintMap

def new : TaintMap := fun _ => []

def isTainted (m : TaintMap) (n : NodeId) : Bool := !(m n).isEmpty

/-- The first mark of the same origin and mode keeps the lower hop count. -/
def lower (mark : TaintMark) : List TaintMark → List TaintMark × Bool
  | [] => ([mark], true)
  | m :: rest =>
    if m.sourceNode = mark.sourceNode ∧ m.mode = mark.mode then
      if mark.hopCount < m.hopCount then ({ m with hopCount := mark.hopCount } :: rest, true)
      else (m :: rest, false)
    else
      let (rest, changed) := lower mark rest
      (m :: rest, changed)

def add (m : TaintMap) (n : NodeId) (mark : TaintMark) : TaintMap × Bool :=
  (Function.update m n (lower mark (m n)).1, (lower mark (m n)).2)

/-- Adds the marks one after the other, and tells whether one of them changed the map. -/
def addAll (marks : List (NodeId × TaintMark)) (m : TaintMap) : TaintMap × Bool :=
  marks.foldl (fun (m, changed) (n, mark) =>
    let (m, c) := m.add n mark
    (m, changed || c)) (m, false)

end TaintMap

def discoverSourceNodes (toLowercase : String → String) (g : EvidenceGraph)
    (catalog : List Source) : List (NodeId × String) :=
  (g.nodesOfKind .callSite).filterMap fun (id, payload) =>
    match payload with
    | .callSite _ (some api) => (matchApi toLowercase catalog api).map fun src => (id, src.kind)
    | _ => none

def propagateIntraprocedural (toLowercase : String → String) (g : EvidenceGraph)
    (catalog : List Source) : TaintMap :=
  let flow := g.edgesOfKind .dataFlow
  (discoverSourceNodes toLowercase g catalog).foldl (fun m (source, kind) =>
    (m.addAll ((Traversal.search flow.reverse (flow.length + 1) [source] []).map fun n =>
      (n, ⟨source, kind, .exact, 0⟩))).1) TaintMap.new

/-- One more hop across a call. -/
def TaintMark.hop (mark : TaintMark) : TaintMark :=
  ⟨mark.sourceNode, mark.sourceKind, .summary, min (mark.hopCount + 1) (2 ^ 32 - 1)⟩

def summaryAcceptsTaint (summary : CallSummary) : Bool :=
  summary.taintIn.any id || summary.taintOut.any id || !summary.sinksReached.isEmpty

def taintMarksInFunction (g : EvidenceGraph) (m : TaintMap) (functionId : NodeId) :
    List TaintMark :=
  m functionId ++ (g.outgoingOfKind functionId .controlFlow).flatMap m

/-- The marks that one function passes on: to the sinks of its summary, and to its callees. -/
def passedMarks (g : EvidenceGraph) (summaries : Nat → Option CallSummary) (m : TaintMap)
    (functionId : NodeId) (functionVa : Nat) : List (NodeId × TaintMark) :=
  let functionMarks := taintMarksInFunction g m functionId
  if functionMarks = [] then []
  else
    let toSinks := match summaries functionVa with
      | some summary =>
        summary.sinksReached.flatMap fun (_, sinkVa) =>
          match g.sinkByVa sinkVa with
          | some sinkId => ((m functionId).filter (·.mode = .summary)).map fun mark =>
              (sinkId, mark.hop)
          | none => []
      | none => []
    let toCallees := (g.outgoingOfKind functionId .calls).flatMap fun callee =>
      let calleeSummary := match g.node callee with
        | some (.function va) => summaries va
        | _ => none
      if calleeSummary.any summaryAcceptsTaint then functionMarks.map fun mark => (callee, mark.hop)
      else []
    toSinks ++ toCallees

def propagateRound (g : EvidenceGraph) (summaries : Nat → Option CallSummary) (m : TaintMap) :
    TaintMap × Bool :=
  (g.nodesOfKind .function).foldl (fun (m, changed) (functionId, payload) =>
    match payload with
    | .function va =>
      let (m, c) := m.addAll (passedMarks g summaries m functionId va)
      (m, changed || c)
    | _ => (m, changed)) (m, false)

def rounds (g : EvidenceGraph) (summaries : Nat → Option CallSummary) : Nat → TaintMap → TaintMap
  | 0, m => m
  | n + 1, m =>
    let (m, changed) := propagateRound g summaries m
    if changed then rounds g summaries n m else m

def propagateInterprocedural (g : EvidenceGraph) (summaries : Nat → Option CallSummary)
    (intra : TaintMap) : TaintMap :=
  rounds g summaries (max g.nodeCount 1) intra

def propagate (toLowercase : String → String) (g : EvidenceGraph) (catalog : List Source)
    (summaries : Nat → Option CallSummary) : TaintMap :=
  propagateInterprocedural g summaries (propagateIntraprocedural toLowercase g catalog)

end Axe.Vuln
