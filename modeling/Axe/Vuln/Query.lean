import Axe.Vuln.Taint
import Axe.Concolic.OperandParser

/-!
# Chain discovery

Every template is run against every pair of a source and a sink. The dominators of a
block graph come from a library, which is a parameter.
-/
namespace Axe.Vuln

open Concolic (trim toAsciiLowercase u64FromStrRadix)

/-- What the query uses of libraries: `str::to_lowercase`, and the immediate dominators of a
graph of so many nodes, with these edges, from a root. -/
structure Libraries where
  toLowercase : String → String
  simpleFast : Nat → List (Nat × Nat) → Nat → Nat → Option Nat

section Dominators

/-- The blocks of a function, whose places are the nodes of the tree. -/
structure DominatorTree where
  starts : List Nat
  immediateDominator : Nat → Option Nat

/-- A later block of the same start takes the place of an earlier one. -/
def nodeOfBlock (starts : List Nat) (va : Nat) : Option Nat :=
  (starts.zipIdx.reverse.find? (·.1 = va)).map Prod.snd

def DominatorTree.dominates (dom : DominatorTree) (a b : Nat) : Bool :=
  if a = b then a ∈ dom.starts
  else match nodeOfBlock dom.starts a, nodeOfBlock dom.starts b with
    | some a, some b => go dom.starts.length a (dom.immediateDominator b)
    | _, _ => false
where
  go : Nat → Nat → Option Nat → Bool
    | _, _, none => false
    | 0, _, _ => false
    | n + 1, a, some idom => if idom = a then true else go n a (dom.immediateDominator idom)

def blocksOfFunction (g : EvidenceGraph) (functionVa : Nat) : List (NodeId × Nat × Nat) :=
  (g.nodesOfKind .basicBlock).filterMap fun (id, payload) =>
    match payload with
    | .basicBlock fva start stop => if fva = functionVa then some (id, start, stop) else none
    | _ => none

/-- The starts of the blocks of the same function that follow a block. -/
def blockSuccessors (g : EvidenceGraph) (functionVa : Nat) (id : NodeId) : List Nat :=
  (g.outgoingOfKind id .controlFlow).filterMap fun other =>
    match g.node other with
    | some (.basicBlock fva start _) => if fva = functionVa then some start else none
    | _ => none

def dominatorsForFunction (libs : Libraries) (g : EvidenceGraph) (functionVa : Nat) :
    Option DominatorTree :=
  let blocks := blocksOfFunction g functionVa
  if blocks = [] then none
  else
    let starts := blocks.map fun b => b.2.1
    let edges := blocks.flatMap fun (id, start, _) =>
      (blockSuccessors g functionVa id).map fun other =>
        ((nodeOfBlock starts start).getD 0, (nodeOfBlock starts other).getD 0)
    (nodeOfBlock starts functionVa).map fun entry =>
      ⟨starts, libs.simpleFast starts.length edges entry⟩

def blockForSite (g : EvidenceGraph) (functionVa siteVa : Nat) : Option Nat :=
  let blocks := blocksOfFunction g functionVa
  match blocks.find? fun (_, start, stop) => start ≤ siteVa && siteVa < stop with
  | some (_, start, _) => some start
  | none => ((blocks.map fun b => b.2.1).filter (· ≤ siteVa)).max?

end Dominators

section Guards

/-- The blocks that branch. -/
def extractGuards (g : EvidenceGraph) (functionVa : Nat) : List Nat :=
  ((blocksOfFunction g functionVa).filter fun (id, _, _) =>
    1 < (blockSuccessors g functionVa id).length).map fun b => b.2.1

def countDominatingGuards (libs : Libraries) (g : EvidenceGraph) (functionVa sinkSiteVa : Nat) :
    Nat :=
  let guards := extractGuards g functionVa
  match dominatorsForFunction libs g functionVa with
  | none => 0
  | some dom =>
    match blockForSite g functionVa sinkSiteVa with
    | none => guards.length
    | some sinkBlockVa => guards.countP fun guard => dom.dominates guard sinkBlockVa

def guardRequirementSatisfied (req : GuardRequirement) (guardCount : Nat) : Bool :=
  match req with
  | .dontCare => true
  | .noDominatingGuard => guardCount == 0
  | .dominatingGuardPresent => 0 < guardCount

def callDominatesOrPrecedes (libs : Libraries) (g : EvidenceGraph) (functionVa before after : Nat) :
    Bool :=
  if after ≤ before then false
  else match blockForSite g functionVa before, blockForSite g functionVa after with
    | some beforeBlock, some afterBlock =>
      if beforeBlock = afterBlock then true
      else match dominatorsForFunction libs g functionVa with
        | some dom => dom.dominates beforeBlock afterBlock
        | none => false
    | _, _ => true

def containsAny (api : String) (needles : List String) : Bool :=
  needles.any (contains (String.ofList (toAsciiLowercase api.toList)))

def isPrivilegedActionApi (api : String) : Bool :=
  containsAny api ["writeprocessmemory", "createremotethread", "virtualprotect", "virtualallocex",
    "deviceiocontrol", "deletefile", "unlink", "rename", "createfile", "open", "fopen"]

def isFileOperationApi (api : String) : Bool :=
  containsAny api ["createfile", "fopen", "open", "rename", "unlink", "deletefile"]

def isLockAcquireApi (api : String) : Bool :=
  containsAny api ["entercriticalsection", "acquiresrwlock", "waitforsingleobject", "lockfile",
    "flock", "pthread_mutex_lock", "mutex_lock"]

def isPrintfFamily (api : String) : Bool := containsAny api ["printf", "vfprintf"]

/-- The sinks of the graph, with their sites. -/
def sinkSites (g : EvidenceGraph) : List (String × Nat) :=
  (g.nodesOfKind .sink).filterMap fun (_, payload) =>
    match payload with
    | .sink api siteVa => some (api, siteVa)
    | _ => none

def authAfterActionMatches (libs : Libraries) (g : EvidenceGraph)
    (functionVa accessCheckSiteVa : Nat) : Bool :=
  (sinkSites g).any fun (api, siteVa) =>
    siteVa ≠ accessCheckSiteVa && isPrivilegedActionApi api &&
      callDominatesOrPrecedes libs g functionVa siteVa accessCheckSiteVa

def hasDominatingLock (libs : Libraries) (g : EvidenceGraph) (functionVa siteVa : Nat) : Bool :=
  (g.nodesOfKind .callSite).any fun (_, payload) =>
    match payload with
    | .callSite lockSiteVa (some api) =>
      isLockAcquireApi api && lockSiteVa ≠ siteVa &&
        callDominatesOrPrecedes libs g functionVa lockSiteVa siteVa
    | _ => false

structure ApiArgFact where
  siteVa : Nat
  index : Option Nat
  value : List Char

def stripPrefix (pat : String) (s : List Char) : Option (List Char) := pat.toList.isPrefixOf? s

/-- The fields of a fact end at the first four bars; the value keeps any others. -/
def parseApiArgFact (key : String) : Option ApiArgFact :=
  match key.toList.splitOn '|' with
  | tag :: site :: index :: name :: value =>
    if tag ≠ "api_arg".toList ∨ value = [] then none
    else do
      let site ← stripPrefix "site=" site
      let index ← stripPrefix "index=" index
      let _ ← stripPrefix "name=" name
      let value ← stripPrefix "value=" (List.intercalate ['|'] value)
      let siteVa ← u64FromStrRadix site 16
      let index := if index = [] then none else (u64FromStrRadix index 10).map BitVec.toNat
      return ⟨siteVa.toNat, index, value⟩
  | _ => none

def trimMatches (c : Char) (s : List Char) : List Char :=
  ((s.dropWhile (· = c)).reverse.dropWhile (· = c)).reverse

def normalizeFactValue (value : List Char) : List Char :=
  toAsciiLowercase (trimMatches '\'' (trimMatches '"' (trim value)))

def argValuesForRole (libs : Libraries) (g : EvidenceGraph) (sinkCatalog : List Sink)
    (api : String) (siteVa : Nat) (role : ArgRole) : List (List Char) :=
  match lookupSink libs.toLowercase sinkCatalog api with
  | none => []
  | some sink =>
    let facts := (g.nodesOfKind .globalState).filterMap fun (_, payload) =>
      match payload with
      | .globalState key => parseApiArgFact key
      | _ => none
    (facts.filter fun fact => fact.siteVa = siteVa &&
      fact.index.any fun idx => sink.args[idx]? = some role).map ApiArgFact.value

def countBoundsMismatchGuards (libs : Libraries) (g : EvidenceGraph) (sinkCatalog : List Sink)
    (functionVa sinkSiteVa : Nat) (sinkApi : String) : Option Nat :=
  let byteCountValues := argValuesForRole libs g sinkCatalog sinkApi sinkSiteVa .byteCount
  if byteCountValues = [] then none
  else do
    let dom ← dominatorsForFunction libs g functionVa
    let sinkBlockVa ← blockForSite g functionVa sinkSiteVa
    return (g.nodesOfKind .boundsCheck).countP fun (_, payload) =>
      match payload with
      | .boundsCheck var va =>
        match blockForSite g functionVa va with
        | some checkBlockVa =>
          let checked := normalizeFactValue var.toList
          dom.dominates checkBlockVa sinkBlockVa && checked ≠ [] &&
            byteCountValues.all fun value => normalizeFactValue value ≠ checked
        | none => false
      | _ => false

def toctouMatches (libs : Libraries) (g : EvidenceGraph) (sinkCatalog : List Sink)
    (functionVa sinkSiteVa : Nat) (sinkApi : String) : Bool :=
  let pathValues := argValuesForRole libs g sinkCatalog sinkApi sinkSiteVa .path
  if pathValues = [] ∨ hasDominatingLock libs g functionVa sinkSiteVa then false
  else (sinkSites g).any fun (api, siteVa) =>
    siteVa ≠ sinkSiteVa && isFileOperationApi api && !hasDominatingLock libs g functionVa siteVa &&
      (let peerValues := argValuesForRole libs g sinkCatalog api siteVa .path
       pathValues.any fun left => normalizeFactValue left ≠ [] &&
         peerValues.any fun right => normalizeFactValue right = normalizeFactValue left)

end Guards

section Chains

structure CandidateChain where
  chainId : String
  templateId : String
  sourceKind : String
  sourceFunctionVa : Nat
  sourceSiteVa : Nat
  sinkApi : String
  sinkFunctionVa : Nat
  sinkSiteVa : Nat
  propagationMode : PropagationMode
  hopCount : Nat
  dominatingGuardCount : Nat
  matchedIntegerPattern : Bool
  deriving DecidableEq

/-- A call site or a sink that a template may start or end at. -/
structure Endpoint where
  node : NodeId
  name : String
  siteVa : Nat
  deriving DecidableEq

def sourceCallsites (libs : Libraries) (g : EvidenceGraph) (sourceCatalog : List Source)
    (template : BugClass) : List Endpoint :=
  (g.nodesOfKind .callSite).filterMap fun (id, payload) =>
    match payload with
    | .callSite va (some api) =>
      (matchApi libs.toLowercase sourceCatalog api).bind fun src =>
        if template.sourceKinds ≠ [] ∧ src.kind ∉ template.sourceKinds then none
        else some ⟨id, src.kind, va⟩
    | _ => none

def sinkCallsites (libs : Libraries) (g : EvidenceGraph) (sinkCatalog : List Sink)
    (template : BugClass) : List Endpoint :=
  (g.nodesOfKind .sink).filterMap fun (id, payload) =>
    match payload with
    | .sink api siteVa =>
      let canonicalApi := ((lookupSink libs.toLowercase sinkCatalog api).map Sink.api).getD api
      if canonicalApi ∈ template.sinkApis then some ⟨id, canonicalApi, siteVa⟩ else none
    | _ => none

/-- The function of a call site, or of the call site that feeds a sink. -/
def functionOfCallsite (g : EvidenceGraph) (n : NodeId) : Option Nat :=
  let functionVas := fun n => (g.incomingOfKind n .controlFlow).filterMap fun f =>
    match g.node f with
    | some (.function va) => some va
    | _ => none
  let callsites := (g.incomingOfKind n .dataFlow).filter fun c =>
    match g.node c with
    | some (.callSite _ _) => true
    | _ => false
  (functionVas n ++ callsites.flatMap functionVas).head?

def chainSatisfiesTaint (taint : TaintMap) (sinkId : NodeId) (requirement : SinkArgRequirement) :
    Bool :=
  match requirement with
  | .anyCall => true
  | .taintedArgRole _ => taint.isTainted sinkId
  | .destSizeKnownByteCountUnbounded => taint.isTainted sinkId
  | .precedingTaintedWrite => taint.isTainted sinkId

def sameFunctionFormatRecvToSink (templateId sourceKind sinkApi : String)
    (sourceFunctionVa sinkFunctionVa sourceSiteVa sinkSiteVa : Nat) : Bool :=
  templateId = "format_string_controlled" && sourceFunctionVa ≠ 0 &&
    sourceFunctionVa = sinkFunctionVa && sourceSiteVa < sinkSiteVa &&
    toAsciiLowercase sourceKind.toList = "network_recv".toList && isPrintfFamily sinkApi

def pathHasIntegerOp (g : EvidenceGraph) : Bool := g.nodesOfKind .integerOp ≠ []

def pathHasTypeCast (g : EvidenceGraph) : Bool := g.nodesOfKind .typeCast ≠ []

/-- The guards counted for a chain, unless the template rejects it. -/
def guardCount (libs : Libraries) (g : EvidenceGraph) (sinkCatalog : List Sink)
    (template : BugClass) (sinkFunctionVa : Nat) (sink : Endpoint) : Option Nat :=
  if template.id = "missing_bounds_check_var_mismatch" then
    (countBoundsMismatchGuards libs g sinkCatalog sinkFunctionVa sink.siteVa sink.name).filter
      (0 < ·)
  else if template.id = "auth_check_after_action" then
    if authAfterActionMatches libs g sinkFunctionVa sink.siteVa then some 1 else none
  else if template.id = "toctou_file_access" then
    if toctouMatches libs g sinkCatalog sinkFunctionVa sink.siteVa sink.name then some 1 else none
  else
    let count := countDominatingGuards libs g sinkFunctionVa sink.siteVa
    if guardRequirementSatisfied template.guardRequirement count then some count else none

def integerPatternMatches (g : EvidenceGraph) (requirement : IntegerPatternRequirement) : Bool :=
  match requirement with
  | .dontCare => true
  | .overflowPossible => pathHasIntegerOp g
  | .signedUnsignedCast => pathHasTypeCast g

/-- A chain as it is found, before it gets its number. -/
structure Candidate where
  template : BugClass
  source : Endpoint
  sink : Endpoint
  chain : CandidateChain
  deriving DecidableEq

/-- Whether the pair is let in without taint. -/
def admittedAsFormat (g : EvidenceGraph) (template : BugClass) (source sink : Endpoint) : Bool :=
  sameFunctionFormatRecvToSink template.id source.name sink.name
    ((functionOfCallsite g source.node).getD 0) ((functionOfCallsite g sink.node).getD 0)
    source.siteVa sink.siteVa

def candidate (libs : Libraries) (g : EvidenceGraph) (taint : TaintMap) (sinkCatalog : List Sink)
    (template : BugClass) (source sink : Endpoint) : Option Candidate :=
  let sourceFunctionVa := (functionOfCallsite g source.node).getD 0
  let sinkFunctionVa := (functionOfCallsite g sink.node).getD 0
  if !chainSatisfiesTaint taint sink.node template.sinkRequirement &&
      !admittedAsFormat g template source sink then none
  else
    (guardCount libs g sinkCatalog template sinkFunctionVa sink).bind fun guardCount =>
      if !integerPatternMatches g template.integerPattern then none
      else
        let (mode, hopCount) := match (taint sink.node).head? with
          | some mark => (mark.mode, mark.hopCount)
          | none => (.exact, 0)
        some ⟨template, source, sink, "", template.id, source.name, sourceFunctionVa,
          source.siteVa, sink.name, sinkFunctionVa, sink.siteVa, mode, hopCount, guardCount, true⟩

def candidates (libs : Libraries) (g : EvidenceGraph) (taint : TaintMap)
    (sourceCatalog : List Source) (sinkCatalog : List Sink) (templates : List BugClass) :
    List Candidate :=
  templates.flatMap fun template =>
    (sourceCallsites libs g sourceCatalog template).flatMap fun source =>
      (sinkCallsites libs g sinkCatalog template).filterMap fun sink =>
        candidate libs g taint sinkCatalog template source sink

/-- A number in at least six digits. -/
def chainId (counter : Nat) : String :=
  let digits := Nat.toDigits 10 counter
  String.ofList ("C-".toList ++ List.replicate (6 - digits.length) '0' ++ digits)

def Candidate.numbered (c : Candidate) (counter : Nat) : CandidateChain :=
  { c.chain with chainId := chainId counter }

def discoverChains (libs : Libraries) (g : EvidenceGraph) (taint : TaintMap)
    (sourceCatalog : List Source) (sinkCatalog : List Sink) (templates : List BugClass) :
    List CandidateChain :=
  (candidates libs g taint sourceCatalog sinkCatalog templates).mapIdx fun i c =>
    c.numbered (i + 1)

end Chains

end Axe.Vuln
