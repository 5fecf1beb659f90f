import Axe.Vuln.Query
import Axe.Vuln.TaintRuns

/-!
# Which chains are taint chains

The filters of the query look at the sink and at the graph, never at the pair. A chain
is one of its own source just when that source's taint is what the sink carries.
-/
namespace Axe.Vuln

section Definitions

/-- A node of a kind on a path from the source of a chain to its sink. -/
def OnPath (g : EvidenceGraph) (c : Candidate) (kind : NodeKind) : Prop :=
  ∃ n ∈ (g.nodesOfKind kind).map Prod.fst, g.Path c.source.node n ∧ g.Path n c.sink.node

/-- The node that the integer pattern of the template asks for is on such a path. -/
def PatternOnPath (g : EvidenceGraph) (c : Candidate) : Prop :=
  match c.template.integerPattern with
  | .dontCare => True
  | .overflowPossible => OnPath g c .integerOp
  | .signedUnsignedCast => OnPath g c .typeCast

/-- The sink carries a mark of the chain's own source with the mode and the hop count of the
chain. -/
def IsTaintChain (g : EvidenceGraph) (taint : TaintMap) (c : Candidate) (chain : CandidateChain) :
    Prop :=
  (∃ mark ∈ taint c.sink.node, mark.sourceNode = c.source.node ∧
    mark.mode = chain.propagationMode ∧ mark.hopCount = chain.hopCount) ∧ PatternOnPath g c

/-- The source flows to the sink; or no source does, and the source's summary mark has as many
hops as the first mark of the sink. -/
def OwnTaint (libs : Libraries) (g : EvidenceGraph) (sourceCatalog : List Source)
    (taint : TaintMap) (c : Candidate) : Prop :=
  g.FlowsTo c.source.node c.sink.node ∨
    (∀ s ∈ (discoverSourceNodes libs.toLowercase g sourceCatalog).map Prod.fst,
      ¬g.FlowsTo s c.sink.node) ∧
    ∃ first ∈ (taint c.sink.node).head?, ∃ mark ∈ taint c.sink.node,
      mark.sourceNode = c.source.node ∧ mark.hopCount = first.hopCount

end Definitions

section Candidates
variable {libs : Libraries} {g : EvidenceGraph} {taint : TaintMap} {sourceCatalog : List Source}
variable {sinkCatalog : List Sink} {templates : List BugClass} {c : Candidate}

theorem sourceCallsites_mem {template : BugClass} {source : Endpoint}
    (h : source ∈ sourceCallsites libs g sourceCatalog template) :
    source.node ∈ (discoverSourceNodes libs.toLowercase g sourceCatalog).map Prod.fst := by
  obtain ⟨⟨id, payload⟩, hnode, hsource⟩ := List.mem_filterMap.mp h
  dsimp only at hsource
  split at hsource
  · rename_i va api
    obtain ⟨src, hmatch, hsome⟩ := Option.bind_eq_some_iff.mp hsource
    obtain ⟨-, hsome⟩ := Option.ite_none_left_eq_some.mp hsome
    cases hsome
    exact List.mem_map.mpr ⟨(id, src.kind), List.mem_filterMap.mpr
      ⟨_, hnode, by dsimp only; rw [hmatch]; rfl⟩, rfl⟩
  · cases hsource

/-- What the query has checked of a candidate, and what it writes into its chain. -/
structure Candidate.Found (libs : Libraries) (g : EvidenceGraph) (taint : TaintMap)
    (sourceCatalog : List Source) (c : Candidate) : Prop where
  source : c.source.node ∈ (discoverSourceNodes libs.toLowercase g sourceCatalog).map Prod.fst
  admitted : chainSatisfiesTaint taint c.sink.node c.template.sinkRequirement = true ∨
    admittedAsFormat g c.template c.source c.sink = true
  mark : ∀ first ∈ (taint c.sink.node).head?,
    c.chain.propagationMode = first.mode ∧ c.chain.hopCount = first.hopCount

theorem found_of_mem
    (h : c ∈ candidates libs g taint sourceCatalog sinkCatalog templates) :
    c.Found libs g taint sourceCatalog := by
  obtain ⟨template, -, h⟩ := List.mem_flatMap.mp h
  obtain ⟨source, hsource, h⟩ := List.mem_flatMap.mp h
  obtain ⟨sink, -, h⟩ := List.mem_filterMap.mp h
  rw [candidate] at h
  dsimp only at h
  obtain ⟨htaint, h⟩ := Option.ite_none_left_eq_some.mp h
  obtain ⟨count, -, h⟩ := Option.bind_eq_some_iff.mp h
  obtain ⟨-, h⟩ := Option.ite_none_left_eq_some.mp h
  cases h
  refine ⟨sourceCallsites_mem hsource, ?_, ?_⟩
  · simpa [or_iff_not_imp_left] using htaint
  · intro first hfirst
    simp only [Option.mem_def] at hfirst
    simp only [hfirst, and_self]

theorem getElem?_discoverChains {i : Nat} {chain : CandidateChain}
    (h : (discoverChains libs g taint sourceCatalog sinkCatalog templates)[i]? = some chain) :
    ∃ c, (candidates libs g taint sourceCatalog sinkCatalog templates)[i]? = some c ∧
      chain = c.numbered (i + 1) := by
  rw [discoverChains, List.getElem?_mapIdx, Option.map_eq_some_iff] at h
  obtain ⟨c, hc, rfl⟩ := h
  exact ⟨c, hc, rfl⟩

/-- A requirement other than any call asks for a tainted sink. -/
theorem chainSatisfiesTaint_eq {sink : NodeId} {requirement : SinkArgRequirement}
    (h : requirement ≠ .anyCall) :
    chainSatisfiesTaint taint sink requirement = taint.isTainted sink := by
  cases requirement with
  | anyCall => exact absurd rfl h
  | _ => rfl

/-- The mark that a taint chain needs is there just when the taint is the source's own. -/
theorem own_mark_iff {summaries : Nat → Option CallSummary}
    (hfound : c.Found libs g (propagate libs.toLowercase g sourceCatalog summaries) sourceCatalog)
    (htainted : (propagate libs.toLowercase g sourceCatalog summaries).isTainted c.sink.node) :
    (∃ mark ∈ propagate libs.toLowercase g sourceCatalog summaries c.sink.node,
      mark.sourceNode = c.source.node ∧ mark.mode = c.chain.propagationMode ∧
        mark.hopCount = c.chain.hopCount) ↔
      OwnTaint libs g sourceCatalog (propagate libs.toLowercase g sourceCatalog summaries) c := by
  obtain ⟨rest, hmarks, hrest⟩ :=
    propagate_extends libs.toLowercase g sourceCatalog summaries c.sink.node
  have horigins := intraprocedural_origins libs.toLowercase g sourceCatalog c.sink.node
  have hexact := intraprocedural_exact libs.toLowercase g sourceCatalog c.sink.node
  have hmark := hfound.mark
  rw [TaintMap.isTainted, hmarks] at htainted
  rw [OwnTaint, hmarks]
  rw [hmarks] at hmark
  cases hintra : propagateIntraprocedural libs.toLowercase g sourceCatalog c.sink.node with
  | nil =>
    -- Nothing flows to the sink: all its marks are summary marks.
    rw [hintra] at htainted hmark horigins
    rw [List.nil_append] at htainted hmark ⊢
    have hnone : ∀ s ∈ (discoverSourceNodes libs.toLowercase g sourceCatalog).map Prod.fst,
        ¬g.FlowsTo s c.sink.node := by
      intro s hs hflows
      obtain ⟨x, hx, -⟩ := (horigins s).mpr ⟨hs, hflows⟩
      exact absurd hx List.not_mem_nil
    cases rest with
    | nil => cases htainted
    | cons first tail =>
      obtain ⟨hmode, hhops⟩ := hmark first rfl
      constructor
      · rintro ⟨mark, hmem, hsource, -, hcount⟩
        exact .inr ⟨hnone, first, rfl, mark, hmem, hsource, hcount.trans hhops⟩
      · rintro (hflows | ⟨-, first', hfirst, mark, hmem, hsource, hcount⟩)
        · exact absurd hflows (hnone _ hfound.source)
        · cases hfirst
          refine ⟨mark, hmem, hsource, ?_, hcount.trans hhops.symm⟩
          rw [hmode, hrest mark hmem, hrest first List.mem_cons_self]
  | cons first tail =>
    -- The first mark is exact, so only an exact mark has its mode.
    rw [hintra] at hmark horigins hexact
    obtain ⟨hmode, hhops⟩ := hmark first rfl
    obtain ⟨hfirstMode, hfirstHops⟩ := hexact first List.mem_cons_self
    constructor
    · rintro ⟨mark, hmem, hsource, hm, -⟩
      rcases List.mem_append.mp hmem with hmem | hmem
      · exact .inl ((horigins c.source.node).mp ⟨mark, hmem, hsource⟩).2
      · rw [hrest mark hmem, hmode, hfirstMode] at hm
        cases hm
    · rintro (hflows | ⟨hnone, -⟩)
      · obtain ⟨mark, hmem, hsource⟩ := (horigins c.source.node).mpr ⟨hfound.source, hflows⟩
        obtain ⟨hm, hh⟩ := hexact mark hmem
        exact ⟨mark, List.mem_append_left _ hmem, hsource, by rw [hm, hmode, hfirstMode],
          by rw [hh, hhops, hfirstHops]⟩
      · obtain ⟨hsource, hflows⟩ := (horigins first.sourceNode).mp ⟨first, List.mem_cons_self, rfl⟩
        exact absurd hflows (hnone _ hsource)

end Candidates

/-- A chain that rests on taint is a chain of its own source just when the taint of the sink
is that source's own and the node its template asks for is on a path between them. -/
theorem chain_is_taint_chain_iff (libs : Libraries) (g : EvidenceGraph)
    (sourceCatalog : List Source) (sinkCatalog : List Sink) (templates : List BugClass)
    (summaries : Nat → Option CallSummary) (i : Nat) (chain : CandidateChain)
    (hchain : (discoverChains libs g (propagate libs.toLowercase g sourceCatalog summaries)
      sourceCatalog sinkCatalog templates)[i]? = some chain) :
    ∃ c, (candidates libs g (propagate libs.toLowercase g sourceCatalog summaries)
        sourceCatalog sinkCatalog templates)[i]? = some c ∧
      chain = c.numbered (i + 1) ∧
      (c.template.sinkRequirement ≠ .anyCall →
        admittedAsFormat g c.template c.source c.sink = false →
        (IsTaintChain g (propagate libs.toLowercase g sourceCatalog summaries) c chain ↔
          OwnTaint libs g sourceCatalog (propagate libs.toLowercase g sourceCatalog summaries) c ∧
            PatternOnPath g c)) := by
  obtain ⟨c, hc, rfl⟩ := getElem?_discoverChains hchain
  refine ⟨c, hc, rfl, fun hrequirement hformat => and_congr_left fun _ => ?_⟩
  have hfound := found_of_mem (List.mem_of_getElem? hc)
  have htainted := hfound.admitted.resolve_right (by rw [hformat]; exact Bool.false_ne_true)
  rw [chainSatisfiesTaint_eq hrequirement] at htainted
  exact own_mark_iff hfound htainted

section Examples

/-- A function that receives and reads, and copies what it received. -/
def copyOfReceived : EvidenceGraph :=
  ⟨[.function 0x1000, .callSite 0x1100 (some "recv"), .sink "recv" 0x1100,
      .callSite 0x1180 (some "ReadFile"), .sink "ReadFile" 0x1180,
      .callSite 0x1200 (some "memcpy"), .sink "memcpy" 0x1200],
    [⟨0, 1, .controlFlow⟩, ⟨1, 2, .dataFlow⟩, ⟨0, 3, .controlFlow⟩, ⟨3, 4, .dataFlow⟩,
      ⟨0, 5, .controlFlow⟩, ⟨5, 6, .dataFlow⟩, ⟨1, 5, .dataFlow⟩]⟩

def exampleLibraries : Libraries :=
  ⟨fun s => String.ofList (Concolic.toAsciiLowercase s.toList), fun _ _ _ _ => none⟩

def exampleSources : List Source :=
  [⟨"network_recv", .remoteUnauth, ["recv", "recvfrom", "WSARecv", "WSARecvFrom"]⟩,
    ⟨"file_read", .localUnprivileged, ["ReadFile", "fread", "fgets", "ReadFileEx", "_read"]⟩]

def exampleSinks : List Sink := [⟨"memcpy", [.destination, .source, .byteCount]⟩]

def uncheckedCopyLength : BugClass :=
  ⟨"unchecked_copy_length", [], ["memcpy", "memmove", "strncpy", "RtlCopyMemory"],
    .destSizeKnownByteCountUnbounded, .noDominatingGuard, .dontCare⟩

def exampleTaint : TaintMap :=
  propagate exampleLibraries.toLowercase copyOfReceived exampleSources fun _ => none

/-- The chain of a source and the copy. -/
def copyChain (source : Endpoint) : Candidate :=
  ⟨uncheckedCopyLength, source, ⟨6, "memcpy", 0x1200⟩, "", "unchecked_copy_length", source.name,
    0x1000, source.siteVa, "memcpy", 0x1000, 0x1200, .exact, 0, 0, true⟩

/-- The read, which flows nowhere, gets a chain to the copy as well. -/
theorem readFile_chain_untainted :
    (discoverChains exampleLibraries copyOfReceived exampleTaint exampleSources exampleSinks
        [uncheckedCopyLength])[1]? = some ((copyChain ⟨3, "file_read", 0x1180⟩).numbered 2) ∧
      admittedAsFormat copyOfReceived uncheckedCopyLength ⟨3, "file_read", 0x1180⟩
        ⟨6, "memcpy", 0x1200⟩ = false ∧
      ¬IsTaintChain copyOfReceived exampleTaint (copyChain ⟨3, "file_read", 0x1180⟩)
        ((copyChain ⟨3, "file_read", 0x1180⟩).numbered 2) := by
  refine ⟨by decide +kernel, by decide +kernel, ?_⟩
  rintro ⟨⟨mark, hmark, hsource, -⟩, -⟩
  have hmarks : exampleTaint 6 = [⟨1, "network_recv", .exact, 0⟩] := by decide +kernel
  rw [show (copyChain ⟨3, "file_read", 0x1180⟩).sink.node = 6 from rfl, hmarks,
    List.mem_singleton] at hmark
  rw [hmark] at hsource
  cases hsource

theorem recv_chain_is_taint_chain :
    IsTaintChain copyOfReceived exampleTaint (copyChain ⟨1, "network_recv", 0x1100⟩)
      ((copyChain ⟨1, "network_recv", 0x1100⟩).numbered 1) := by
  obtain ⟨c, hc, -, hiff⟩ := chain_is_taint_chain_iff exampleLibraries copyOfReceived
    exampleSources exampleSinks [uncheckedCopyLength] (fun _ => none) 0
    ((copyChain ⟨1, "network_recv", 0x1100⟩).numbered 1) (by decide +kernel)
  have hfirst : (candidates exampleLibraries copyOfReceived exampleTaint exampleSources
      exampleSinks [uncheckedCopyLength])[0]? =
        some (copyChain ⟨1, "network_recv", 0x1100⟩) := by decide +kernel
  cases hc.symm.trans hfirst
  have hflows : copyOfReceived.FlowsTo 1 6 :=
    .tail (.single (show (1, 5) ∈ copyOfReceived.edgesOfKind .dataFlow by decide))
      (show (5, 6) ∈ copyOfReceived.edgesOfKind .dataFlow by decide)
  exact (hiff (by decide) (by decide +kernel)).mpr ⟨.inl hflows, trivial⟩

end Examples

end Axe.Vuln
