import Mathlib.Data.Finset.Card
import Mathlib.Data.Finset.Dedup
import Mathlib.Order.WithBot
import Axe.Lib.BestFirst
import Axe.Static.ImportCalls

/-!
# The targets of the second pass

Five sources propose candidates. Of the candidates with one function, reason and site the first
stays, the rest is ranked by falling priority, and a budget cuts the list. Since the first
candidate stays before the ranking, a key is ranked by its highest priority in every order of the
inputs only where the candidates of the first source that proposes it agree and have that
priority.
-/
namespace Axe.Static.SecondPass

open Axe.Static.ImportCalls (Xref)

structure ApiFlowRecord where
  function : Nat
  callsite : Nat
  normalizedApi : String
  semanticRelevance : String
  apiCategories : List String
  argument : String
  evidence : List Nat
  deriving DecidableEq

structure FunctionDossierRecord where
  function : Nat
  score : Int
  confidence : String
  deriving DecidableEq

structure ObfuscationHintRecord where
  function : Nat
  candidateKind : String
  evidence : List Nat
  uncertaintyReason : String
  deriving DecidableEq

structure StructuredFlowRecord where
  function : Nat
  switchCandidates : List Nat
  deriving DecidableEq

/-- The inputs, with the parts of the slices inside the code. Of functions the start is kept, of
recovered strings the function and of resolved calls the call site. -/
structure SecondPassInput where
  policy : String
  budgetName : String
  functions : List Nat
  slices : List FunctionSemanticSlice
  ir : List LiftedInstruction
  xrefs : List Xref
  apiFlows : List ApiFlowRecord
  functionDossiers : List FunctionDossierRecord
  obfuscationHints : List ObfuscationHintRecord
  recoveredStrings : List Nat
  resolvedCalls : List Nat
  structuredFlow : List StructuredFlowRecord
  inside : ∀ slice ∈ slices, slice.irRange.1 ≤ slice.irRange.2 ∧ slice.irRange.2 ≤ ir.length

structure Candidate where
  function : Nat
  reason : String
  priorityScore : Int
  pass1Uncertainty : String
  evidence : List Nat
  siteVa : Option Nat
  uncertaintyReason : Option String
  deriving DecidableEq

structure SecondPassTargetRecord where
  targetId : String
  function : Nat
  reason : String
  priorityScore : Int
  pass1Uncertainty : String
  resultStatus : String
  evidence : List Nat
  deriving DecidableEq

structure UncertaintyRecord where
  uncertaintyId : String
  function : Nat
  siteVa : Option Nat
  reason : String
  details : String
  tried : List String
  recommendedAction : String
  severityHint : String
  evidence : List Nat
  deriving DecidableEq

structure SecondPassSummaryRecord where
  status : String
  eligibleFunctions : Nat
  analyzedFunctions : Nat
  skippedByBudget : Nat
  reasonCounts : OrderedMap String Nat
  capsHit : Bool
  deriving DecidableEq

structure SecondPassResult where
  summary : SecondPassSummaryRecord
  targets : List SecondPassTargetRecord
  uncertainties : List UncertaintyRecord

variable (input : SecondPassInput)

def allFunctionCandidates (functions : List Nat) : List Candidate :=
  functions.map fun start => {
    function := start
    reason := "policy_all"
    priorityScore := 1
    pass1Uncertainty := "second-pass all policy requested"
    evidence := [start]
    siteVa := none
    uncertaintyReason := none }

/-- The instructions of the slices, each with the function of its slice. -/
def located (input : SecondPassInput) : List (Nat × LiftedInstruction) :=
  input.slices.flatMap fun slice =>
    (slice.part input.ir).map fun ins => (slice.functionStart, ins)

def indirectCandidate (function : Nat) (ins : LiftedInstruction) : Candidate :=
  let reason := if ins.isCall then "unresolved_indirect_call" else "unresolved_indirect_jump"
  { function := function
    reason := reason
    priorityScore := if ins.isCall then 100 else 90
    pass1Uncertainty := reason ++ " at 0x" ++ upperHex 16 ins.address ++
      " still lacks a static target after pass 1"
    evidence := [ins.address]
    siteVa := some ins.address
    uncertaintyReason :=
      some (if ins.isCall then "indirect_call_unresolved" else "indirect_jump_unresolved") }

def unresolvedIndirectCandidates : List Candidate :=
  let importCallSites := (input.xrefs.filter fun xref =>
    xref.kind = "import" ∧ xref.role = "call").map Xref.fromVa
  (located input).filterMap fun row =>
    let ins := row.2
    if ¬(ins.isCall = true ∨ ins.isJump = true) ∨ ins.directTarget.isSome then none
    else if ins.address ∈ importCallSites ∨ ins.address ∈ input.resolvedCalls then none
    else some (indirectCandidate row.1 ins)

def hintCandidate (hint : ObfuscationHintRecord) : Candidate where
  function := hint.function
  reason := hint.candidateKind
  priorityScore := if hint.candidateKind = "api_hash_candidate" then 95 else 55
  pass1Uncertainty := hint.uncertaintyReason
  evidence := hint.evidence
  siteVa := hint.evidence.head?
  uncertaintyReason := some (
    if hint.candidateKind = "api_hash_candidate" then "api_hash_unresolved"
    else if hint.candidateKind = "encoded_blob_hint" then "packed_or_encoded_blob"
    else "obfuscation_candidate_unresolved")

def obfuscationCandidates : List Candidate := input.obfuscationHints.map hintCandidate

def malwareCategories : List String :=
  ["process", "registry", "network", "crypto", "anti_debug", "service", "memory", "module"]

def flowCandidate (flow : ApiFlowRecord) : Candidate where
  function := flow.function
  reason := "malware_relevant_api_flow"
  priorityScore :=
    if flow.semanticRelevance = "high" then 85
    else if flow.semanticRelevance = "medium" then 70
    else 45
  pass1Uncertainty := flow.argument ++ " flow into " ++ flow.normalizedApi ++
    " needs second-pass corroboration"
  evidence := flow.evidence
  siteVa := some flow.callsite
  uncertaintyReason := none

def behaviorFlowCandidates : List Candidate :=
  input.apiFlows.filterMap fun flow =>
    if flow.apiCategories.any (malwareCategories.contains ·) then some (flowCandidate flow)
    else none

def lowConfidenceHighValueCandidates : List Candidate :=
  input.functionDossiers.filterMap fun row =>
    if row.confidence = "low" ∧ 50 ≤ row.score then
      some {
        function := row.function
        reason := "high_priority_low_confidence"
        priorityScore := row.score
        pass1Uncertainty :=
          "function dossier ranked high but boundary/semantic confidence is low"
        evidence := [row.function]
        siteVa := none
        uncertaintyReason := none }
    else none

def classDispatchCandidates : List Candidate :=
  input.structuredFlow.filterMap fun row =>
    if row.switchCandidates = [] then none
    else
      some {
        function := row.function
        reason := "unclear_dispatch_structure"
        priorityScore := if row.function ∈ input.recoveredStrings then 75 else 60
        pass1Uncertainty :=
          "structured flow contains switch/dispatch candidates requiring refinement"
        evidence := row.switchCandidates
        siteVa := row.switchCandidates.head?
        uncertaintyReason := none }

/-- Function, reason and site, in the order in which they break ties. -/
abbrev Key := Nat ×ₗ String ×ₗ WithBot Nat

def Candidate.key (row : Candidate) : Key :=
  toLex (row.function, toLex (row.reason, (row.siteVa : WithBot Nat)))

def sources : List (List Candidate) :=
  [unresolvedIndirectCandidates input, obfuscationCandidates input, behaviorFlowCandidates input,
    lowConfidenceHighValueCandidates input, classDispatchCandidates input]

def dedupeCandidates (rows : List Candidate) : List Candidate := BestFirst.firsts Candidate.key rows

def autoCandidates : List Candidate := dedupeCandidates (sources input).flatten

def candidates : List Candidate :=
  sortBy (BestFirst.rank Candidate.priorityScore Candidate.key)
    (if input.policy = "all" then allFunctionCandidates input.functions else autoCandidates input)

def secondPassTargetCap (budgetName : String) : Nat :=
  if budgetName = "max" then 2 ^ 64 - 1 else if budgetName = "high" then 2048 else 512

def selected : List Candidate := (candidates input).take (secondPassTargetCap input.budgetName)

def triedForReason (reason : String) : List String :=
  if reason = "unresolved_indirect_call" ∨ reason = "unresolved_indirect_jump" then
    ["pass1_cfg", "wrapper_collapse", "bounded_static_resolution"]
  else if reason = "api_hash_candidate" then
    ["hash_pattern_scan", "import_resolution_context", "static_hash_lookup_pending"]
  else ["pass1_static_evidence"]

def severityForReason (reason : String) : String :=
  if reason = "unresolved_indirect_call" ∨ reason = "api_hash_candidate" then "high"
  else if reason = "unresolved_indirect_jump" ∨ reason = "malware_relevant_api_flow" then "medium"
  else "low"

def target (index : Nat) (candidate : Candidate) : SecondPassTargetRecord where
  targetId := "second-pass:" ++ upperHex 16 candidate.function ++ ":" ++ candidate.reason ++ ":" ++
    upperHex 4 index
  function := candidate.function
  reason := candidate.reason
  priorityScore := candidate.priorityScore
  pass1Uncertainty := candidate.pass1Uncertainty
  resultStatus := "analyzed"
  evidence := candidate.evidence

def uncertainty (index : Nat) (row : Candidate × String) : UncertaintyRecord where
  uncertaintyId := "uncertainty:" ++ upperHex 16 row.1.function ++ ":" ++ row.2 ++ ":" ++
    upperHex 4 index
  function := row.1.function
  siteVa := row.1.siteVa
  reason := row.2
  details := row.1.pass1Uncertainty
  tried := triedForReason row.1.reason
  recommendedAction := "manual review"
  severityHint := severityForReason row.1.reason
  evidence := row.1.evidence

/-- The number of functions that some rows are about. -/
def functionCount (functions : List Nat) : Nat := functions.toFinset.card

def disabled : SecondPassResult where
  summary := {
    status := "disabled"
    eligibleFunctions := 0
    analyzedFunctions := 0
    skippedByBudget := 0
    reasonCounts := .empty
    capsHit := false }
  targets := []
  uncertainties := []

def runSecondPass : SecondPassResult :=
  if input.policy = "off" then disabled
  else
    let rows := selected input
    let capsHit := decide (secondPassTargetCap input.budgetName < (candidates input).length)
    let targets := rows.mapIdx target
    let eligible := functionCount ((candidates input).map Candidate.function)
    let analyzed := functionCount (targets.map SecondPassTargetRecord.function)
    { summary := {
        status := if capsHit then "completed_with_caps" else "completed"
        eligibleFunctions := eligible
        analyzedFunctions := analyzed
        skippedByBudget := if capsHit then eligible - analyzed else 0
        reasonCounts := rows.foldl
          (fun counts row => counts.upsert row.reason fun n => n.getD 0 + 1) .empty
        capsHit := capsHit }
      targets := targets
      uncertainties := (rows.filterMap fun row =>
        row.uncertaintyReason.map fun reason => (row, reason)).mapIdx uncertainty }

/-- The same inputs with their lists in other orders. The code and its slices may stand in any
order that leaves each function its instructions. -/
structure Permuted (input input' : SecondPassInput) : Prop where
  policy : input'.policy = input.policy
  budgetName : input'.budgetName = input.budgetName
  functions : input.functions.Perm input'.functions
  located : (located input).Perm (located input')
  xrefs : input.xrefs.Perm input'.xrefs
  apiFlows : input.apiFlows.Perm input'.apiFlows
  functionDossiers : input.functionDossiers.Perm input'.functionDossiers
  obfuscationHints : input.obfuscationHints.Perm input'.obfuscationHints
  recoveredStrings : input.recoveredStrings.Perm input'.recoveredStrings
  resolvedCalls : input.resolvedCalls.Perm input'.resolvedCalls
  structuredFlow : input.structuredFlow.Perm input'.structuredFlow

def SecondPassTargetRecord.withoutId (row : SecondPassTargetRecord) : SecondPassTargetRecord :=
  { row with targetId := "" }

def targetsWithoutIds (input : SecondPassInput) : List SecondPassTargetRecord :=
  (runSecondPass input).targets.map SecondPassTargetRecord.withoutId

/-- What an order of the inputs gives: the targets of every other order, the best keys by their
highest priorities, no key twice, and counts that add up. -/
structure BestTargets (input input' : SecondPassInput) : Prop where
  same : targetsWithoutIds input' = targetsWithoutIds input
  best : ∃ ranked, BestFirst.Ranks Candidate.priorityScore Candidate.key (sources input').flatten
    ranked ∧ (selected input').map (BestFirst.rank Candidate.priorityScore Candidate.key) =
      ranked.take (secondPassTargetCap input'.budgetName)
  distinct : ((selected input').map Candidate.key).Nodup
  counts : (runSecondPass input').summary.eligibleFunctions =
    (runSecondPass input').summary.analyzedFunctions +
      (runSecondPass input').summary.skippedByBudget

/-- What a target keeps of a candidate. -/
def view (row : Candidate) : SecondPassTargetRecord where
  targetId := ""
  function := row.function
  reason := row.reason
  priorityScore := row.priorityScore
  pass1Uncertainty := row.pass1Uncertainty
  resultStatus := "analyzed"
  evidence := row.evidence

/-- For each of the best keys the candidates of the first source that proposes it agree, and have
the highest priority of the key. -/
def Agree (input : SecondPassInput) : Prop :=
  BestFirst.Agree Candidate.priorityScore Candidate.key view
    (secondPassTargetCap input.budgetName) (sources input)

section
variable {input input' : SecondPassInput} {row : Candidate}

theorem key_eq_iff {row row' : Candidate} : row.key = row'.key ↔
    row.function = row'.function ∧ row.reason = row'.reason ∧ row.siteVa = row'.siteVa := by
  constructor
  · intro h
    exact ⟨congrArg (fun k => (ofLex k).1) h, congrArg (fun k => (ofLex (ofLex k).2).1) h,
      congrArg (fun k => (ofLex (ofLex k).2).2) h⟩
  · rintro ⟨hfunction, hreason, hsite⟩
    rw [Candidate.key, Candidate.key, hfunction, hreason, hsite]

/-- What does not depend on the index. -/
theorem map_mapIdx {α β γ : Type} {f : Nat → α → β} {g : β → γ} {e : α → γ} {l : List α}
    (h : ∀ i a, g (f i a) = e a) : (l.mapIdx f).map g = l.map e := by
  refine List.ext_getElem? fun i => ?_
  rw [List.getElem?_map, List.getElem?_mapIdx, List.getElem?_map, Option.map_map]
  exact congrArg (fun e => Option.map e l[i]?) (funext (h i))

theorem targets_eq (h : input.policy = "auto") :
    targetsWithoutIds input = (selected input).map view := by
  have hoff : ¬ input.policy = "off" := by
    rw [h]
    decide
  rw [targetsWithoutIds, runSecondPass, if_neg hoff]
  have hview : ∀ i row, (target i row).withoutId = view row := fun i row => rfl
  dsimp only
  exact map_mapIdx hview

theorem selected_eq (h : input.policy = "auto") :
    selected input = BestFirst.select Candidate.priorityScore Candidate.key
      (secondPassTargetCap input.budgetName) (sources input).flatten := by
  have hall : ¬ input.policy = "all" := by
    rw [h]
    decide
  rw [selected, candidates, if_neg hall]
  rfl

/-- The counts add up under every policy. -/
theorem counts_add (input : SecondPassInput) :
    (runSecondPass input).summary.eligibleFunctions =
      (runSecondPass input).summary.analyzedFunctions +
        (runSecondPass input).summary.skippedByBudget := by
  rw [runSecondPass]
  split
  · rfl
  · have hfunctions : ((selected input).mapIdx target).map SecondPassTargetRecord.function =
        (selected input).map Candidate.function := map_mapIdx fun _ _ => rfl
    dsimp only
    rw [hfunctions]
    by_cases hcap : secondPassTargetCap input.budgetName < (candidates input).length
    · have hle : functionCount ((selected input).map Candidate.function) ≤
          functionCount ((candidates input).map Candidate.function) := by
        refine Finset.card_le_card fun function hmem => ?_
        rw [List.mem_toFinset] at hmem ⊢
        exact ((List.take_sublist _ _).map _).subset hmem
      rw [if_pos (decide_eq_true hcap)]
      omega
    · have hall : selected input = candidates input := List.take_of_length_le (by omega)
      rw [if_neg (by simpa using hcap), hall, Nat.add_zero]

theorem nodup_keys_selected (h : input.policy = "auto") :
    ((selected input).map Candidate.key).Nodup := by
  rw [selected_eq h, BestFirst.select, List.map_take]
  have hperm : (sortBy (BestFirst.rank Candidate.priorityScore Candidate.key)
      (BestFirst.firsts Candidate.key (sources input).flatten)).Perm _ := List.mergeSort_perm _ _
  exact ((hperm.map Candidate.key).nodup_iff.mpr BestFirst.nodup_firstsFrom).sublist
    (List.take_sublist _ _)

/-- The sources have the same candidates, each in its own order. -/
theorem Permuted.sources (h : Permuted input input') :
    List.Forall₂ List.Perm (sources input) (sources input') := by
  have hindirect : (unresolvedIndirectCandidates input).Perm
      (unresolvedIndirectCandidates input') := by
    have hsites : ∀ address, address ∈ (input.xrefs.filter fun xref =>
        xref.kind = "import" ∧ xref.role = "call").map Xref.fromVa ↔
          address ∈ (input'.xrefs.filter fun xref =>
            xref.kind = "import" ∧ xref.role = "call").map Xref.fromVa := fun address =>
      ((h.xrefs.filter _).map _).mem_iff
    have hcalls : ∀ address, address ∈ input.resolvedCalls ↔ address ∈ input'.resolvedCalls :=
      fun address => h.resolvedCalls.mem_iff
    refine (h.located.filterMap _).trans (List.Perm.of_eq ?_)
    refine List.filterMap_congr fun row _ => ?_
    simp only [hsites, hcalls]
  have hdispatch : (classDispatchCandidates input).Perm (classDispatchCandidates input') := by
    refine (h.structuredFlow.filterMap _).trans (List.Perm.of_eq ?_)
    refine List.filterMap_congr fun row _ => ?_
    simp only [h.recoveredStrings.mem_iff]
  exact .cons hindirect (.cons (h.obfuscationHints.map _) (.cons (h.apiFlows.filterMap _)
    (.cons (h.functionDossiers.filterMap _) (.cons hdispatch .nil))))

theorem permuted_refl (input : SecondPassInput) : Permuted input input :=
  ⟨rfl, rfl, .refl _, .refl _, .refl _, .refl _, .refl _, .refl _, .refl _, .refl _, .refl _⟩

/-- What some row of a list gives can be what its first row gives. -/
theorem exists_front {α β : Type} {g : α → Option β} {l : List α} {b : β}
    (hb : b ∈ l.filterMap g) : ∃ l', l.Perm l' ∧ ∃ rest, l'.filterMap g = b :: rest := by
  obtain ⟨a, ha, hg⟩ := List.mem_filterMap.mp hb
  obtain ⟨before, after, rfl⟩ := List.append_of_mem ha
  exact ⟨a :: (before ++ after), List.perm_middle, _, List.filterMap_cons_some hg⟩

/-- Two unresolved sites with one key give one candidate. -/
theorem indirect_eq_of_key {function function' : Nat} {ins ins' : LiftedInstruction}
    (h : (indirectCandidate function ins).key = (indirectCandidate function' ins').key) :
    indirectCandidate function ins = indirectCandidate function' ins' := by
  obtain ⟨hfunction, hreason, hsite⟩ := key_eq_iff.mp h
  have haddress : ins.address = ins'.address := Option.some.inj hsite
  have hcall : ins.isCall = ins'.isCall := by
    have hne : "unresolved_indirect_call" ≠ "unresolved_indirect_jump" := by decide
    rw [indirectCandidate, indirectCandidate] at hreason
    cases hi : ins.isCall <;> cases hi' : ins'.isCall
    · rfl
    · rw [hi, hi'] at hreason
      exact absurd hreason.symm hne
    · rw [hi, hi'] at hreason
      exact absurd hreason hne
    · rfl
  have hfunction : function = function' := hfunction
  rw [indirectCandidate, indirectCandidate, hfunction, haddress, hcall]

theorem mem_unresolvedIndirect (h : row ∈ unresolvedIndirectCandidates input) :
    ∃ function ins, row = indirectCandidate function ins := by
  obtain ⟨⟨function, ins⟩, -, hrow⟩ := List.mem_filterMap.mp h
  dsimp only at hrow
  split at hrow
  · cases hrow
  · split at hrow
    · cases hrow
    · exact ⟨function, ins, (Option.some.inj hrow).symm⟩

theorem exists_moved_hint (h : row ∈ obfuscationCandidates input) : ∃ input' rest,
    Permuted input input' ∧ sources input' = [unresolvedIndirectCandidates input, row :: rest,
      behaviorFlowCandidates input, lowConfidenceHighValueCandidates input,
      classDispatchCandidates input] := by
  rw [obfuscationCandidates, ← List.filterMap_eq_map] at h
  obtain ⟨hints, hperm, rest, hrest⟩ := exists_front h
  rw [List.filterMap_eq_map] at hrest
  refine ⟨{ input with obfuscationHints := hints }, rest, ?_, ?_⟩
  · exact { permuted_refl input with obfuscationHints := hperm }
  · exact congrArg (fun rows => [unresolvedIndirectCandidates input, rows,
      behaviorFlowCandidates input, lowConfidenceHighValueCandidates input,
      classDispatchCandidates input]) hrest

theorem exists_moved_flow (h : row ∈ behaviorFlowCandidates input) : ∃ input' rest,
    Permuted input input' ∧ sources input' = [unresolvedIndirectCandidates input,
      obfuscationCandidates input, row :: rest, lowConfidenceHighValueCandidates input,
      classDispatchCandidates input] := by
  obtain ⟨flows, hperm, rest, hrest⟩ := exists_front h
  refine ⟨{ input with apiFlows := flows }, rest, ?_, ?_⟩
  · exact { permuted_refl input with apiFlows := hperm }
  · exact congrArg (fun rows => [unresolvedIndirectCandidates input, obfuscationCandidates input,
      rows, lowConfidenceHighValueCandidates input, classDispatchCandidates input]) hrest

theorem exists_moved_dossier (h : row ∈ lowConfidenceHighValueCandidates input) :
    ∃ input' rest, Permuted input input' ∧ sources input' = [unresolvedIndirectCandidates input,
      obfuscationCandidates input, behaviorFlowCandidates input, row :: rest,
      classDispatchCandidates input] := by
  obtain ⟨dossiers, hperm, rest, hrest⟩ := exists_front h
  refine ⟨{ input with functionDossiers := dossiers }, rest, ?_, ?_⟩
  · exact { permuted_refl input with functionDossiers := hperm }
  · exact congrArg (fun rows => [unresolvedIndirectCandidates input, obfuscationCandidates input,
      behaviorFlowCandidates input, rows, classDispatchCandidates input]) hrest

theorem exists_moved_dispatch (h : row ∈ classDispatchCandidates input) : ∃ input' rest,
    Permuted input input' ∧ sources input' = [unresolvedIndirectCandidates input,
      obfuscationCandidates input, behaviorFlowCandidates input,
      lowConfidenceHighValueCandidates input, row :: rest] := by
  obtain ⟨flow, hperm, rest, hrest⟩ := exists_front h
  refine ⟨{ input with structuredFlow := flow }, rest, ?_, ?_⟩
  · exact { permuted_refl input with structuredFlow := hperm }
  · exact congrArg (fun rows => [unresolvedIndirectCandidates input, obfuscationCandidates input,
      behaviorFlowCandidates input, lowConfidenceHighValueCandidates input, rows]) hrest

/-- Any candidate of a source can come first in it. -/
theorem exists_moved {before after : List (List Candidate)} {l : List Candidate}
    (hsources : sources input = before ++ l :: after) (hb : row ∈ l) :
    ∃ l' c, l.Perm l' ∧
      (∃ input', Permuted input input' ∧ sources input' = before ++ l' :: after) ∧
      (l'.filter fun a => a.key = row.key).head? = some c ∧ view c = view row := by
  have hmoved : ∀ {input' : SecondPassInput} {rest : List Candidate}, Permuted input input' →
      sources input' = before ++ (row :: rest) :: after →
      ∃ l' c, l.Perm l' ∧
        (∃ input', Permuted input input' ∧ sources input' = before ++ l' :: after) ∧
        (l'.filter fun a => a.key = row.key).head? = some c ∧ view c = view row := by
    intro input' rest hperm hsources'
    have hall := hperm.sources
    rw [hsources, hsources'] at hall
    have hl : l.Perm (row :: rest) := by
      have hget := (List.forall₂_iff_get.mp hall).2 before.length (by simp) (by simp)
      simpa using hget
    refine ⟨row :: rest, row, hl, ⟨input', hperm, hsources'⟩, ?_, rfl⟩
    rw [List.filter_cons, if_pos (decide_eq_true rfl), List.head?_cons]
  rcases before with _ | ⟨_, _ | ⟨_, _ | ⟨_, _ | ⟨_, _ | ⟨_, before⟩⟩⟩⟩⟩ <;>
    simp only [sources, List.nil_append, List.cons_append, List.cons.injEq] at hsources
  · obtain ⟨rfl, rfl⟩ := hsources
    -- the sites of one key all give the same candidate
    obtain ⟨c, hc, hkey⟩ := BestFirst.exists_first Candidate.key hb
    have hhead := BestFirst.mem_firsts.mp hc
    rw [hkey] at hhead
    obtain ⟨function, ins, rfl⟩ := mem_unresolvedIndirect hb
    obtain ⟨function', ins', rfl⟩ := mem_unresolvedIndirect (BestFirst.mem_of_mem_firsts hc)
    exact ⟨_, _, .refl _, ⟨input, permuted_refl input, rfl⟩, hhead,
      congrArg view (indirect_eq_of_key hkey)⟩
  · obtain ⟨rfl, rfl, rfl⟩ := hsources
    obtain ⟨input', rest, hperm, heq⟩ := exists_moved_hint hb
    exact hmoved hperm heq
  · obtain ⟨rfl, rfl, rfl, rfl⟩ := hsources
    obtain ⟨input', rest, hperm, heq⟩ := exists_moved_flow hb
    exact hmoved hperm heq
  · obtain ⟨rfl, rfl, rfl, rfl, rfl⟩ := hsources
    obtain ⟨input', rest, hperm, heq⟩ := exists_moved_dossier hb
    exact hmoved hperm heq
  · obtain ⟨rfl, rfl, rfl, rfl, rfl, rfl⟩ := hsources
    obtain ⟨input', rest, hperm, heq⟩ := exists_moved_dispatch hb
    exact hmoved hperm heq
  · simp at hsources

end

/-- Every order of the inputs gives the same targets, the best keys by their highest priorities,
exactly when the candidates that propose each of the best keys first agree. -/
theorem runSecondPass_best_iff (input : SecondPassInput) (h : input.policy = "auto") :
    (∀ input', Permuted input input' → BestTargets input input') ↔ Agree input := by
  have hauto : ∀ input', Permuted input input' → input'.policy = "auto" :=
    fun input' hperm => hperm.policy.trans h
  constructor
  · intro hall
    refine BestFirst.agree_of_select
      (fun s => ∃ input', Permuted input input' ∧ sources input' = s)
      (fun a b hview => congrArg SecondPassTargetRecord.priorityScore hview)
      (fun before l after hsources b hb => ?_) ?_
    · exact exists_moved hsources hb
    · rintro _ ⟨input', hperm, rfl⟩
      have hbest := hall input' hperm
      obtain ⟨ranked, hranked, heq⟩ := hbest.best
      have hsame := hbest.same
      rw [targets_eq h, targets_eq (hauto input' hperm), selected_eq h,
        selected_eq (hauto input' hperm), hperm.budgetName] at hsame
      rw [selected_eq (hauto input' hperm), hperm.budgetName] at heq
      exact ⟨⟨ranked, hranked, heq⟩, hsame⟩
  · intro hagree input' hperm
    have hbest := BestFirst.best_of_agree hagree hperm.sources
    refine ⟨?_, ?_, nodup_keys_selected (hauto input' hperm), counts_add input'⟩
    · rw [targets_eq h, targets_eq (hauto input' hperm), selected_eq h,
        selected_eq (hauto input' hperm), hperm.budgetName]
      exact BestFirst.select_view_of_agree hagree hperm.sources
    · obtain ⟨ranked, hranked, heq⟩ := hbest
      refine ⟨ranked, hranked, ?_⟩
      rw [selected_eq (hauto input' hperm), hperm.budgetName]
      exact heq

def flowAt (callsite : Nat) (relevance argument : String) : ApiFlowRecord where
  function := 0x1000
  callsite := callsite
  normalizedApi := "WriteProcessMemory"
  semanticRelevance := relevance
  apiCategories := ["process"]
  argument := argument
  evidence := [callsite]

def flowsInput (flows : List ApiFlowRecord) : SecondPassInput where
  policy := "auto"
  budgetName := "high"
  functions := [0x1000]
  slices := []
  ir := []
  xrefs := []
  apiFlows := flows
  functionDossiers := []
  obfuscationHints := []
  recoveredStrings := []
  resolvedCalls := []
  structuredFlow := []
  inside := by simp

/-- Two calls, one of them listed twice. -/
def twoCalls : SecondPassInput :=
  flowsInput [flowAt 0x1010 "low" "arg0", flowAt 0x1020 "high" "arg0", flowAt 0x1010 "low" "arg0"]

theorem runSecondPass_best_iff_twoCalls :
    Agree twoCalls ∧ BestTargets twoCalls (flowsInput [flowAt 0x1020 "high" "arg0",
      flowAt 0x1010 "low" "arg0", flowAt 0x1010 "low" "arg0"]) := by
  have hagree : Agree twoCalls := BestFirst.agree_of_injOn (by decide)
  exact ⟨hagree, (runSecondPass_best_iff twoCalls rfl).mpr hagree _
    { permuted_refl twoCalls with apiFlows := .swap _ _ _ }⟩

/-- Two arguments of one call. -/
def oneCall : SecondPassInput :=
  flowsInput [flowAt 0x1010 "low" "arg0", flowAt 0x1010 "high" "arg1"]

/-- The first argument decides the priority. -/
theorem lowFirst_not_best :
    ¬ ∀ input', Permuted oneCall input' → BestTargets oneCall input' := by
  intro hall
  obtain ⟨ranked, hranked, heq⟩ := (hall _ (permuted_refl _)).best
  have hselected : selected oneCall = [flowCandidate (flowAt 0x1010 "low" "arg0")] := by
    rw [selected_eq rfl, BestFirst.select]
    have hfirsts : BestFirst.firsts Candidate.key (sources oneCall).flatten =
        [flowCandidate (flowAt 0x1010 "low" "arg0")] := by decide
    rw [hfirsts, sortBy, List.mergeSort_singleton]
    rfl
  rw [hselected] at heq
  have hmem : BestFirst.rank Candidate.priorityScore Candidate.key
      (flowCandidate (flowAt 0x1010 "low" "arg0")) ∈ ranked := by
    refine List.mem_of_mem_take (?_ : _ ∈ ranked.take (secondPassTargetCap oneCall.budgetName))
    rw [← heq, List.map_singleton]
    exact List.mem_singleton_self _
  have hhigh := ((hranked.mem _ _).mp hmem).2 (flowCandidate (flowAt 0x1010 "high" "arg1"))
    (by decide) (by decide)
  exact absurd hhigh (by decide)

end Axe.Static.SecondPass
