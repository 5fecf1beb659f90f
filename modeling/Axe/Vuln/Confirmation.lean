import Mathlib.Data.String.Basic
import Mathlib.Data.List.Sort
import Axe.Lib.SortedMap
import Axe.Lib.SmtScript
import Axe.Pe.Snapshot

/-!
# Dynamic confirmation of chains

Rows of evidence name a chain, a sink address and the tool they come from. Rows of requested
sources that name the sink of their chain's harness are kept, and for every requested source
without such a row a row is added that says so. The rows of a chain are then folded into one
confirmation. Observed argument values are of any type.
-/
namespace Axe.Vuln

open Concolic (toAsciiLowercase u64FromStrRadix)
open Pe (trimStartMatches)

inductive DynamicStatus
  | confirmedTrigger
  | reachedOnly
  | notObserved
  | unavailable
  deriving DecidableEq

/-- In tenths. -/
def DynamicStatus.scoringWeight : DynamicStatus → Nat
  | .confirmedTrigger => 10
  | .reachedOnly => 5
  | .notObserved | .unavailable => 0

def DynamicStatus.contributesToScore : DynamicStatus → Bool
  | .confirmedTrigger | .reachedOnly => true
  | .notObserved | .unavailable => false

/-- In hundredths. -/
def DynamicStatus.confidenceDelta : DynamicStatus → Nat
  | .confirmedTrigger => 10
  | _ => 0

structure DynamicEvidence (Value : Type) where
  chainId : String
  harnessId : String
  sinkPc : String
  status : DynamicStatus
  evidenceSource : String
  observedArgumentValues : List (String × Value)
  reproducerId : String
  confidenceDelta : Nat

structure Harness where
  chainId : String
  harnessId : String
  intendedSinkVa : BitVec 64

/-- Harnesses by the chains that they are for. -/
structure HarnessMap where
  rows : List Harness
  distinct : (rows.map Harness.chainId).Nodup

def HarnessMap.get? (hs : HarnessMap) (chainId : String) : Option Harness :=
  hs.rows.find? (·.chainId = chainId)

def eqIgnoreAsciiCase (a b : String) : Bool :=
  toAsciiLowercase a.toList = toAsciiLowercase b.toList

variable {Value : Type}

def DynamicEvidence.sinkPcMatches (e : DynamicEvidence Value) (expected : BitVec 64) : Bool :=
  u64FromStrRadix (trimStartMatches 'X' (trimStartMatches 'x' e.sinkPc.toList)) 16 = some expected

def formatSinkPc (va : BitVec 64) : String :=
  let digits := Nat.toDigits 16 va.toNat
  String.ofList ('0' :: 'x' :: (List.replicate (16 - digits.length) '0' ++ digits))

def requestedDynamicSources (selector : String) (includeControlledFixture : Bool) : List String :=
  let sources :=
    if selector = "debug_probe" then ["debug_probe"]
    else if selector = "fuzz" then ["fuzz"]
    else if selector = "trace" then ["trace"]
    else if selector = "concolic" then ["concolic"]
    else if selector = "both" then ["fuzz", "trace"]
    else if selector = "all" then ["debug_probe", "fuzz", "trace", "concolic"]
    else []
  let sources := if includeControlledFixture ∧ sources ≠ [] then
      sources ++ ["controlled_fixture", "safe_fixture_probe"]
    else sources
  (sources.insertionSort (· ≤ ·)).eraseReps

def sourceRequested (requested : List String) (source : String) : Bool :=
  source ≠ "" && requested.any fun r => eqIgnoreAsciiCase source r

/-- Rows without a source pass, and all rows do when no source is requested. -/
def sourceAccepted (requested : List String) (e : DynamicEvidence Value) : Bool :=
  requested = [] || e.evidenceSource = "" || sourceRequested requested e.evidenceSource

def kept (requested : List String) (hs : HarnessMap) (e : DynamicEvidence Value) : Bool :=
  sourceAccepted requested e &&
    match hs.get? e.chainId with
    | none => false
    | some harness => e.sinkPcMatches harness.intendedSinkVa

def unavailableRow (harness : Harness) (source : String) : DynamicEvidence Value where
  chainId := harness.chainId
  harnessId := harness.harnessId
  sinkPc := formatSinkPc harness.intendedSinkVa
  status := .unavailable
  evidenceSource := source
  observedArgumentValues := []
  reproducerId := "source_unavailable:" ++ source
  confidenceDelta := DynamicStatus.unavailable.confidenceDelta

/-- A row that already stands for a source of a harness. -/
def hasSource (harness : Harness) (source : String) (e : DynamicEvidence Value) : Bool :=
  e.chainId = harness.chainId && eqIgnoreAsciiCase e.evidenceSource source &&
    e.sinkPcMatches harness.intendedSinkVa

def backFill (harness : Harness) (evidence : List (DynamicEvidence Value)) (source : String) :
    List (DynamicEvidence Value) :=
  if evidence.any (hasSource harness source) then evidence
  else evidence ++ [unavailableRow harness source]

def orchestrate (hs : HarnessMap) (explicitEvidence : List (DynamicEvidence Value))
    (requestedSources : String) (includeControlledFixture : Bool) :
    List (DynamicEvidence Value) :=
  let requested := requestedDynamicSources requestedSources includeControlledFixture
  if requested = [] ∧ explicitEvidence = [] then []
  else
    let evidence := explicitEvidence.filter (kept requested hs)
    if requested = [] then evidence
    else hs.rows.foldl (fun evidence harness => requested.foldl (backFill harness) evidence) evidence

structure ChainConfirmation (Value : Type) where
  chainId : String
  harnessId : String
  sinkPc : String
  status : DynamicStatus
  mergedObservedArgumentValues : List (String × Value)
  reproducerIds : List String
  evidenceSources : List String
  sourceEvidenceCount : Nat
  confidenceDelta : Nat

/-- The rows of a harness: of its chain, and at its sink. -/
def ofHarness (harness : Harness) (e : DynamicEvidence Value) : Bool :=
  e.chainId = harness.chainId && e.sinkPcMatches harness.intendedSinkVa

/-- Of statuses with equal weights the last one counts. -/
def stronger (a b : DynamicStatus) : DynamicStatus :=
  if b.scoringWeight < a.scoringWeight then a else b

def strongestStatus : List DynamicStatus → Option DynamicStatus
  | [] => none
  | first :: rest => some (rest.foldl stronger first)

def contributes (strongest : DynamicStatus) (e : DynamicEvidence Value) : Bool :=
  match strongest with
  | .confirmedTrigger | .reachedOnly => e.status.contributesToScore
  | .notObserved => e.status = .notObserved
  | .unavailable => false

def pushNew (sources : List String) (source : String) : List String :=
  if source ≠ "" ∧ source ∉ sources then sources ++ [source] else sources

def aggregateForChain (harness : Harness) (evidenceList : List (DynamicEvidence Value)) :
    Option (ChainConfirmation Value) :=
  let filtered := evidenceList.filter (ofHarness harness)
  match strongestStatus (filtered.map DynamicEvidence.status) with
  | none => none
  | some strongest =>
    if strongest = .unavailable then none
    else
      let contributing := filtered.filter (contributes strongest)
      some {
        chainId := harness.chainId
        harnessId := harness.harnessId
        sinkPc := formatSinkPc harness.intendedSinkVa
        status := strongest
        mergedObservedArgumentValues :=
          SortedMap.ofList Prod.fst (contributing.flatMap (·.observedArgumentValues))
        reproducerIds := (contributing.map (·.reproducerId)).filter (· ≠ "")
        evidenceSources :=
          ((contributing.map (·.evidenceSource)).foldl pushNew []).insertionSort (· ≤ ·)
        sourceEvidenceCount := contributing.length
        confidenceDelta := strongest.confidenceDelta }

end Axe.Vuln
