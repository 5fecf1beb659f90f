import Axe.Concolic.Ladder
import Axe.Concolic.SchedulerRuns
import Axe.Fuzzer.Interleaving
import Axe.Fuzzer.Session
import Axe.Lib.OrderedMap
import Mathlib.Data.String.Basic

/-!
# The concolic session

The session pops one branch after another, asks the ladder for an input that takes its other
side, runs the input and promotes it when it covers something new. The executor, the clock and
the ends of the writes are an oracle of every turn. Nothing is pushed while the session runs.
-/
namespace Axe.Concolic.ConcolicSession

open Axe.Fuzzer (Bridge CoverageMap CrashInfo Execution ExitKind Fate Hasher Input MAP_SIZE Novelty
  PromoteError PromoteOutcome Promotion QueueEntry ValidationStatus classifyAgainstSnapshot
  mergeIntoGlobal reached skipReason)

/-- The data of a branch beside its key and its novelty. -/
structure ItemData where
  pathId : String
  depth : Nat
  exprComplexity : Nat
  originSeedId : String
  targetBranch : NodeId
  pathConstraints : List NodeId
  inputBytes : Nat
  wantTaken : Bool
  expectedFlipPc : Option Nat
  deriving DecidableEq

structure Settings (N S : Type) where
  scoring : Scoring N ItemData S
  blake3 : Hasher
  edgeIndex : Nat → Nat → Fin MAP_SIZE
  dag : ExprDag
  timeBudget : Option Nat
  z3ExternalMs : Nat

/-- What the world answers in one turn. A line that is written has a length, a dump has a path
beside it. -/
structure Turn where
  elapsed : Bool
  backends : List LadderBackend
  totalMs : Nat
  dump : Option (String × Nat)
  run : Input → Execution
  stage : Fate Input
  queue : Fate Input
  promoteError : String
  coverageLine : Option Nat
  solvesLine : Option Nat

structure ValidationOutcome where
  reexecuted : Bool
  reachedTargetPc : Bool
  branchFlipped : Bool
  newCoverage : Novelty
  crashed : Bool
  crashInfo : Option CrashInfo
  status : ValidationStatus
  execUs : Nat
  exit : ExitKind

def deriveStatus (crashed reachedTargetPc branchFlipped : Bool) (novelty : Novelty) :
    ValidationStatus :=
  if crashed then .newCrash
  else if branchFlipped && novelty.isInteresting then .newCoverageConfirmed
  else if branchFlipped then .valid
  else if reachedTargetPc then .modelMismatch
  else .unreachableInRealRun

section
variable (edgeIndex : Nat → Nat → Fin MAP_SIZE)

def edgeWasTouchedFromTo (map : CoverageMap) (source target : Nat) : Bool :=
  0 < map (edgeIndex source target)

/-- Edges to an address from a few places before it. -/
def edgeWasTouchedAt (map : CoverageMap) (targetPc : Nat) : Bool :=
  [0, 1, 2, 4, 8, 16].any fun back =>
    edgeWasTouchedFromTo edgeIndex map ((targetPc + 2 ^ 64 - back) % 2 ^ 64) targetPc

def validate (run : Input → Execution) (model : Input) (targetPc : Nat)
    (expectedNextPc : Option Nat) (snapshot : CoverageMap) : ValidationOutcome :=
  if model.isEmpty then
    ⟨false, false, false, ⟨0, 0⟩, false, none, .modelMismatch, 0, .ok⟩
  else
    let result := run model
    let crashed := result.exit.isCrashLike
    let novelty := classifyAgainstSnapshot result.map snapshot
    let reachedTargetPc := edgeWasTouchedAt edgeIndex result.map targetPc
    let branchFlipped :=
      expectedNextPc.elim false (edgeWasTouchedFromTo edgeIndex result.map targetPc)
    { reexecuted := true
      reachedTargetPc
      branchFlipped
      newCoverage := novelty
      crashed
      crashInfo := result.crash
      status := deriveStatus crashed reachedTargetPc branchFlipped novelty
      execUs := result.execUs
      exit := result.exit }

end

inductive ArtifactStatus
  | complete | incomplete | failed | skipped
  deriving DecidableEq

inductive RunOutcome
  | complete | incomplete | failed
  deriving DecidableEq

structure ArtifactStatusEntry where
  status : ArtifactStatus
  bytes : Nat
  records : Nat
  error : Option String
  deriving DecidableEq

def deriveOutcome (artifacts : OrderedMap String ArtifactStatusEntry) : RunOutcome :=
  let entries := artifacts.rows.map Prod.snd
  let any (status : ArtifactStatus) : Bool := entries.any fun entry => entry.status = status
  if entries.isEmpty then .failed
  else if any .failed || any .incomplete then .incomplete
  else if any .skipped && any .complete then .incomplete
  else if any .complete then .complete
  else .failed

structure ConcolicReport where
  solvesAttempted : Nat
  solvesSat : Nat
  solvesUnsat : Nat
  solvesUnknown : Nat
  solvesTimeout : Nat
  modelsPromotedToCorpus : Nat
  crashesFound : Nat
  deriving DecidableEq

structure ModelValidationSection where
  reexecuted : Bool
  reachedTargetPc : Bool
  branchFlipped : Bool
  newCoverage : Bool
  crashed : Bool
  status : ValidationStatus
  deriving DecidableEq

structure SolveRecord where
  pathId : String
  pc : Nat
  depth : Nat
  taken : Bool
  requested : Bool
  numConstraintsTotal : Nat
  numConstraintsInSlice : Nat
  numExprNodes : Nat
  inputBytes : Nat
  tierUsed : SolveTier
  backend : String
  status : SolveStatus
  timeMs : Nat
  reasonUnknown : Option String
  unsatCore : List NodeId
  smt2Path : Option String
  modelValidation : Option ModelValidationSection
  deriving DecidableEq

structure CoverageRecord where
  sourceSolveId : String
  newEdges : Nat
  newBuckets : Nat
  deriving DecidableEq

structure Session (N S : Type) where
  backlog : ConcolicBacklog N ItemData S
  bridge : Bridge
  report : ConcolicReport
  solves : List SolveRecord
  solvesBytes : Nat
  coverage : List CoverageRecord
  coverageBytes : Nat
  smt2Count : Nat
  smt2Bytes : Nat
  artifacts : OrderedMap String ArtifactStatusEntry

def ConcolicReport.count (report : ConcolicReport) (status : SolveStatus) : ConcolicReport :=
  let report := { report with solvesAttempted := report.solvesAttempted + 1 }
  match status with
  | .sat => { report with solvesSat := report.solvesSat + 1 }
  | .unsat => { report with solvesUnsat := report.solvesUnsat + 1 }
  | .unknown | .loweringError => { report with solvesUnknown := report.solvesUnknown + 1 }
  | .timeout => { report with solvesTimeout := report.solvesTimeout + 1 }

section
variable {N S : Type} (settings : Settings N S)

def new (backlog : ConcolicBacklog N ItemData S) (bridge : Bridge) : Session N S :=
  ⟨backlog, bridge, ⟨0, 0, 0, 0, 0, 0, 0⟩, [], 0, [], 0, 0, 0, .empty⟩

def query (item : FrontierItem N ItemData) : BranchQuery where
  inputBytes := item.rest.inputBytes
  pathConstraints := item.rest.pathConstraints
  targetBranch := item.rest.targetBranch
  wantTaken := item.rest.wantTaken
  timeout := max settings.z3ExternalMs 1000 * 1000000
  preferLogic := some "QF_BV"

def promotionOf (item : FrontierItem N ItemData) (turn : Turn) (model : Input)
    (validation : ValidationOutcome) : Promotion where
  inputBytes := model
  parentSeedId := some item.rest.originSeedId
  status := validation.status
  execUs := validation.execUs
  localMap := (turn.run model).map

/-- A confirmed model goes to the bridge. -/
def Session.promote (s : Session N S) (item : FrontierItem N ItemData) (turn : Turn)
    (model : Input) (validation : ValidationOutcome) :
    Session N S × Option (Except PromoteError PromoteOutcome) :=
  if validation.status = .newCoverageConfirmed then
    let (bridge, result) := s.bridge.promoteIfNovel settings.blake3 turn.stage turn.queue
      (promotionOf item turn model validation)
    let s := { s with bridge }
    match result with
    | .ok (.promoted modelId novelty) =>
      let report :=
        { s.report with modelsPromotedToCorpus := s.report.modelsPromotedToCorpus + 1 }
      (match turn.coverageLine with
        | none => { s with report }
        | some bytes =>
          { s with
            report
            coverage := s.coverage ++ [⟨modelId, novelty.newEdges, novelty.newBuckets⟩]
            coverageBytes := s.coverageBytes + bytes }, some result)
    | .ok _ => (s, some result)
    | .error _ =>
      ({ s with
        artifacts := s.artifacts.insert "solves.jsonl" ⟨.incomplete, s.solvesBytes,
          s.solves.length, some ("promotion error: " ++ turn.promoteError)⟩ }, some result)
  else (s, none)

def sectionOf (validation : ValidationOutcome) : ModelValidationSection where
  reexecuted := validation.reexecuted
  reachedTargetPc := validation.reachedTargetPc
  branchFlipped := validation.branchFlipped
  newCoverage := validation.newCoverage.isInteresting
  crashed := validation.crashed
  status := validation.status

/-- The model of an outcome is run, and promoted when it is confirmed. -/
def Session.tryModel (s : Session N S) (item : FrontierItem N ItemData) (turn : Turn)
    (outcome : LadderOutcome) :
    Session N S × Option ModelValidationSection × Option (Except PromoteError PromoteOutcome) :=
  match outcome.finalReport.inputModel with
  | none => (s, none, none)
  | some bits =>
    let model : Input := bits.map UInt8.ofBitVec
    let validation := validate settings.edgeIndex turn.run model item.branchPc
      item.rest.expectedFlipPc s.bridge.coverage
    let s :=
      if validation.status = .newCrash then
        { s with report := { s.report with crashesFound := s.report.crashesFound + 1 } }
      else s
    let (s, promotion) := s.promote settings item turn model validation
    (s, some (sectionOf validation), promotion)

def recordOf (item : FrontierItem N ItemData) (turn : Turn) (outcome : LadderOutcome)
    (modelValidation : Option ModelValidationSection) : SolveRecord where
  pathId := item.rest.pathId
  pc := item.branchPc
  depth := item.rest.depth
  taken := item.rest.wantTaken
  requested := !item.rest.wantTaken
  numConstraintsTotal := item.rest.pathConstraints.length
  numConstraintsInSlice := item.rest.pathConstraints.length
  numExprNodes := item.rest.exprComplexity
  inputBytes := item.rest.inputBytes
  tierUsed := outcome.winningTier
  backend := outcome.finalReport.backend
  status := outcome.finalReport.status
  timeMs := outcome.totalTimeMs
  reasonUnknown := outcome.finalReport.reason
  unsatCore := outcome.finalReport.unsatCore
  smt2Path := turn.dump.map Prod.fst
  modelValidation := modelValidation

/-- What a turn did with its branch. -/
structure Entry (N : Type) where
  item : FrontierItem N ItemData
  turn : Turn
  outcome : LadderOutcome
  record : SolveRecord
  promotion : Option (Except PromoteError PromoteOutcome)

/-- A turn up to the write of its record. No result is a panic of the ladder. -/
def Session.process (s : Session N S) (item : FrontierItem N ItemData) (turn : Turn) :
    Option (Session N S × Entry N) :=
  (solve turn.backends (query settings item) settings.dag turn.totalMs).map fun outcome =>
    let s :=
      { s with
        report := s.report.count outcome.finalReport.status
        smt2Count := s.smt2Count + (turn.dump.map fun _ => 1).getD 0
        smt2Bytes := s.smt2Bytes + (turn.dump.map Prod.snd).getD 0 }
    let (s, modelValidation, promotion) := s.tryModel settings item turn outcome
    (s, ⟨item, turn, outcome, recordOf item turn outcome modelValidation, promotion⟩)

def Session.append (s : Session N S) (record : SolveRecord) (bytes : Nat) : Session N S :=
  { s with solves := s.solves ++ [record], solvesBytes := s.solvesBytes + bytes }

/-- How the loop ends. -/
inductive Stop (N : Type)
  | drained
  | outOfTime (dropped : FrontierItem N ItemData)
  | panicked (item : FrontierItem N ItemData)
  | failed (entry : Entry N)

/-- The budget is over, when there is one. -/
def OutOfTime (turn : Turn) : Prop := settings.timeBudget.isSome = true ∧ turn.elapsed = true

variable [LinearOrder S]

/-- The loop from a session, with what its turns did. -/
inductive Runs : Session N S → List (Entry N) → Session N S → Stop N → Prop
  | drained {s : Session N S} {order : List Key} {backlog : ConcolicBacklog N ItemData S} :
      Pops settings.scoring s.backlog none order backlog →
      Runs s [] { s with backlog } .drained
  | outOfTime {s : Session N S} {item : FrontierItem N ItemData} {order : List Key}
      {backlog : ConcolicBacklog N ItemData S} {turn : Turn} :
      Pops settings.scoring s.backlog (some item) order backlog → OutOfTime settings turn →
      Runs s [] { s with backlog } (.outOfTime item)
  | panicked {s : Session N S} {item : FrontierItem N ItemData} {order : List Key}
      {backlog : ConcolicBacklog N ItemData S} {turn : Turn} :
      Pops settings.scoring s.backlog (some item) order backlog → ¬ OutOfTime settings turn →
      Session.process settings { s with backlog } item turn = none →
      Runs s [] { s with backlog } (.panicked item)
  | failed {s s' : Session N S} {item : FrontierItem N ItemData} {order : List Key}
      {backlog : ConcolicBacklog N ItemData S} {turn : Turn} {entry : Entry N} :
      Pops settings.scoring s.backlog (some item) order backlog → ¬ OutOfTime settings turn →
      Session.process settings { s with backlog } item turn = some (s', entry) →
      turn.solvesLine = none → Runs s [] s' (.failed entry)
  | step {s s' t : Session N S} {item : FrontierItem N ItemData} {order : List Key}
      {backlog : ConcolicBacklog N ItemData S} {turn : Turn} {entry : Entry N}
      {log : List (Entry N)} {stop : Stop N} {bytes : Nat} :
      Pops settings.scoring s.backlog (some item) order backlog → ¬ OutOfTime settings turn →
      Session.process settings { s with backlog } item turn = some (s', entry) →
      turn.solvesLine = some bytes → Runs (s'.append entry.record bytes) log t stop →
      Runs s (entry :: log) t stop

end

/-- The artifacts once every writer is closed. -/
def finish {N S : Type} (s : Session N S) : OrderedMap String ArtifactStatusEntry :=
  let complete (m : OrderedMap String ArtifactStatusEntry) (name : String) (bytes records : Nat) :=
    m.insert name ⟨.complete, bytes, records, none⟩
  let m := complete s.artifacts "solves.jsonl" s.solvesBytes s.solves.length
  let m := complete m "exprs.jsonl" 0 0
  let m := complete m "branches.jsonl" 0 0
  let m := complete m "traces.jsonl" 0 0
  let m := complete m "coverage.jsonl" s.coverageBytes s.coverage.length
  complete m "smt2" s.smt2Bytes s.smt2Count

section
variable {N S : Type} {settings : Settings N S} {s s' : Session N S}
  {item : FrontierItem N ItemData} {turn : Turn} {entry : Entry N} {b : Bridge} {p : Promotion}
  {blake3 : Hasher} {stage queue : Fate Input}

/-- A promotion of a confirmed and novel input ends in one of three ways. -/
inductive PromoteSpec (blake3 : Hasher) (queue : Fate Input) (b : Bridge) (p : Promotion) :
    Bridge × Except PromoteError PromoteOutcome → Prop
  | staging {disk : Fuzzer.Disk} : disk.queue = b.disk.queue →
      PromoteSpec blake3 queue b p ({ b with disk }, .error .stagingFailed)
  | adding (disk : Fuzzer.Disk) {disk' : Fuzzer.Disk} {corpus : Fuzzer.FuzzCorpus}
      {novelty : Novelty} : disk.queue = b.disk.queue →
      Fuzzer.AddSpec queue b.corpus disk (p.entry blake3 novelty) (corpus, disk', none) →
      PromoteSpec blake3 queue b p (⟨corpus, disk', b.coverage⟩, .error .corpusAddFailed)
  | promoted (disk : Fuzzer.Disk) {disk' : Fuzzer.Disk} {corpus : Fuzzer.FuzzCorpus}
      {novelty : Novelty} {idx : Nat} : disk.queue = b.disk.queue →
      Fuzzer.AddSpec queue b.corpus disk (p.entry blake3 novelty) (corpus, disk', some idx) →
      PromoteSpec blake3 queue b p (⟨corpus, disk', b.coverage ⊔ reached p.localMap⟩,
        .ok (.promoted (Fuzzer.inputId blake3 p.inputBytes) novelty))

theorem promote_spec (stage queue : Fate Input) (hstatus : p.status = .newCoverageConfirmed)
    (hnovel : (classifyAgainstSnapshot p.localMap b.coverage).isInteresting = true) :
    PromoteSpec blake3 queue b p (b.promoteIfNovel blake3 stage queue p) := by
  have hskip : skipReason p.status = none := by rw [hstatus]; rfl
  simp only [Bridge.promoteIfNovel, hskip, hnovel, Bool.not_true, Bool.false_eq_true, if_false]
  have hadd := Fuzzer.add_spec queue b.corpus
    (b.disk.stage stage (Fuzzer.inputId blake3 p.inputBytes) p.inputBytes).1
    (p.entry blake3 (classifyAgainstSnapshot p.localMap b.coverage))
  cases hstage : (b.disk.stage stage (Fuzzer.inputId blake3 p.inputBytes) p.inputBytes).2 with
  | false => exact .staging rfl
  | true =>
    simp only [Bool.not_true, Bool.false_eq_true, if_false]
    generalize b.corpus.add queue
      (b.disk.stage stage (Fuzzer.inputId blake3 p.inputBytes) p.inputBytes).1
      (p.entry blake3 (classifyAgainstSnapshot p.localMap b.coverage)) = r at hadd ⊢
    obtain ⟨corpus, disk', _ | idx⟩ := r
    · exact .adding
        (b.disk.stage stage (Fuzzer.inputId blake3 p.inputBytes) p.inputBytes).1 rfl hadd
    · simp only [Option.isNone_some, Bool.false_eq_true, if_false, Fuzzer.mergeIntoGlobal_eq]
      exact .promoted
        (b.disk.stage stage (Fuzzer.inputId blake3 p.inputBytes) p.inputBytes).1 rfl hadd

/-- An input that ran without a crash over the edge that was asked for, and covered more than a
map has. -/
structure Confirms (edgeIndex : Nat → Nat → Fin MAP_SIZE) (run : Input → Execution)
    (targetPc : Nat) (expectedNextPc : Option Nat) (snapshot : CoverageMap) (model : Input) :
    Prop where
  nonempty : model ≠ []
  noCrash : (run model).exit.isCrashLike = false
  flipped : ∃ next, expectedNextPc = some next ∧ 0 < (run model).map (edgeIndex targetPc next)
  novel : (classifyAgainstSnapshot (run model).map snapshot).isInteresting = true

theorem deriveStatus_confirmed {crashed reachedTargetPc branchFlipped : Bool} {novelty : Novelty}
    (h : deriveStatus crashed reachedTargetPc branchFlipped novelty = .newCoverageConfirmed) :
    crashed = false ∧ branchFlipped = true ∧ novelty.isInteresting = true := by
  cases crashed with
  | true => cases h
  | false =>
    cases branchFlipped with
    | false => cases reachedTargetPc <;> cases h
    | true =>
      cases hnovel : novelty.isInteresting with
      | true => exact ⟨rfl, rfl, rfl⟩
      | false => simp [deriveStatus, hnovel] at h

theorem validate_confirmed {edgeIndex : Nat → Nat → Fin MAP_SIZE} {run : Input → Execution}
    {model : Input} {targetPc : Nat} {expectedNextPc : Option Nat} {snapshot : CoverageMap}
    (h : (validate edgeIndex run model targetPc expectedNextPc snapshot).status =
      .newCoverageConfirmed) :
    Confirms edgeIndex run targetPc expectedNextPc snapshot model := by
  rw [validate] at h
  by_cases hempty : model.isEmpty = true
  · rw [if_pos hempty] at h
    cases h
  · rw [if_neg hempty] at h
    obtain ⟨hcrash, hflip, hnovel⟩ := deriveStatus_confirmed h
    refine ⟨by simpa using hempty, hcrash, ?_, hnovel⟩
    cases hnext : expectedNextPc with
    | none =>
      rw [hnext] at hflip
      cases hflip
    | some next =>
      rw [hnext] at hflip
      exact ⟨next, rfl, of_decide_eq_true hflip⟩

namespace Entry

def promoted (entry : Entry N) : Bool :=
  match entry.promotion with
  | some (.ok (.promoted _ _)) => true
  | _ => false

def hasStatus (status : ValidationStatus) (entry : Entry N) : Bool :=
  entry.record.modelValidation.any fun validation => validation.status = status

/-- The input that the solver proposed. -/
def model (entry : Entry N) : Input :=
  (entry.outcome.finalReport.inputModel.getD []).map UInt8.ofBitVec

/-- What the run of the proposed input reached. -/
def reach (entry : Entry N) : CoverageMap := reached (entry.turn.run entry.model).map

end Entry

/-- What the report says of the turns of a log. -/
def account (log : List (Entry N)) : ConcolicReport where
  solvesAttempted := log.length
  solvesSat := log.countP fun entry => entry.record.status = .sat
  solvesUnsat := log.countP fun entry => entry.record.status = .unsat
  solvesUnknown := log.countP fun entry =>
    entry.record.status = .unknown || entry.record.status = .loweringError
  solvesTimeout := log.countP fun entry => entry.record.status = .timeout
  modelsPromotedToCorpus := log.countP Entry.promoted
  crashesFound := log.countP (Entry.hasStatus .newCrash)

def ConcolicReport.add (r r' : ConcolicReport) : ConcolicReport where
  solvesAttempted := r.solvesAttempted + r'.solvesAttempted
  solvesSat := r.solvesSat + r'.solvesSat
  solvesUnsat := r.solvesUnsat + r'.solvesUnsat
  solvesUnknown := r.solvesUnknown + r'.solvesUnknown
  solvesTimeout := r.solvesTimeout + r'.solvesTimeout
  modelsPromotedToCorpus := r.modelsPromotedToCorpus + r'.modelsPromotedToCorpus
  crashesFound := r.crashesFound + r'.crashesFound

/-- The bridge before and after a turn. -/
structure Bridged (settings : Settings N S) (b b' : Bridge) (entry : Entry N) : Prop where
  inSync : b.corpus.InSync settings.blake3 b.disk → b'.corpus.InSync settings.blake3 b'.disk
  kept : b.corpus.entries ⊆ b'.corpus.entries
  added : ∀ e ∈ b'.corpus.entries, e ∈ b.corpus.entries ∨
    entry.promoted = true ∧ e.input = entry.model
  coverage : b'.coverage = if entry.promoted then b.coverage ⊔ entry.reach else b.coverage
  confirmed : entry.promoted = true → Confirms settings.edgeIndex entry.turn.run
    entry.item.branchPc entry.item.rest.expectedFlipPc b.coverage entry.model
  found : b.corpus.InSync settings.blake3 b.disk → entry.promoted = true →
    ∃ e ∈ b'.corpus.entries, e.id = Fuzzer.inputId settings.blake3 entry.model

/-- All that a turn does before its record is written. -/
structure Processed (settings : Settings N S) (s : Session N S) (item : FrontierItem N ItemData)
    (turn : Turn) (s' : Session N S) (entry : Entry N) : Prop where
  ofItem : entry.item = item
  ofTurn : entry.turn = turn
  solved : solve turn.backends (query settings item) settings.dag turn.totalMs =
    some entry.outcome
  recorded : entry.record = recordOf item turn entry.outcome entry.record.modelValidation
  backlog : s'.backlog = s.backlog
  solves : s'.solves = s.solves
  solvesBytes : s'.solvesBytes = s.solvesBytes
  report : s'.report = s.report.add (account [entry])
  tried : entry.promotion.isSome = entry.hasStatus .newCoverageConfirmed
  artifacts : ∀ name, name ≠ "solves.jsonl" → s'.artifacts.get name = s.artifacts.get name
  bridge : Bridged settings s.bridge s'.bridge entry

theorem Bridged.idle {b : Bridge} (h : entry.promoted = false) : Bridged settings b b entry where
  inSync := id
  kept := fun _ he => he
  added := fun _ he => .inl he
  coverage := by rw [h]; rfl
  confirmed := fun hp => absurd (h.symm.trans hp) Bool.false_ne_true
  found := fun _ hp => absurd (h.symm.trans hp) Bool.false_ne_true

theorem Bridged.of_spec {result : Except PromoteError PromoteOutcome} {b b' : Bridge}
    {p : Promotion} (hspec : PromoteSpec settings.blake3 entry.turn.queue b p (b', result))
    (hpromotion : entry.promotion = some result) (hinput : p.inputBytes = entry.model)
    (hmap : p.localMap = (entry.turn.run entry.model).map)
    (hconfirms : Confirms settings.edgeIndex entry.turn.run entry.item.branchPc
      entry.item.rest.expectedFlipPc b.coverage entry.model) : Bridged settings b b' entry := by
  have hreach : reached p.localMap = entry.reach := congrArg reached hmap
  cases hspec with
  | staging hq =>
    have hnot : entry.promoted = false := by rw [Entry.promoted, hpromotion]
    refine ⟨fun h => h.of_queue hq, fun _ he => he, fun _ he => .inl he, by rw [hnot]; rfl,
      fun hp => absurd (hnot.symm.trans hp) Bool.false_ne_true,
      fun _ hp => absurd (hnot.symm.trans hp) Bool.false_ne_true⟩
  | adding disk hq hadd =>
    have hnot : entry.promoted = false := by rw [Entry.promoted, hpromotion]
    have hsync := fun h : b.corpus.InSync settings.blake3 b.disk =>
      hadd.inSync (h.of_queue hq) rfl
    cases hadd with
    | failed left hid hfail =>
      exact ⟨hsync, fun _ he => he, fun _ he => .inl he, by rw [hnot]; rfl,
        fun hp => absurd (hnot.symm.trans hp) Bool.false_ne_true,
        fun _ hp => absurd (hnot.symm.trans hp) Bool.false_ne_true⟩
  | promoted disk hq hadd =>
    have hyes : entry.promoted = true := by rw [Entry.promoted, hpromotion]
    obtain ⟨hsub, hnew⟩ := hadd.entries
    refine ⟨fun h => hadd.inSync (h.of_queue hq) rfl, hsub, fun e he => ?_, ?_, fun _ => hconfirms,
      fun h _ => ?_⟩
    · refine (hnew e he).imp_right fun heq => ⟨hyes, ?_⟩
      rw [heq, ← hinput]
      rfl
    · rw [hyes, if_pos rfl, hreach]
    · obtain ⟨e, he, hid⟩ := hadd.found (h.of_queue hq)
      exact ⟨e, he, hid.trans (congrArg (Fuzzer.inputId settings.blake3) hinput)⟩

/-- The end of a turn's attempt to use a model. -/
inductive TrySpec (settings : Settings N S) (s : Session N S) (item : FrontierItem N ItemData)
    (turn : Turn) (outcome : LadderOutcome) : Session N S × Option ModelValidationSection ×
      Option (Except PromoteError PromoteOutcome) → Prop
  | silent : outcome.finalReport.inputModel = none →
      TrySpec settings s item turn outcome (s, none, none)
  | checked {validation : ValidationOutcome} : validation.status ≠ .newCoverageConfirmed →
      TrySpec settings s item turn outcome
        ({ s with report := { s.report with
            crashesFound := s.report.crashesFound +
              if validation.status = .newCrash then 1 else 0 } },
          some (sectionOf validation), none)
  | failed {bits : List (BitVec 8)} {validation : ValidationOutcome} {bridge : Bridge}
      {e : PromoteError} {artifacts : OrderedMap String ArtifactStatusEntry} :
      outcome.finalReport.inputModel = some bits →
      validation.status = .newCoverageConfirmed →
      Confirms settings.edgeIndex turn.run item.branchPc item.rest.expectedFlipPc
        s.bridge.coverage (bits.map UInt8.ofBitVec) →
      PromoteSpec settings.blake3 turn.queue s.bridge
        (promotionOf item turn (bits.map UInt8.ofBitVec) validation) (bridge, .error e) →
      (∀ name, name ≠ "solves.jsonl" → artifacts.get name = s.artifacts.get name) →
      TrySpec settings s item turn outcome
        ({ s with bridge, artifacts }, some (sectionOf validation), some (.error e))
  | promoted {bits : List (BitVec 8)} {validation : ValidationOutcome} {bridge : Bridge}
      {modelId : String} {novelty : Novelty} {coverage : List CoverageRecord}
      {coverageBytes : Nat} :
      outcome.finalReport.inputModel = some bits →
      validation.status = .newCoverageConfirmed →
      Confirms settings.edgeIndex turn.run item.branchPc item.rest.expectedFlipPc
        s.bridge.coverage (bits.map UInt8.ofBitVec) →
      PromoteSpec settings.blake3 turn.queue s.bridge
        (promotionOf item turn (bits.map UInt8.ofBitVec) validation)
        (bridge, .ok (.promoted modelId novelty)) →
      TrySpec settings s item turn outcome
        ({ s with
            bridge
            coverage
            coverageBytes
            report := { s.report with
              modelsPromotedToCorpus := s.report.modelsPromotedToCorpus + 1 } },
          some (sectionOf validation), some (.ok (.promoted modelId novelty)))

theorem tryModel_spec (settings : Settings N S) (s : Session N S)
    (item : FrontierItem N ItemData) (turn : Turn) (outcome : LadderOutcome) :
    TrySpec settings s item turn outcome (s.tryModel settings item turn outcome) := by
  rw [Session.tryModel]
  cases hmodel : outcome.finalReport.inputModel with
  | none => exact .silent hmodel
  | some bits =>
    dsimp only
    generalize hval : validate settings.edgeIndex turn.run (bits.map UInt8.ofBitVec) item.branchPc
      item.rest.expectedFlipPc s.bridge.coverage = validation
    by_cases hstatus : validation.status = .newCoverageConfirmed
    · have hconfirms := validate_confirmed (hval ▸ hstatus)
      have hcrash : ¬ validation.status = .newCrash := by rw [hstatus]; decide
      have hspec := @promote_spec s.bridge (promotionOf item turn (bits.map UInt8.ofBitVec)
        validation) settings.blake3 turn.stage turn.queue hstatus hconfirms.novel
      rw [if_neg hcrash, Session.promote, if_pos hstatus]
      generalize s.bridge.promoteIfNovel settings.blake3 turn.stage turn.queue
        (promotionOf item turn (bits.map UInt8.ofBitVec) validation) = r at hspec ⊢
      have hinsert : ∀ text name, name ≠ "solves.jsonl" →
          (s.artifacts.insert "solves.jsonl" text).get name = s.artifacts.get name :=
        fun text name hne => OrderedMap.get_insert_of_ne hne
      cases hspec with
      | staging hq =>
        exact .failed hmodel hstatus hconfirms (.staging hq) (hinsert _)
      | adding disk hq hadd =>
        exact .failed hmodel hstatus hconfirms (.adding disk hq hadd) (hinsert _)
      | promoted disk hq hadd =>
        cases hline : turn.coverageLine with
        | none => exact .promoted hmodel hstatus hconfirms (.promoted disk hq hadd)
        | some bytes => exact .promoted hmodel hstatus hconfirms (.promoted disk hq hadd)
    · rw [Session.promote, if_neg hstatus]
      by_cases hcrash : validation.status = .newCrash
      · have hchecked := @TrySpec.checked N S settings s item turn outcome validation hstatus
        rw [if_pos hcrash] at hchecked ⊢
        exact hchecked
      · have hchecked := @TrySpec.checked N S settings s item turn outcome validation hstatus
        rw [if_neg hcrash] at hchecked ⊢
        exact hchecked

theorem account_one (entry : Entry N) (r : ConcolicReport) :
    (r.count entry.record.status).add ⟨0, 0, 0, 0, 0, [entry].countP Entry.promoted,
      [entry].countP (Entry.hasStatus .newCrash)⟩ = r.add (account [entry]) := by
  cases hstatus : entry.record.status <;>
    simp [ConcolicReport.count, ConcolicReport.add, account, hstatus]

/-- What the attempt to use a model adds to the report, and what it says of its entry. -/
structure Tried (settings : Settings N S) (s s' : Session N S) (entry : Entry N) : Prop where
  backlog : s'.backlog = s.backlog
  solves : s'.solves = s.solves
  solvesBytes : s'.solvesBytes = s.solvesBytes
  report : s'.report = s.report.add ⟨0, 0, 0, 0, 0, [entry].countP Entry.promoted,
    [entry].countP (Entry.hasStatus .newCrash)⟩
  tried : entry.promotion.isSome = entry.hasStatus .newCoverageConfirmed
  artifacts : ∀ name, name ≠ "solves.jsonl" → s'.artifacts.get name = s.artifacts.get name
  bridge : Bridged settings s.bridge s'.bridge entry

theorem TrySpec.tried {outcome : LadderOutcome} {modelValidation : Option ModelValidationSection}
    {promotion : Option (Except PromoteError PromoteOutcome)}
    (h : TrySpec settings s item turn outcome (s', modelValidation, promotion)) :
    Tried settings s s'
      ⟨item, turn, outcome, recordOf item turn outcome modelValidation, promotion⟩ := by
  have hmodel : ∀ bits record promotion, outcome.finalReport.inputModel = some bits →
      (⟨item, turn, outcome, record, promotion⟩ : Entry N).model = bits.map UInt8.ofBitVec := by
    intro bits record promotion hbits
    rw [Entry.model, hbits]
    rfl
  cases h with
  | silent _ => exact ⟨rfl, rfl, rfl, rfl, rfl, fun _ _ => rfl, .idle rfl⟩
  | @checked validation hstatus =>
    refine ⟨rfl, rfl, rfl, ?_, ?_, fun _ _ => rfl, .idle rfl⟩
    · by_cases hcrash : validation.status = .newCrash
      · simp [ConcolicReport.add, Entry.promoted, Entry.hasStatus, recordOf, sectionOf, hcrash]
      · simp [ConcolicReport.add, Entry.promoted, Entry.hasStatus, recordOf, sectionOf, hcrash]
    · simp [Entry.hasStatus, recordOf, sectionOf, hstatus]
  | @failed bits validation bridge e artifacts hbits hstatus hconfirms hspec hkeep =>
    have hm := hmodel bits (recordOf item turn outcome (some (sectionOf validation)))
      (some (.error e)) hbits
    refine ⟨rfl, rfl, rfl, ?_, ?_, hkeep, Bridged.of_spec hspec rfl hm.symm ?_ (hm ▸ hconfirms)⟩
    · simp [ConcolicReport.add, Entry.promoted, Entry.hasStatus, recordOf, sectionOf, hstatus]
    · simp [Entry.hasStatus, recordOf, sectionOf, hstatus]
    · rw [hm]
      rfl
  | @promoted bits validation bridge modelId novelty coverage bytes hbits hstatus hconfirms hspec =>
    have hm := hmodel bits (recordOf item turn outcome (some (sectionOf validation)))
      (some (.ok (.promoted modelId novelty))) hbits
    refine ⟨rfl, rfl, rfl, ?_, ?_, fun _ _ => rfl,
      Bridged.of_spec hspec rfl hm.symm ?_ (hm ▸ hconfirms)⟩
    · simp [ConcolicReport.add, Entry.promoted, Entry.hasStatus, recordOf, sectionOf, hstatus]
    · simp [Entry.hasStatus, recordOf, sectionOf, hstatus]
    · rw [hm]
      rfl

theorem process_spec (h : s.process settings item turn = some (s', entry)) :
    Processed settings s item turn s' entry := by
  obtain ⟨outcome, hsolve, hresult⟩ := Option.map_eq_some_iff.mp h
  generalize hcounted : ({ s with
    report := s.report.count outcome.finalReport.status
    smt2Count := s.smt2Count + (turn.dump.map fun _ => 1).getD 0
    smt2Bytes := s.smt2Bytes + (turn.dump.map Prod.snd).getD 0 } : Session N S) = counted
      at hresult
  have hspec := tryModel_spec settings counted item turn outcome
  obtain ⟨⟨t, validation, promotion⟩, hr⟩ :
    ∃ r, counted.tryModel settings item turn outcome = r := ⟨_, rfl⟩
  dsimp only at hresult
  rw [hr] at hspec hresult
  obtain ⟨rfl, rfl⟩ := Prod.mk.inj hresult
  obtain ⟨hbacklog, hsolves, hbytes, hreport, htried, hartifacts, hbridge⟩ := hspec.tried
  subst hcounted
  have hone := account_one ⟨item, turn, outcome, recordOf item turn outcome validation, promotion⟩
    s.report
  exact ⟨rfl, rfl, hsolve, rfl, hbacklog, hsolves, hbytes, hreport.trans hone, htried,
    hartifacts, hbridge⟩

end

end Axe.Concolic.ConcolicSession
