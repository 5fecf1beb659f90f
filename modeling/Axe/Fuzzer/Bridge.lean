import Axe.Fuzzer.Corpus
import Mathlib.Data.Set.Function

/-!
# The bridge from the concolic engine to the corpus

A promotion takes a snapshot of the shared map, stages the input, adds it to the
corpus and merges its coverage. Each of these holds a lock, and between them other
calls may take theirs.
-/
namespace Axe.Fuzzer

inductive ValidationStatus where
  | valid | modelMismatch | unreachableInRealRun | newCoverageConfirmed | newCrash
  deriving DecidableEq

/-- The arguments of a promotion. -/
structure Promotion where
  inputBytes : Input
  parentSeedId : Option String
  status : ValidationStatus
  execUs : Nat
  localMap : CoverageMap

inductive PromoteError where
  | stagingFailed | corpusAddFailed

inductive PromoteOutcome where
  | skipped (reason : String)
  | notNovel (snapshotNovelty : Novelty)
  | promoted (modelId : String) (novelty : Novelty)

/-- The state behind the two locks, and the disk. -/
structure Bridge where
  corpus : FuzzCorpus
  disk : Disk
  coverage : CoverageMap

/-- Only a confirmed model is promoted. -/
def skipReason : ValidationStatus → Option String
  | .newCoverageConfirmed => none
  | .newCrash => some "new_crash_handled_by_crashdb"
  | .valid => some "valid_no_new_coverage"
  | .modelMismatch => some "model_mismatch"
  | .unreachableInRealRun => some "unreachable_in_real_run"

def Promotion.entry (blake3 : Hasher) (p : Promotion) (novelty : Novelty) : QueueEntry :=
  ⟨inputId blake3 p.inputBytes, p.parentSeedId, p.inputBytes, .fromNovelty novelty p.execUs⟩

/-- A promotion that no other call interrupts. -/
def Bridge.promoteIfNovel (blake3 : Hasher) (stage queue : Fate Input) (b : Bridge)
    (p : Promotion) : Bridge × Except PromoteError PromoteOutcome :=
  match skipReason p.status with
  | some reason => (b, .ok (.skipped reason))
  | none =>
    let novelty := classifyAgainstSnapshot p.localMap b.coverage
    if !novelty.isInteresting then (b, .ok (.notNovel novelty))
    else
      let modelId := inputId blake3 p.inputBytes
      let (disk, ok) := b.disk.stage stage modelId p.inputBytes
      if !ok then ({ b with disk := disk }, .error .stagingFailed)
      else
        let (corpus, disk, idx) := b.corpus.add queue disk (p.entry blake3 novelty)
        if idx.isNone then (⟨corpus, disk, b.coverage⟩, .error .corpusAddFailed)
        else (⟨corpus, disk, mergeIntoGlobal p.localMap b.coverage⟩, .ok (.promoted modelId novelty))

/-- How far a call is: the lock it takes next, or what it returned. -/
inductive Progress where
  | snapshot
  | stage (novelty : Novelty)
  | add (novelty : Novelty)
  | merge (novelty : Novelty)
  | returned (result : Except PromoteError PromoteOutcome)

/-- The next locked step of a call. -/
def Bridge.locked (blake3 : Hasher) (p : Promotion) (fate : Fate Input) (b : Bridge) :
    Progress → Bridge × Progress
  | .snapshot =>
    match skipReason p.status with
    | some reason => (b, .returned (.ok (.skipped reason)))
    | none =>
      let novelty := classifyAgainstSnapshot p.localMap b.coverage
      (b, if !novelty.isInteresting then .returned (.ok (.notNovel novelty)) else .stage novelty)
  | .stage novelty =>
    let (disk, ok) := b.disk.stage fate (inputId blake3 p.inputBytes) p.inputBytes
    ({ b with disk := disk }, if !ok then .returned (.error .stagingFailed) else .add novelty)
  | .add novelty =>
    let (corpus, disk, idx) := b.corpus.add fate b.disk (p.entry blake3 novelty)
    (⟨corpus, disk, b.coverage⟩,
      if idx.isNone then .returned (.error .corpusAddFailed) else .merge novelty)
  | .merge novelty =>
    ({ b with coverage := mergeIntoGlobal p.localMap b.coverage },
      .returned (.ok (.promoted (inputId blake3 p.inputBytes) novelty)))
  | .returned result => (b, .returned result)

/-- The locked steps of a call, one after the other, are the promotion. -/
theorem locked_alone (blake3 : Hasher) (p : Promotion) (stage queue : Fate Input) (b : Bridge) :
    let step := fun fate (s : Bridge × Progress) => s.1.locked blake3 p fate s.2
    step .done (step queue (step stage (step .done (b, .snapshot)))) =
      ((b.promoteIfNovel blake3 stage queue p).1,
        .returned (b.promoteIfNovel blake3 stage queue p).2) := by
  intro step
  cases hskip : skipReason p.status with
  | some reason =>
    have hfirst : step .done (b, .snapshot) = (b, .returned (.ok (.skipped reason))) := by
      simp only [step, Bridge.locked, hskip]
    have hwhole : b.promoteIfNovel blake3 stage queue p = (b, .ok (.skipped reason)) := by
      simp only [Bridge.promoteIfNovel, hskip]
    rw [hfirst, hwhole]
    rfl
  | none =>
    obtain ⟨novelty, hnovelty⟩ : ∃ n, classifyAgainstSnapshot p.localMap b.coverage = n := ⟨_, rfl⟩
    cases hinteresting : novelty.isInteresting with
    | false =>
      have hfirst : step .done (b, .snapshot) = (b, .returned (.ok (.notNovel novelty))) := by
        simp only [step, Bridge.locked, hskip, hnovelty, hinteresting, Bool.not_false, if_true]
      have hwhole : b.promoteIfNovel blake3 stage queue p = (b, .ok (.notNovel novelty)) := by
        simp only [Bridge.promoteIfNovel, hskip, hnovelty, hinteresting, Bool.not_false, if_true]
      rw [hfirst, hwhole]
      rfl
    | true =>
      have hfirst : step .done (b, .snapshot) = (b, .stage novelty) := by
        simp only [step, Bridge.locked, hskip, hnovelty, hinteresting, Bool.not_true,
          Bool.false_eq_true, if_false]
      obtain ⟨⟨disk, ok⟩, hstage⟩ :
          ∃ r, b.disk.stage stage (inputId blake3 p.inputBytes) p.inputBytes = r := ⟨_, rfl⟩
      rw [hfirst, show step stage (b, .stage novelty) = ({ b with disk := disk },
        if !ok then .returned (.error .stagingFailed) else .add novelty) by
          simp only [step, Bridge.locked, hstage]]
      simp only [Bridge.promoteIfNovel, hskip, hnovelty, hinteresting, hstage, Bool.not_true,
        Bool.false_eq_true, if_false]
      cases ok with
      | false => rfl
      | true =>
        obtain ⟨⟨corpus, disk', idx⟩, hadd⟩ :
            ∃ r, b.corpus.add queue disk (p.entry blake3 novelty) = r := ⟨_, rfl⟩
        simp only [step, Bridge.locked, Bool.not_true, Bool.false_eq_true, if_false, hadd]
        cases idx <;> rfl

end Axe.Fuzzer
