import Axe.Fuzzer.Corpus

/-!
# The fuzz session

One iteration stages the candidate, runs it, merges its coverage and then stores or
drops it. The merge comes before the candidate is stored, so the coverage of a run
that is not stored stays in the map.
-/
namespace Axe.Fuzzer

/-- What a deterministic executor reports, with the map it leaves. -/
structure Execution where
  exit : ExitKind
  execUs : Nat
  crash : Option CrashInfo
  map : CoverageMap

/-- The fates of the disk operations of one call. -/
structure Fates where
  stage : Fate Input
  queue : Fate Input
  crashInput : Fate Input
  crashInfo : Fate (String × CrashInfo)
  discard : Fate Input

structure FuzzSession where
  corpus : FuzzCorpus
  crashes : CrashDb
  coverageGlobal : CoverageMap
  iterCount : Nat

inductive IterationOutcome where
  | newCoverage | newCrash | duplicateCrash | noChange | skip

/-- A call of the session. The pick of the schedule and the mutation are not known. -/
inductive Call where
  | seedWith (bytes : Input)
  | fuzzOne (pick : Nat) (mutate : Input → Input)

section Session
variable (blake3 : Hasher) (run : Input → Execution) (fates : Fates)

namespace FuzzSession

def new : FuzzSession := ⟨.opened, .opened, fun _ => 0, 0⟩

/-- The crash path up to the discard. -/
def storeCrash (s : FuzzSession) (d : Disk) (candidate : Input) :
    CrashDb × Disk × Option IterationOutcome :=
  match (run candidate).crash with
  | some info =>
    let (crashes, d, stored) := s.crashes.dedupAndStore blake3 fates.crashInput fates.crashInfo d
      (inputId blake3 candidate) candidate info
    (crashes, d, stored.map fun sig => if sig.isSome then .newCrash else .duplicateCrash)
  | none => (s.crashes, d, some .duplicateCrash)

/-- The outcome once the staged file is gone, or an error. -/
def discarded (d : Disk) (candidate : Input) (outcome : IterationOutcome) :
    Disk × Option IterationOutcome :=
  let (d, ok) := d.discard fates.discard (inputId blake3 candidate)
  (d, if ok then some outcome else none)

/-- No outcome is an error of the disk. -/
def executeAndRecord (s : FuzzSession) (d : Disk) (candidate : Input) (parentId : Option String) :
    FuzzSession × Disk × Option IterationOutcome :=
  let candId := inputId blake3 candidate
  let (d, staged) := d.stage fates.stage candId candidate
  if !staged then (s, d, none)
  else
    let result := run candidate
    let (novelty, coverage) := classify result.map s.coverageGlobal
    let s := { s with coverageGlobal := coverage }
    if shouldDedupe result.exit then
      let (crashes, d, outcome) := s.storeCrash blake3 run fates d candidate
      let s := { s with crashes := crashes }
      match outcome with
      | none => (s, d, none)
      | some outcome => (s, discarded blake3 fates d candidate outcome)
    else if novelty.isInteresting then
      let entry := ⟨candId, parentId, candidate, .fromNovelty novelty result.execUs⟩
      let (corpus, d, idx) := s.corpus.add fates.queue d entry
      ({ s with corpus := corpus }, d, idx.map fun _ => .newCoverage)
    else (s, discarded blake3 fates d candidate .noChange)

/-- The entry that a call mutates. -/
def parent (s : FuzzSession) (pick : Nat) : Option QueueEntry :=
  s.corpus.entries[pick % s.corpus.entries.length]?

def call (s : FuzzSession) (d : Disk) : Call → FuzzSession × Disk × Option IterationOutcome
  | .seedWith bytes => s.executeAndRecord blake3 run fates d bytes none
  | .fuzzOne pick mutate =>
    match s.parent pick with
    | none => (s, d, some .skip)
    | some entry =>
      { s with iterCount := s.iterCount + 1 }.executeAndRecord blake3 run fates d
        (mutate entry.input) (some entry.id)

/-- The input that a call executes. -/
def candidate (s : FuzzSession) : Call → Option Input
  | .seedWith bytes => some bytes
  | .fuzzOne pick mutate => (s.parent pick).map fun entry => mutate entry.input

end FuzzSession

/-- The session keeps the candidate: the crash is of a new family, or the run is novel and its id
is new, and the files are written. -/
def Stores (s : FuzzSession) (candidate : Input) : Prop :=
  if shouldDedupe (run candidate).exit then
    ∃ info, (run candidate).crash = some info ∧
      s.crashes.seen (signatureFor blake3 info) = none ∧
      fates.crashInput.ok = true ∧ fates.crashInfo.ok = true
  else (∃ i, s.coverageGlobal i < reached (run candidate).map i) ∧
    s.corpus.byId (inputId blake3 candidate) = none ∧ fates.queue.ok = true

end Session

/-- An input that the corpus or the crash database can reproduce. -/
def FuzzSession.Stored (s : FuzzSession) (d : Disk) (input : Input) : Prop :=
  s.corpus.Holds d input ∨ s.crashes.Holds d input

section Spec
variable {blake3 : Hasher} {run : Input → Execution} {fates : Fates} {s : FuzzSession} {d : Disk}
  {candidate : Input}

theorem storeCrash_spec (fates : Fates) (hsync : s.corpus.InSync blake3 d)
    (hexit : shouldDedupe (run candidate).exit = true) :
    let r := s.storeCrash blake3 run fates d candidate
    s.corpus.InSync blake3 r.2.1 ∧ (∀ input, s.corpus.Holds r.2.1 input ↔ s.corpus.Holds d input) ∧
      ∀ input, r.1.Holds r.2.1 input ↔
        s.crashes.Holds d input ∨ input = candidate ∧ Stores blake3 run fates s candidate := by
  rw [Stores, if_pos hexit]
  cases hcrash : (run candidate).crash with
  | none =>
    rw [FuzzSession.storeCrash, hcrash]
    simp [hsync]
  | some info =>
    have hspec := dedup_spec blake3 fates.crashInput fates.crashInfo s.crashes d
      (inputId blake3 candidate) candidate info
    rw [FuzzSession.storeCrash, hcrash]
    dsimp only
    generalize CrashDb.dedupAndStore blake3 fates.crashInput fates.crashInfo s.crashes d
      (inputId blake3 candidate) candidate info = r at hspec ⊢
    have hq : r.2.1.queue = d.queue := by
      cases hspec <;> rfl
    refine ⟨hsync.of_queue hq, fun input => ?_, fun input => ?_⟩
    · simp only [FuzzCorpus.Holds, hq]
    · rw [hspec.holds_iff]
      simp

theorem storeNovel_spec (fates : Fates) (hsync : s.corpus.InSync blake3 d)
    (hexit : shouldDedupe (run candidate).exit = false)
    (hnovel : ∃ i, s.coverageGlobal i < reached (run candidate).map i) (entry : QueueEntry)
    (hid : entry.id = inputId blake3 candidate) (hentry : entry.input = candidate) :
    let r := s.corpus.add fates.queue d entry
    r.1.InSync blake3 r.2.1 ∧ r.2.1.crashInput = d.crashInput ∧
      ∀ input, r.1.Holds r.2.1 input ↔
        s.corpus.Holds d input ∨ input = candidate ∧ Stores blake3 run fates s candidate := by
  have hadd := add_spec fates.queue s.corpus d entry
  generalize s.corpus.add fates.queue d entry = r at hadd ⊢
  refine ⟨hadd.inSync hsync (hentry ▸ hid), ?_, fun input => ?_⟩
  · cases hadd <;> rfl
  · rw [hadd.holds_iff hsync, Stores, hexit, hid, hentry]
    simp [hnovel]

/-- What an iteration with a candidate does: an executed candidate is merged into the map, and
stored if the session keeps it. -/
structure IterationSpec (blake3 : Hasher) (run : Input → Execution) (fates : Fates)
    (s : FuzzSession) (d : Disk) (candidate : Input)
    (r : FuzzSession × Disk × Option IterationOutcome) : Prop where
  inSync : r.1.corpus.InSync blake3 r.2.1
  coverage : r.1.coverageGlobal = if fates.stage.ok then
    s.coverageGlobal ⊔ reached (run candidate).map else s.coverageGlobal
  stored : ∀ input, r.1.Stored r.2.1 input ↔ s.Stored d input ∨
    input = candidate ∧ fates.stage.ok = true ∧ Stores blake3 run fates s candidate

theorem executeAndRecord_spec (run : Input → Execution) (fates : Fates) (candidate : Input)
    (hsync : s.corpus.InSync blake3 d) (parentId : Option String) :
    IterationSpec blake3 run fates s d candidate
      (s.executeAndRecord blake3 run fates d candidate parentId) := by
  unfold FuzzSession.executeAndRecord
  cases hstage : fates.stage.ok with
  | false =>
    simp only [Disk.stage, hstage, Bool.not_false, if_true]
    refine ⟨hsync.of_queue rfl, by simp [hstage], fun _ => ?_⟩
    simp only [hstage, Bool.false_eq_true, false_and, and_false, or_false]
    exact Iff.rfl
  | true =>
    simp only [Disk.stage, hstage, Bool.not_true, Bool.false_eq_true, if_false, classify,
      mergeIntoGlobal_eq]
    generalize hstaged : ({ d with staging := _ } : Disk) = d₁
    have hsync₁ : s.corpus.InSync blake3 d₁ := hsync.of_queue (hstaged ▸ rfl)
    have hold : ∀ input, s.Stored d₁ input ↔ s.Stored d input := fun _ => hstaged ▸ Iff.rfl
    generalize hmerged : s.coverageGlobal ⊔ reached (run candidate).map = merged
    cases hexit : shouldDedupe (run candidate).exit with
    | true =>
      simp only [if_true]
      obtain ⟨hs, hc, hcr⟩ := storeCrash_spec (s := { s with coverageGlobal := merged }) fates
        hsync₁ hexit
      generalize FuzzSession.storeCrash blake3 run fates _ d₁ candidate = r at hs hc hcr ⊢
      have hst : ∀ input, ({ s with coverageGlobal := merged, crashes := r.1 } : FuzzSession).Stored
          r.2.1 input ↔ s.Stored d input ∨ input = candidate ∧ fates.stage.ok = true ∧
            Stores blake3 run fates s candidate := by
        intro input
        have hsame : Stores blake3 run fates { s with coverageGlobal := merged } candidate ↔
            Stores blake3 run fates s candidate := by
          rw [Stores, Stores, if_pos hexit, if_pos hexit]
        rw [FuzzSession.Stored, hc, hcr, ← hold, FuzzSession.Stored, or_assoc, hsame]
        simp [hstage]
      split
      · exact ⟨hs, by simp [hstage, hmerged], hst⟩
      · exact ⟨hs.of_queue rfl, by simp [hstage, hmerged], hst⟩
    | false =>
      simp only [Bool.false_eq_true, if_false]
      split
      · rename_i hnovel
        obtain ⟨hs, hcr, hst⟩ := storeNovel_spec fates hsync₁ hexit
          (isInteresting_iff.mp hnovel) ⟨inputId blake3 candidate, parentId, candidate, _⟩ rfl rfl
        refine ⟨hs, by simp [hstage, hmerged], fun input => ?_⟩
        rw [FuzzSession.Stored, hst, ← hold, FuzzSession.Stored, or_right_comm]
        simp only [hstage, true_and, CrashDb.Holds, hcr]
      · rename_i hnovel
        refine ⟨hsync₁.of_queue rfl, by simp [hstage, hmerged], fun input => ?_⟩
        have hno : ¬Stores blake3 run fates s candidate := by
          rw [Stores, if_neg (by simp [hexit])]
          exact fun h => hnovel (isInteresting_iff.mpr h.1)
        simp only [hno, and_false, or_false]
        exact hold input

end Spec

end Axe.Fuzzer
