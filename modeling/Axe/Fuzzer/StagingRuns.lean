import Axe.Fuzzer.SessionRuns
import Axe.Fuzzer.Bridge

/-!
# What stays in the staging directory

A call that adds its input to the corpus writes a second file there and leaves the
staged one; every other completed call discards it. So the staged files are the inputs
whose execution did not finish and those that were added.
-/
namespace Axe.Fuzzer

section Calls
variable {blake3 : Hasher} {run : Input → Execution} {s : FuzzSession} {d : Disk}

/-- No disk operation fails. -/
def Fates.none : Fates := ⟨.done, .done, .done, .done, .done⟩

/-- The session adds the candidate to its corpus. -/
def FuzzSession.adds (run : Input → Execution) (s : FuzzSession) (candidate : Input) : Bool :=
  !shouldDedupe (run candidate).exit &&
    (classifyAgainstSnapshot (run candidate).map s.coverageGlobal).isInteresting

/-- A completed call leaves the file of an added candidate, and no file of another one. -/
structure StagingSpec (blake3 : Hasher) (run : Input → Execution) (s : FuzzSession) (d : Disk)
    (candidate : Input) (r : FuzzSession × Disk × Option IterationOutcome) : Prop where
  completes : r.2.2.isSome = true
  staging : r.2.1.staging = Function.update d.staging (inputId blake3 candidate)
    (if s.adds run candidate then some candidate else none)

theorem storeCrash_staging (blake3 : Hasher) (run : Input → Execution) (s : FuzzSession)
    (d : Disk) (candidate : Input) :
    (s.storeCrash blake3 run .none d candidate).2.1.staging = d.staging ∧
      (s.storeCrash blake3 run .none d candidate).2.2.isSome = true := by
  unfold FuzzSession.storeCrash
  cases (run candidate).crash with
  | none => exact ⟨rfl, rfl⟩
  | some info =>
    have hspec := dedup_spec blake3 .done .done s.crashes d (inputId blake3 candidate) candidate info
    simp only [Fates.none]
    generalize CrashDb.dedupAndStore blake3 .done .done s.crashes d _ candidate info = r at hspec ⊢
    cases hspec with
    | known _ => exact ⟨rfl, rfl⟩
    | stored _ _ _ => exact ⟨rfl, rfl⟩
    | failed _ _ hfail => rcases hfail with h | h <;> cases h

theorem executeAndRecord_staging (blake3 : Hasher) (run : Input → Execution) (s : FuzzSession)
    (d : Disk) (candidate : Input) (parentId : Option String) :
    StagingSpec blake3 run s d candidate
      (s.executeAndRecord blake3 run .none d candidate parentId) := by
  have hadds : s.adds run candidate = (!shouldDedupe (run candidate).exit &&
      (classifyAgainstSnapshot (run candidate).map s.coverageGlobal).isInteresting) := rfl
  unfold FuzzSession.executeAndRecord
  simp only [Disk.stage, show Fates.none.stage = .done from rfl, Fate.ok, Fate.leaves,
    Bool.not_true, Bool.false_eq_true, if_false, classify]
  generalize hstaged : ({ d with staging := _ } : Disk) = d₁
  have hd₁ : d₁.staging = Function.update d.staging (inputId blake3 candidate) (some candidate) :=
    hstaged ▸ rfl
  have hdrop : Function.update d₁.staging (inputId blake3 candidate) none =
      Function.update d.staging (inputId blake3 candidate) none := by
    rw [hd₁, Function.update_idem]
  cases hexit : shouldDedupe (run candidate).exit with
  | true =>
    rw [hexit, Bool.not_true, Bool.false_and] at hadds
    simp only [if_true]
    have hcrash := storeCrash_staging blake3 run
      { s with coverageGlobal := mergeIntoGlobal (run candidate).map s.coverageGlobal } d₁ candidate
    generalize FuzzSession.storeCrash blake3 run .none _ d₁ candidate = r at hcrash ⊢
    obtain ⟨crashes, d₂, _ | outcome⟩ := r
    · exact absurd hcrash.2 Bool.false_ne_true
    · refine ⟨rfl, ?_⟩
      rw [hadds, if_neg Bool.false_ne_true, ← hdrop, ← hcrash.1]
      rfl
  | false =>
    rw [hexit, Bool.not_false, Bool.true_and] at hadds
    simp only [Bool.false_eq_true, if_false]
    split
    · rename_i hnovel
      have hadd := add_spec .done s.corpus d₁ ⟨inputId blake3 candidate, parentId, candidate,
        .fromNovelty (classifyAgainstSnapshot (run candidate).map s.coverageGlobal)
          (run candidate).execUs⟩
      simp only [show Fates.none.queue = .done from rfl]
      generalize s.corpus.add .done d₁ _ = r at hadd ⊢
      have hkeep : r.2.1.staging = d₁.staging ∧ r.2.2.isSome = true := by
        cases hadd with
        | known _ => exact ⟨rfl, rfl⟩
        | stored _ _ => exact ⟨rfl, rfl⟩
        | failed _ _ hfail => cases hfail
      refine ⟨by rw [Option.isSome_map]; exact hkeep.2, ?_⟩
      rw [hadds, if_pos hnovel, hkeep.1, hd₁]
    · rename_i hnovel
      refine ⟨rfl, ?_⟩
      rw [hadds, if_neg hnovel, ← hdrop]
      rfl

theorem call_staging (blake3 : Hasher) (run : Input → Execution) (s : FuzzSession) (d : Disk)
    (call : Call) :
    (∃ c, s.candidate call = some c ∧
      StagingSpec blake3 run s d c (s.call blake3 run .none d call)) ∨
    s.candidate call = none ∧ (s.call blake3 run .none d call).2.1 = d := by
  cases call with
  | seedWith bytes => exact .inl ⟨bytes, rfl, executeAndRecord_staging blake3 run s d bytes none⟩
  | fuzzOne pick mutate =>
    simp only [FuzzSession.candidate, FuzzSession.call]
    cases s.parent pick with
    | none => exact .inr ⟨rfl, rfl⟩
    | some entry =>
      obtain ⟨hcomp, hst⟩ := executeAndRecord_staging blake3 run
        { s with iterCount := s.iterCount + 1 } d (mutate entry.input) (some entry.id)
      exact .inl ⟨mutate entry.input, rfl, hcomp, hst⟩

/-- The bridge adds the input to its corpus. -/
def Bridge.promotes (b : Bridge) (p : Promotion) : Bool :=
  (skipReason p.status).isNone && (classifyAgainstSnapshot p.localMap b.coverage).isInteresting

/-- A promotion stages its input and leaves the file, or touches nothing. -/
structure PromotionSpec (blake3 : Hasher) (b : Bridge) (p : Promotion)
    (r : Bridge × Except PromoteError PromoteOutcome) : Prop where
  added : b.promotes p = true → (∃ id novelty, r.2 = .ok (.promoted id novelty)) ∧
    r.1.disk.staging =
      Function.update b.disk.staging (inputId blake3 p.inputBytes) (some p.inputBytes)
  kept : b.promotes p = false → r.1 = b ∧ ∀ id novelty, r.2 ≠ .ok (.promoted id novelty)

theorem promoteIfNovel_staging (blake3 : Hasher) (b : Bridge) (p : Promotion) :
    PromotionSpec blake3 b p (b.promoteIfNovel blake3 .done .done p) := by
  have hpromotes : b.promotes p = ((skipReason p.status).isNone &&
    (classifyAgainstSnapshot p.localMap b.coverage).isInteresting) := rfl
  unfold Bridge.promoteIfNovel
  cases hskip : skipReason p.status with
  | some reason =>
    rw [hskip] at hpromotes
    exact ⟨fun h => absurd (hpromotes.symm.trans h) Bool.false_ne_true,
      fun _ => ⟨rfl, fun _ _ h => by cases h⟩⟩
  | none =>
    rw [hskip, Option.isNone_none, Bool.true_and] at hpromotes
    dsimp only
    split
    · rename_i hno
      rw [Bool.not_eq_true', ← hpromotes] at hno
      exact ⟨fun h => absurd (hno.symm.trans h) Bool.false_ne_true,
        fun _ => ⟨rfl, fun _ _ h => by cases h⟩⟩
    · rename_i hnovel
      rw [Bool.not_eq_true', ← hpromotes, Bool.not_eq_false] at hnovel
      have hadd := add_spec .done b.corpus (b.disk.stage .done (inputId blake3 p.inputBytes)
        p.inputBytes).1 (p.entry blake3 (classifyAgainstSnapshot p.localMap b.coverage))
      obtain ⟨r, hr⟩ : ∃ r, b.corpus.add .done (b.disk.stage .done (inputId blake3 p.inputBytes)
        p.inputBytes).1 (p.entry blake3 (classifyAgainstSnapshot p.localMap b.coverage)) = r :=
        ⟨_, rfl⟩
      rw [hr] at hadd
      simp only [Disk.stage, Fate.ok, Bool.not_true, Bool.false_eq_true, if_false] at hr hadd ⊢
      simp only [hr]
      refine ⟨fun _ => ?_, fun h => absurd (h.symm.trans hnovel) Bool.false_ne_true⟩
      cases hadd with
      | known _ => exact ⟨⟨_, _, rfl⟩, rfl⟩
      | stored _ _ => exact ⟨⟨_, _, rfl⟩, rfl⟩
      | failed _ _ hfail => cases hfail

end Calls

section Histories
variable {blake3 : Hasher} {run : Input → Execution}

/-- A session and a bridge with a corpus of its own, over one directory. -/
structure Process where
  session : FuzzSession
  corpus : FuzzCorpus
  coverage : CoverageMap
  disk : Disk

/-- A completed call, or the death of the process while it executes the candidate of a call. -/
inductive Event where
  | fuzz (call : Call)
  | promote (p : Promotion)
  | die (call : Call)

namespace Process

/-- A new process over some files. -/
def opened (disk : Disk) : Process := ⟨.new, .opened, fun _ => 0, disk⟩

def bridge (f : Process) : Bridge := ⟨f.corpus, f.disk, f.coverage⟩

def after (blake3 : Hasher) (run : Input → Execution) (f : Process) : Event → Process
  | .fuzz call =>
    let r := f.session.call blake3 run .none f.disk call
    { f with session := r.1, disk := r.2.1 }
  | .promote p =>
    let b := (f.bridge.promoteIfNovel blake3 .done .done p).1
    { f with corpus := b.corpus, coverage := b.coverage, disk := b.disk }
  | .die call =>
    match f.session.candidate call with
    | some c => opened (f.disk.stage .done (inputId blake3 c) c).1
    | none => f

/-- The input that an event stages. -/
def stages (f : Process) : Event → Option Input
  | .fuzz call => f.session.candidate call
  | .promote p => if f.bridge.promotes p then some p.inputBytes else none
  | .die call => f.session.candidate call

/-- The event adds its input to a corpus. -/
def adds (run : Input → Execution) (f : Process) : Event → Bool
  | .fuzz call => (f.session.candidate call).any (f.session.adds run)
  | .promote p => f.bridge.promotes p
  | .die _ => false

end Process

def Event.dies : Event → Bool
  | .fuzz _ => false
  | .promote _ => false
  | .die _ => true

/-- The staged file of an event stays if the process dies or the input is added. -/
theorem event_staging (f : Process) (ev : Event) :
    (f.after blake3 run ev).disk.staging =
      (f.stages ev).elim f.disk.staging fun c =>
        Function.update f.disk.staging (inputId blake3 c)
          (if ev.dies || f.adds run ev then some c else none) := by
  cases ev with
  | fuzz call =>
    rcases call_staging blake3 run f.session f.disk call with ⟨c, hc, h⟩ | ⟨hc, hd⟩
    · have hadds : f.adds run (.fuzz call) = f.session.adds run c := by
        simp only [Process.adds, hc, Option.any_some]
      rw [Process.stages, hc, hadds, Event.dies, Bool.false_or]
      exact h.staging
    · rw [Process.stages, hc]
      exact congrArg Disk.staging hd
  | promote p =>
    have h := promoteIfNovel_staging blake3 f.bridge p
    have hadds : f.adds run (.promote p) = f.bridge.promotes p := rfl
    cases hp : f.bridge.promotes p with
    | true =>
      rw [Process.stages, hp, if_pos rfl, hadds, hp, Event.dies, Bool.or_true]
      exact (h.added hp).2
    | false =>
      rw [Process.stages, hp, if_neg Bool.false_ne_true, Process.after, (h.kept hp).1]
      rfl
  | die call =>
    rw [Process.stages, Process.after, Event.dies, Bool.true_or]
    cases f.session.candidate call with
    | none => rfl
    | some c => rfl

/-- The events since the files of a first process were found, the latest first. -/
inductive History (blake3 : Hasher) (run : Input → Execution) (start : Disk) :
    List (Process × Event) → Process → Prop
  | opened : History blake3 run start [] (.opened start)
  | event {events : List (Process × Event)} {f : Process} (ev : Event) :
      History blake3 run start events f →
      History blake3 run start ((f, ev) :: events) (f.after blake3 run ev)

/-- The inputs whose execution did not finish, by their ids: the orphans that were found and the
inputs of processes that died, less those that a later call staged and finished. -/
def unfinished (blake3 : Hasher) (start : Disk) : List (Process × Event) → String → Option Input
  | [] => start.staging
  | (f, ev) :: events => (f.stages ev).elim (unfinished blake3 start events) fun c =>
      Function.update (unfinished blake3 start events) (inputId blake3 c)
        (if ev.dies then some c else none)

/-- The last event that staged an id added its input to a corpus. -/
def lastAdded (blake3 : Hasher) (run : Input → Execution) :
    List (Process × Event) → String → Bool
  | [] => fun _ => false
  | (f, ev) :: events => (f.stages ev).elim (lastAdded blake3 run events) fun c =>
      Function.update (lastAdded blake3 run events) (inputId blake3 c) (f.adds run ev)

variable {start : Disk} {events : List (Process × Event)} {f : Process}

theorem Process.adds_of_dies {ev : Event} (h : ev.dies = true) : f.adds run ev = false := by
  cases ev with
  | die call => rfl
  | _ => cases h

/-- A staged file is that of an unfinished input, or of one that was added. -/
theorem History.staging (h : History blake3 run start events f) (id : String) :
    if lastAdded blake3 run events id then
      f.disk.staging id ≠ none ∧ unfinished blake3 start events id = none
    else f.disk.staging id = unfinished blake3 start events id := by
  induction h with
  | opened => rfl
  | @event events f ev _ ih =>
    rw [event_staging, unfinished, lastAdded]
    cases f.stages ev with
    | none => exact ih
    | some c =>
      simp only [Option.elim]
      by_cases hid : id = inputId blake3 c
      · subst hid
        simp only [Function.update_self]
        cases hdies : ev.dies with
        | true => simp [Process.adds_of_dies hdies]
        | false => cases f.adds run ev <;> simp
      · simp only [Function.update_of_ne hid]
        exact ih

/-- A completed call leaves no file of its input exactly if it does not add it to a corpus, and
the orphans are the unfinished inputs exactly if no id was last staged by such a call. -/
theorem staging_unfinished_iff (h : History blake3 run start events f) :
    (∀ ev c, f.stages ev = some c → ev.dies = false →
      ((f.after blake3 run ev).disk.staging (inputId blake3 c) = none ↔
        f.adds run ev = false)) ∧
      (f.disk.recoverOrphans = {o | unfinished blake3 start events o.1 = some o.2} ↔
        ∀ id, lastAdded blake3 run events id = false) := by
  constructor
  · intro ev c hc hdies
    rw [event_staging, hc, hdies]
    cases f.adds run ev <;> simp
  · rw [Set.ext_iff]
    constructor
    · intro heq id
      have hid := h.staging id
      cases hlast : lastAdded blake3 run events id with
      | false => rfl
      | true =>
        rw [hlast, if_pos rfl] at hid
        obtain ⟨c, hc⟩ := Option.ne_none_iff_exists'.mp hid.1
        have := (heq (id, c)).mp hc
        rw [Set.mem_ofPred_eq, hid.2] at this
        cases this
    · rintro hlast ⟨id, c⟩
      have hid := h.staging id
      rw [hlast, if_neg Bool.false_ne_true] at hid
      rw [Disk.recoverOrphans, Set.mem_ofPred_eq, Set.mem_ofPred_eq, hid]

end Histories

theorem everyEdge_adds : FuzzSession.new.adds everyEdge [] = true := by
  have hone : (0 : Byte) < bucket 1 := by decide
  rw [FuzzSession.adds, everyEdge_exit, Bool.not_false, Bool.true_and]
  exact isInteresting_iff.mpr ⟨⟨0, MAP_SIZE_pos⟩, hone⟩

theorem staging_unfinished_iff_died : ∃ events f,
    History emptyDigest everyEdge emptyDisk events f ∧ events.length = 1 ∧
      f.disk.recoverOrphans =
        {o | unfinished emptyDigest emptyDisk events o.1 = some o.2} := by
  have hrun : History emptyDigest everyEdge emptyDisk _ _ := .event (.die (.seedWith [])) .opened
  refine ⟨_, _, hrun, rfl, (staging_unfinished_iff hrun).2.mpr fun id => ?_⟩
  show Function.update (fun _ => false) (inputId emptyDigest []) false id = false
  rw [Function.update_apply, ite_self]

/-- A first seed with new coverage is stored in the corpus and stays staged. -/
theorem newCoverage_stays_staged :
    (FuzzSession.new.call emptyDigest everyEdge .none emptyDisk (.seedWith [])).2.2 =
        some .newCoverage ∧
      (FuzzSession.new.call emptyDigest everyEdge .none emptyDisk
        (.seedWith [])).2.1.staging (inputId emptyDigest []) = some [] := by
  have h := executeAndRecord_staging emptyDigest everyEdge .new emptyDisk [] none
  constructor
  · have hnovel := everyEdge_adds
    rw [FuzzSession.adds, everyEdge_exit, Bool.not_false, Bool.true_and] at hnovel
    simp only [FuzzSession.call, FuzzSession.executeAndRecord, Disk.stage, Fates.none, Fate.ok,
      classify, everyEdge_exit, hnovel, Bool.not_true, Bool.false_eq_true, if_false, if_true]
    rfl
  · rw [FuzzSession.call, h.staging, everyEdge_adds, Function.update_self, if_pos rfl]

end Axe.Fuzzer
