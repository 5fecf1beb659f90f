import Axe.Fuzzer.Bridge

/-!
# Promotions that interleave

Any number of calls take their locked steps in any order, and each disk operation may
fail. A call touches the shared map only in the step that ends it as promoted, and by
then its input is in the corpus.
-/
namespace Axe.Fuzzer

section Locked
variable {blake3 : Hasher} {p : Promotion} {fate : Fate Input} {b : Bridge}

/-- What a locked step can do. -/
inductive LockedSpec (blake3 : Hasher) (p : Promotion) (fate : Fate Input) (b : Bridge) :
    Progress → Bridge × Progress → Prop
  | refused {result : Except PromoteError PromoteOutcome} :
      (∀ id novelty, result ≠ .ok (.promoted id novelty)) →
      LockedSpec blake3 p fate b .snapshot (b, .returned result)
  | novel {novelty : Novelty} : LockedSpec blake3 p fate b .snapshot (b, .stage novelty)
  | staged {novelty : Novelty} {disk : Disk} {next : Progress} : disk.queue = b.disk.queue →
      next = .add novelty ∨ next = .returned (.error .stagingFailed) →
      LockedSpec blake3 p fate b (.stage novelty) ({ b with disk := disk }, next)
  | addFailed {novelty : Novelty} {corpus : FuzzCorpus} {disk : Disk} :
      AddSpec fate b.corpus b.disk (p.entry blake3 novelty) (corpus, disk, none) →
      LockedSpec blake3 p fate b (.add novelty)
        (⟨corpus, disk, b.coverage⟩, .returned (.error .corpusAddFailed))
  | added {novelty : Novelty} {corpus : FuzzCorpus} {disk : Disk} {idx : Nat} :
      AddSpec fate b.corpus b.disk (p.entry blake3 novelty) (corpus, disk, some idx) →
      LockedSpec blake3 p fate b (.add novelty) (⟨corpus, disk, b.coverage⟩, .merge novelty)
  | merged {novelty : Novelty} : LockedSpec blake3 p fate b (.merge novelty)
      ({ b with coverage := b.coverage ⊔ reached p.localMap },
        .returned (.ok (.promoted (inputId blake3 p.inputBytes) novelty)))
  | idle {result : Except PromoteError PromoteOutcome} :
      LockedSpec blake3 p fate b (.returned result) (b, .returned result)

theorem locked_spec (blake3 : Hasher) (p : Promotion) (fate : Fate Input) (b : Bridge)
    (progress : Progress) :
    LockedSpec blake3 p fate b progress (b.locked blake3 p fate progress) := by
  cases progress with
  | snapshot =>
    simp only [Bridge.locked]
    cases skipReason p.status with
    | some reason => exact .refused fun _ _ h => by cases h
    | none =>
      cases (classifyAgainstSnapshot p.localMap b.coverage).isInteresting with
      | false => exact .refused fun _ _ h => by cases h
      | true => exact .novel
  | stage novelty =>
    refine .staged rfl ?_
    cases fate with
    | done => exact .inl rfl
    | failed left => exact .inr rfl
  | add novelty =>
    have hadd := add_spec fate b.corpus b.disk (p.entry blake3 novelty)
    simp only [Bridge.locked]
    generalize b.corpus.add fate b.disk (p.entry blake3 novelty) = r at hadd ⊢
    obtain ⟨corpus, disk, _ | idx⟩ := r
    · exact .addFailed hadd
    · exact .added hadd
  | merge novelty =>
    simp only [Bridge.locked, mergeIntoGlobal_eq]
    exact .merged
  | returned result => exact .idle

/-- The entries stay, and a new one holds the added input. -/
theorem AddSpec.entries {c : FuzzCorpus} {d : Disk} {entry : QueueEntry}
    {r : FuzzCorpus × Disk × Option Nat} (hadd : AddSpec fate c d entry r) :
    c.entries ⊆ r.1.entries ∧ ∀ e ∈ r.1.entries, e ∈ c.entries ∨ e = entry := by
  cases hadd with
  | known _ => exact ⟨fun _ h => h, fun _ h => .inl h⟩
  | stored _ _ =>
    refine ⟨List.subset_append_left _ _, fun e he => ?_⟩
    rcases List.mem_append.mp he with he | he
    · exact .inl he
    · exact .inr (List.mem_singleton.mp he)
  | failed _ _ _ => exact ⟨fun _ h => h, fun _ h => .inl h⟩

/-- An `add` that answers leaves an entry of the id. -/
theorem AddSpec.found {c : FuzzCorpus} {d : Disk} {entry : QueueEntry} {c' : FuzzCorpus}
    {d' : Disk} {idx : Nat} (hadd : AddSpec fate c d entry (c', d', some idx))
    (hsync : c.InSync blake3 d) : ∃ e ∈ c'.entries, e.id = entry.id := by
  cases hadd with
  | known hid =>
    obtain ⟨e, he, hname⟩ := (hsync.indexed _ _).mp hid
    exact ⟨e, List.mem_of_getElem? he, hname⟩
  | stored _ _ => exact ⟨entry, List.mem_append_right _ List.mem_cons_self, rfl⟩

variable {progress : Progress} {r : Bridge × Progress}

/-- The corpus grows by at most the call's input, and the map never shrinks. -/
theorem LockedSpec.frame (h : LockedSpec blake3 p fate b progress r)
    (hsync : b.corpus.InSync blake3 b.disk) :
    r.1.corpus.InSync blake3 r.1.disk ∧ b.corpus.entries ⊆ r.1.corpus.entries ∧
      (∀ e ∈ r.1.corpus.entries, e ∈ b.corpus.entries ∨ e.input = p.inputBytes) ∧
      b.coverage ≤ r.1.coverage := by
  have hadd : ∀ {novelty corpus disk idx},
      AddSpec fate b.corpus b.disk (p.entry blake3 novelty) (corpus, disk, idx) →
      corpus.InSync blake3 disk ∧ b.corpus.entries ⊆ corpus.entries ∧
        ∀ e ∈ corpus.entries, e ∈ b.corpus.entries ∨ e.input = p.inputBytes := by
    intro novelty corpus disk idx hadd
    obtain ⟨hsub, hnew⟩ := hadd.entries
    exact ⟨hadd.inSync hsync rfl, hsub, fun e he => (hnew e he).imp_right (congrArg _)⟩
  cases h with
  | refused _ => exact ⟨hsync, fun _ h => h, fun _ h => .inl h, le_refl _⟩
  | novel => exact ⟨hsync, fun _ h => h, fun _ h => .inl h, le_refl _⟩
  | staged hq _ => exact ⟨hsync.of_queue hq, fun _ h => h, fun _ h => .inl h, le_refl _⟩
  | addFailed h =>
    obtain ⟨hs, hsub, hnew⟩ := hadd h
    exact ⟨hs, hsub, hnew, le_refl _⟩
  | added h =>
    obtain ⟨hs, hsub, hnew⟩ := hadd h
    exact ⟨hs, hsub, hnew, le_refl _⟩
  | merged => exact ⟨hsync, fun _ h => h, fun _ h => .inl h, le_sup_left⟩
  | idle => exact ⟨hsync, fun _ h => h, fun _ h => .inl h, le_refl _⟩

/-- Only the merge changes the map, and it ends the call as promoted. -/
theorem LockedSpec.coverage (h : LockedSpec blake3 p fate b progress r) :
    r.1.coverage = b.coverage ∨ ∃ novelty, progress = .merge novelty ∧
      r.1.coverage = b.coverage ⊔ reached p.localMap ∧
      r.2 = .returned (.ok (.promoted (inputId blake3 p.inputBytes) novelty)) := by
  cases h with
  | merged => exact .inr ⟨_, rfl, rfl, rfl⟩
  | _ => exact .inl rfl

/-- A call merges next only once its id is in the corpus. -/
theorem LockedSpec.next_merge (h : LockedSpec blake3 p fate b progress r)
    (hsync : b.corpus.InSync blake3 b.disk) {novelty : Novelty} (hr : r.2 = .merge novelty) :
    ∃ e ∈ r.1.corpus.entries, e.id = inputId blake3 p.inputBytes := by
  cases h with
  | added hadd => exact hadd.found hsync
  | staged _ hnext => rcases hnext with rfl | rfl <;> cases hr
  | _ => cases hr

/-- A call that is promoted was so before, or has just merged. -/
theorem LockedSpec.next_promoted (h : LockedSpec blake3 p fate b progress r) {id : String}
    {novelty : Novelty} (hr : r.2 = .returned (.ok (.promoted id novelty))) :
    progress = .returned (.ok (.promoted id novelty)) ∨
      (∃ n, progress = .merge n) ∧ id = inputId blake3 p.inputBytes ∧
        r.1.coverage = b.coverage ⊔ reached p.localMap := by
  cases h with
  | refused hno =>
    cases hr
    exact absurd rfl (hno id novelty)
  | staged _ hnext => rcases hnext with rfl | rfl <;> cases hr
  | merged =>
    cases hr
    exact .inr ⟨⟨_, rfl⟩, rfl, rfl⟩
  | idle => exact .inl hr
  | _ => cases hr

theorem LockedSpec.returned {result : Except PromoteError PromoteOutcome}
    (h : LockedSpec blake3 p fate b (.returned result) r) : r.2 = .returned result := by
  cases h
  rfl

end Locked

section Interleaving
variable {ι : Type} [DecidableEq ι]

structure System (ι : Type) where
  bridge : Bridge
  progress : ι → Progress

/-- A step of a run: who took it, and the shared map before and after. -/
structure Turn (ι : Type) where
  caller : ι
  before : CoverageMap
  after : CoverageMap

def System.turn (blake3 : Hasher) (calls : ι → Promotion) (i : ι) (fate : Fate Input)
    (sys : System ι) : System ι :=
  let r := sys.bridge.locked blake3 (calls i) fate (sys.progress i)
  ⟨r.1, Function.update sys.progress i r.2⟩

/-- The runs of some calls, with the latest step first. -/
inductive Interleaving (blake3 : Hasher) (calls : ι → Promotion) (start : Bridge) :
    List (Turn ι) → System ι → Prop
  | start : Interleaving blake3 calls start [] ⟨start, fun _ => .snapshot⟩
  | turn {turns : List (Turn ι)} {sys : System ι} (i : ι) (fate : Fate Input) :
      Interleaving blake3 calls start turns sys →
      Interleaving blake3 calls start
        (⟨i, sys.bridge.coverage, (sys.turn blake3 calls i fate).bridge.coverage⟩ :: turns)
        (sys.turn blake3 calls i fate)

variable {blake3 : Hasher} {calls : ι → Promotion} {start : Bridge} {turns : List (Turn ι)}
  {sys : System ι}

/-- What every step keeps. -/
structure Transactional (blake3 : Hasher) (calls : ι → Promotion) (start : Bridge)
    (turns : List (Turn ι)) (sys : System ι) : Prop where
  inSync : sys.bridge.corpus.InSync blake3 sys.bridge.disk
  origin : ∀ e ∈ sys.bridge.corpus.entries,
    e ∈ start.corpus.entries ∨ ∃ i, e.input = (calls i).inputBytes
  kept : start.corpus.entries ⊆ sys.bridge.corpus.entries
  adding : ∀ i novelty, sys.progress i = .merge novelty →
    ∃ e ∈ sys.bridge.corpus.entries, e.id = inputId blake3 (calls i).inputBytes
  promoted : ∀ i id novelty, sys.progress i = .returned (.ok (.promoted id novelty)) →
    id = inputId blake3 (calls i).inputBytes ∧ (∃ e ∈ sys.bridge.corpus.entries, e.id = id) ∧
      reached (calls i).localMap ≤ sys.bridge.coverage
  grows : ∀ t ∈ turns, t.before ≤ t.after
  silent : ∀ t ∈ turns, t.after ≠ t.before →
    ∃ id novelty, sys.progress t.caller = .returned (.ok (.promoted id novelty))

theorem Interleaving.advance (hrun : Interleaving blake3 calls start turns sys) (i : ι)
    (fate : Fate Input) {r : Bridge × Progress}
    (h : sys.bridge.locked blake3 (calls i) fate (sys.progress i) = r) : ∃ turns',
      Interleaving blake3 calls start turns' ⟨r.1, Function.update sys.progress i r.2⟩ := by
  subst h
  exact ⟨_, .turn i fate hrun⟩

theorem turn_transactional (h : Transactional blake3 calls start turns sys) (i : ι)
    (fate : Fate Input) : Transactional blake3 calls start
      (⟨i, sys.bridge.coverage, (sys.turn blake3 calls i fate).bridge.coverage⟩ :: turns)
      (sys.turn blake3 calls i fate) := by
  have hspec := locked_spec blake3 (calls i) fate sys.bridge (sys.progress i)
  unfold System.turn
  generalize sys.bridge.locked blake3 (calls i) fate (sys.progress i) = r at hspec ⊢
  obtain ⟨hsync, hsub, hnew, hle⟩ := hspec.frame h.inSync
  have hmono : ∀ id, (∃ e ∈ sys.bridge.corpus.entries, e.id = id) →
      ∃ e ∈ r.1.corpus.entries, e.id = id := fun id ⟨e, he, hid⟩ => ⟨e, hsub he, hid⟩
  have hother : ∀ j, j ≠ i → Function.update sys.progress i r.2 j = sys.progress j := fun j hj =>
    Function.update_of_ne hj _ _
  refine ⟨hsync, ?_, fun _ he => hsub (h.kept he), ?_, ?_, ?_, ?_⟩
  · intro e he
    rcases hnew e he with he | he
    · exact h.origin e he
    · exact .inr ⟨i, he⟩
  · intro j novelty hj
    by_cases hji : j = i
    · subst hji
      exact hspec.next_merge h.inSync ((Function.update_self _ _ _).symm.trans hj)
    · exact hmono _ (h.adding j novelty ((hother j hji).symm.trans hj))
  · intro j id novelty hj
    have hold : sys.progress j = .returned (.ok (.promoted id novelty)) →
        id = inputId blake3 (calls j).inputBytes ∧ (∃ e ∈ r.1.corpus.entries, e.id = id) ∧
          reached (calls j).localMap ≤ r.1.coverage := by
      intro hj
      obtain ⟨hid, he, hc⟩ := h.promoted j id novelty hj
      exact ⟨hid, hmono id he, hc.trans hle⟩
    by_cases hji : j = i
    · subst hji
      rcases hspec.next_promoted ((Function.update_self _ _ _).symm.trans hj) with
        hj | ⟨⟨n, hn⟩, rfl, hc⟩
      · exact hold hj
      · refine ⟨rfl, hmono _ (h.adding j n hn), ?_⟩
        rw [hc]
        exact le_sup_right
    · exact hold ((hother j hji).symm.trans hj)
  · rintro t ht
    rcases List.mem_cons.mp ht with rfl | ht
    · exact hle
    · exact h.grows t ht
  · rintro t ht hne
    rcases List.mem_cons.mp ht with rfl | ht
    · rcases hspec.coverage with heq | ⟨novelty, -, -, hr⟩
      · exact absurd heq hne
      · exact ⟨_, novelty, (Function.update_self _ _ _).trans hr⟩
    · obtain ⟨id, novelty, hprog⟩ := h.silent t ht hne
      refine ⟨id, novelty, ?_⟩
      by_cases hji : t.caller = i
      · rw [← hji] at hspec ⊢
        rw [hprog] at hspec
        exact (Function.update_self _ _ _).trans hspec.returned
      · exact (hother _ hji).trans hprog

theorem Interleaving.transactional (hrun : Interleaving blake3 calls start turns sys)
    (hsync : start.corpus.InSync blake3 start.disk) :
    Transactional blake3 calls start turns sys := by
  induction hrun with
  | start =>
    exact ⟨hsync, fun _ he => .inl he, fun _ he => he, fun _ _ h => (nomatch h),
      fun _ _ _ h => (nomatch h), fun _ h => (List.not_mem_nil h).elim,
      fun _ h => (List.not_mem_nil h).elim⟩
  | turn i fate _ ih => exact turn_transactional ih i fate

/-- Every covered slot is reached by an entry of the corpus. -/
def EntriesReach (execute : Input → CoverageMap) (b : Bridge) : Prop :=
  ∀ slot, b.coverage slot ≠ 0 → ∃ e ∈ b.corpus.entries, execute e.input slot ≠ 0

/-- The inputs of a run: those of the corpus it starts with and those of the calls. -/
def inputsOf (calls : ι → Promotion) (start : Bridge) : Set Input :=
  {x | (∃ e ∈ start.corpus.entries, e.input = x) ∨ ∃ i, (calls i).inputBytes = x}

variable {execute : Input → CoverageMap}

theorem Interleaving.entriesReach (hrun : Interleaving blake3 calls start turns sys)
    (hsync : start.corpus.InSync blake3 start.disk)
    (hexec : ∀ i, (calls i).localMap = execute (calls i).inputBytes)
    (hids : Set.InjOn (inputId blake3) (inputsOf calls start))
    (hstart : EntriesReach execute start) : EntriesReach execute sys.bridge := by
  induction hrun with
  | start => exact hstart
  | @turn turns sys i fate hrun ih =>
    have ht := hrun.transactional hsync
    have hspec := locked_spec blake3 (calls i) fate sys.bridge (sys.progress i)
    obtain ⟨-, hsub, -, -⟩ := hspec.frame ht.inSync
    have hold : ∀ slot, sys.bridge.coverage slot ≠ 0 →
        ∃ e ∈ (sys.turn blake3 calls i fate).bridge.corpus.entries,
          execute e.input slot ≠ 0 := by
      intro slot hslot
      obtain ⟨e, he, hreach⟩ := ih slot hslot
      exact ⟨e, hsub he, hreach⟩
    intro slot hslot
    rcases hspec.coverage with heq | ⟨novelty, hprog, heq, -⟩
    · exact hold slot fun h => hslot ((congrFun heq slot).trans h)
    · have hmax : (sys.turn blake3 calls i fate).bridge.coverage slot =
          max (sys.bridge.coverage slot) (reached (calls i).localMap slot) := congrFun heq slot
      by_cases hcov : sys.bridge.coverage slot = 0
      · -- the call's id names an entry, whose input is the call's
        obtain ⟨e, he, hid⟩ := ht.adding i novelty hprog
        have hin : e.input ∈ inputsOf calls start := (ht.origin e he).imp
          (fun h => ⟨e, h, rfl⟩) (fun ⟨j, hj⟩ => ⟨j, hj.symm⟩)
        have hinput : e.input = (calls i).inputBytes :=
          hids hin (.inr ⟨i, rfl⟩) ((ht.inSync.named e he).symm.trans hid)
        refine ⟨e, hsub he, fun hzero => hslot ?_⟩
        rw [hmax, hcov, reached, hexec i, ← hinput, hzero]
        rfl
      · exact hold slot hcov

/-- Promotion is transactional in every interleaving. -/
theorem promotion_transactional (hrun : Interleaving blake3 calls start turns sys)
    (hsync : start.corpus.InSync blake3 start.disk)
    (hexec : ∀ i, (calls i).localMap = execute (calls i).inputBytes)
    (hids : Set.InjOn (inputId blake3) (inputsOf calls start)) :
    (∀ i result, sys.progress i = .returned result →
        (∀ id novelty, result ≠ .ok (.promoted id novelty)) →
        ∀ t ∈ turns, t.caller = i → t.after = t.before) ∧
      (∀ i id novelty, sys.progress i = .returned (.ok (.promoted id novelty)) →
        id = inputId blake3 (calls i).inputBytes ∧ (∃ e ∈ sys.bridge.corpus.entries, e.id = id) ∧
          ∀ slot, bucket ((calls i).localMap slot) ≤ sys.bridge.coverage slot) ∧
      (∀ t ∈ turns, ∀ slot, t.before slot ≤ t.after slot) ∧
      (EntriesReach execute start → EntriesReach execute sys.bridge) := by
  have ht := hrun.transactional hsync
  refine ⟨?_, fun i id novelty hi => ht.promoted i id novelty hi, fun t h => ht.grows t h,
    hrun.entriesReach hsync hexec hids⟩
  intro i result hi hno t htmem hcaller
  by_contra hne
  obtain ⟨id, novelty, hprog⟩ := ht.silent t htmem hne
  rw [hcaller, hi] at hprog
  exact hno id novelty (Progress.returned.inj hprog)

end Interleaving

/-- The digests of the empty input and of a zero byte. -/
def shortDigest : Hasher := fun bytes =>
  if bytes = [0] then [0x2d, 0x3a, 0xde, 0xdf, 0xf1, 0x1b, 0x61, 0xf1, 0x4c, 0x88, 0x6e, 0x35, 0xaf,
    0xa0, 0x36, 0x73, 0x6d, 0xcd, 0x87, 0xa7, 0x4d, 0x27, 0xb5, 0xc1, 0x51, 0x02, 0x25, 0xd0, 0xf5,
    0x92, 0xe2, 0x13] else emptyDigest bytes

/-- The empty input takes every edge once, the zero byte every edge twice. -/
def shortExecute (input : Input) : CoverageMap := fun _ => if input = [] then 1 else 2

/-- Two confirmed models. -/
def shortModels (zero : Bool) : Promotion :=
  let input := if zero then [0] else []
  ⟨input, none, .newCoverageConfirmed, 100, shortExecute input⟩

theorem shortExecute_novel (input : Input) :
    (classifyAgainstSnapshot (shortExecute input) fun _ => 0).isInteresting = true := by
  have hpos : (0 : Byte) < bucket 1 ∧ (0 : Byte) < bucket 2 := by decide
  refine isInteresting_iff.mpr ⟨⟨0, MAP_SIZE_pos⟩, ?_⟩
  rw [reached, shortExecute]
  split
  · exact hpos.1
  · exact hpos.2

/-- Two calls in turn. The disk fails in the `add` of the one, and the other is promoted. -/
theorem promotion_transactional_race : ∃ turns sys,
    Interleaving shortDigest shortModels ⟨.opened, emptyDisk, fun _ => 0⟩ turns sys ∧
      sys.progress true = .returned (.error .corpusAddFailed) ∧
      (∀ t ∈ turns, t.caller = true → t.after = t.before) ∧
      (∃ id novelty, sys.progress false = .returned (.ok (.promoted id novelty)) ∧
        ∃ e ∈ sys.bridge.corpus.entries, e.id = id) ∧
      EntriesReach shortExecute sys.bridge := by
  have hexec : ∀ zero, (shortModels zero).localMap =
      shortExecute (shortModels zero).inputBytes := fun _ => rfl
  have hfirst : ∀ zero disk, (Bridge.mk .opened disk fun _ => 0).locked shortDigest
      (shortModels zero) .done .snapshot =
        (⟨.opened, disk, fun _ => 0⟩, .stage (classifyAgainstSnapshot
          (shortModels zero).localMap fun _ => 0)) := by
    intro zero disk
    have hnovel := shortExecute_novel (shortModels zero).inputBytes
    rw [Bridge.locked, show skipReason (shortModels zero).status = none from rfl]
    refine congrArg (Prod.mk _) (if_neg ?_)
    rw [hexec, hnovel]
    exact Bool.false_ne_true
  obtain ⟨turns, sys, hrun, hfailed, id, novelty, hdone⟩ : ∃ turns sys,
      Interleaving shortDigest shortModels ⟨.opened, emptyDisk, fun _ => 0⟩ turns sys ∧
        sys.progress true = .returned (.error .corpusAddFailed) ∧
        ∃ id novelty, sys.progress false = .returned (.ok (.promoted id novelty)) := by
    obtain ⟨_, hrun⟩ := Interleaving.advance .start false .done (hfirst false emptyDisk)
    obtain ⟨_, hrun⟩ := hrun.advance true .done (hfirst true emptyDisk)
    obtain ⟨_, hrun⟩ := hrun.advance false .done rfl
    obtain ⟨_, hrun⟩ := hrun.advance true .done rfl
    obtain ⟨_, hrun⟩ := hrun.advance true (.failed none) rfl
    obtain ⟨_, hrun⟩ := hrun.advance false .done rfl
    obtain ⟨_, hrun⟩ := hrun.advance false .done rfl
    exact ⟨_, _, hrun, rfl, _, _, rfl⟩
  have hids : Set.InjOn (inputId shortDigest)
      (inputsOf shortModels ⟨.opened, emptyDisk, fun _ => 0⟩) := by
    have hne : inputId shortDigest [] ≠ inputId shortDigest [0] := by decide
    rintro a ha b hb hab
    rcases ha with ⟨_, h, -⟩ | ⟨i, rfl⟩
    · cases h
    · rcases hb with ⟨_, h, -⟩ | ⟨j, rfl⟩
      · cases h
      · cases i <;> cases j
        · rfl
        · exact absurd hab hne
        · exact absurd hab hne.symm
        · rfl
  obtain ⟨hsilent, hpromoted, -, hreach⟩ :=
    promotion_transactional hrun opened_inSync hexec hids
  refine ⟨turns, sys, hrun, hfailed, hsilent true _ hfailed (fun _ _ h => by cases h),
    ⟨id, novelty, hdone, (hpromoted false id novelty hdone).2.1⟩, hreach fun slot h => ?_⟩
  exact absurd rfl h

end Axe.Fuzzer
