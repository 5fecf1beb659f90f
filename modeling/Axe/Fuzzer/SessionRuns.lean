import Axe.Fuzzer.Session

/-!
# Coverage and reproducers over a session

Every bucket of the map has a stored input that reaches it, in the runs where each
iteration with new coverage stores its candidate, and in no others.
-/
namespace Axe.Fuzzer

section Runs
variable {blake3 : Hasher} {run : Input → Execution} {fates : Fates} {s : FuzzSession} {d : Disk}
  {candidate : Input} {r : FuzzSession × Disk × Option IterationOutcome}

/-- Every bucket of the map is reached by a stored input. -/
def CoverageStored (run : Input → Execution) (s : FuzzSession) (d : Disk) : Prop :=
  ∀ i, 0 < s.coverageGlobal i →
    ∃ input, s.Stored d input ∧ s.coverageGlobal i ≤ reached (run input).map i

/-- No stored input reaches more than the map says. -/
def Merged (run : Input → Execution) (s : FuzzSession) (d : Disk) : Prop :=
  ∀ input, s.Stored d input → reached (run input).map ≤ s.coverageGlobal

/-- A staged candidate with new coverage is stored. -/
def KeepsNovel (blake3 : Hasher) (run : Input → Execution) (fates : Fates) (s : FuzzSession)
    (candidate : Input) : Prop :=
  fates.stage.ok = true → (∃ i, s.coverageGlobal i < reached (run candidate).map i) →
    Stores blake3 run fates s candidate

theorem IterationSpec.le_coverage (h : IterationSpec blake3 run fates s d candidate r)
    (hstage : fates.stage.ok = true) : reached (run candidate).map ≤ r.1.coverageGlobal := by
  rw [h.coverage, if_pos hstage]
  exact le_sup_right

theorem IterationSpec.coverage_of_unstaged (h : IterationSpec blake3 run fates s d candidate r)
    (hstage : fates.stage.ok = false) : r.1.coverageGlobal = s.coverageGlobal := by
  rw [h.coverage, hstage]
  rfl

theorem IterationSpec.merged (h : IterationSpec blake3 run fates s d candidate r)
    (hm : Merged run s d) : Merged run r.1 r.2.1 := by
  intro input hin
  rcases (h.stored input).mp hin with hin | ⟨rfl, hstage, -⟩
  · rw [h.coverage]
    split
    · exact (hm input hin).trans le_sup_left
    · exact hm input hin
  · exact h.le_coverage hstage

theorem IterationSpec.coverageStored_iff (h : IterationSpec blake3 run fates s d candidate r)
    (hm : Merged run s d) (hc : CoverageStored run s d) :
    CoverageStored run r.1 r.2.1 ↔ KeepsNovel blake3 run fates s candidate := by
  constructor
  · rintro hc' hstage ⟨i, hi⟩
    have hcov : r.1.coverageGlobal i = reached (run candidate).map i := by
      rw [h.coverage, if_pos hstage]
      exact max_eq_right hi.le
    obtain ⟨input, hin, hle⟩ := hc' i (hcov ▸ (Fin.zero_le _).trans_lt hi)
    rcases (h.stored input).mp hin with hin | ⟨-, -, hstores⟩
    · exact absurd (hi.trans_le (hcov ▸ hle)) (not_lt.mpr (hm input hin i))
    · exact hstores
  · intro hk i hi
    have hold : s.coverageGlobal i = r.1.coverageGlobal i →
        ∃ input, r.1.Stored r.2.1 input ∧ r.1.coverageGlobal i ≤ reached (run input).map i := by
      intro heq
      obtain ⟨input, hin, hle⟩ := hc i (heq ▸ hi)
      exact ⟨input, (h.stored input).mpr (.inl hin), heq ▸ hle⟩
    cases hstage : fates.stage.ok with
    | false =>
      exact hold (congrFun (h.coverage_of_unstaged hstage) i).symm
    | true =>
      have hcov : r.1.coverageGlobal i =
          max (s.coverageGlobal i) (reached (run candidate).map i) := by
        rw [h.coverage, if_pos hstage]
        rfl
      rcases lt_or_ge (s.coverageGlobal i) (reached (run candidate).map i) with hlt | hge
      · refine ⟨candidate, (h.stored candidate).mpr (.inr ⟨rfl, hstage, hk hstage ⟨i, hlt⟩⟩), ?_⟩
        rw [hcov, max_eq_right hlt.le]
      · exact hold (by rw [hcov, max_eq_left hge])

/-- A call of a run, with the state it found. -/
structure Iteration where
  session : FuzzSession
  disk : Disk
  fates : Fates
  call : Call

def Iteration.KeepsNovel (blake3 : Hasher) (run : Input → Execution) (it : Iteration) : Prop :=
  ∀ candidate, it.session.candidate it.call = some candidate →
    Fuzzer.KeepsNovel blake3 run it.fates it.session candidate

inductive Run (blake3 : Hasher) (run : Input → Execution) (start : Disk) :
    List Iteration → FuzzSession → Disk → Prop
  | new : Run blake3 run start [] .new start
  | call {its : List Iteration} {s : FuzzSession} {d : Disk} (fates : Fates) (call : Call) :
      Run blake3 run start its s d → Run blake3 run start (⟨s, d, fates, call⟩ :: its)
        (s.call blake3 run fates d call).1 (s.call blake3 run fates d call).2.1

theorem call_spec_seed (run : Input → Execution) (fates : Fates) (bytes : Input)
    (hsync : s.corpus.InSync blake3 d) :
    IterationSpec blake3 run fates s d bytes (s.call blake3 run fates d (.seedWith bytes)) :=
  executeAndRecord_spec run fates bytes hsync none

/-- A call either executes a candidate or changes nothing. -/
theorem call_spec (run : Input → Execution) (fates : Fates) (hsync : s.corpus.InSync blake3 d) (call : Call) :
    (∃ candidate, s.candidate call = some candidate ∧
      IterationSpec blake3 run fates s d candidate (s.call blake3 run fates d call)) ∨
    s.candidate call = none ∧ (s.call blake3 run fates d call).1 = s ∧
      (s.call blake3 run fates d call).2.1 = d := by
  cases call with
  | seedWith bytes => exact .inl ⟨bytes, rfl, call_spec_seed run fates bytes hsync⟩
  | fuzzOne pick mutate =>
    simp only [FuzzSession.candidate, FuzzSession.call]
    cases s.parent pick with
    | none => exact .inr ⟨rfl, rfl, rfl⟩
    | some entry =>
      obtain ⟨hs, hc, hst⟩ := executeAndRecord_spec
        (s := { s with iterCount := s.iterCount + 1 }) run fates (mutate entry.input) hsync
        (some entry.id)
      exact .inl ⟨mutate entry.input, rfl, hs, hc, hst⟩

variable {start : Disk} {its : List Iteration}

theorem Run.sound (hrun : Run blake3 run start its s d) :
    s.corpus.InSync blake3 d ∧ Merged run s d := by
  induction hrun with
  | new =>
    refine ⟨opened_inSync, ?_⟩
    rintro input (⟨e, he, -⟩ | ⟨sig, hsig, -⟩)
    · cases he
    · cases hsig
  | @call its s d fates call _ ih =>
    obtain ⟨hsync, hm⟩ := ih
    rcases call_spec run fates hsync call with ⟨c, -, hspec⟩ | ⟨-, hs, hd⟩
    · exact ⟨hspec.inSync, hspec.merged hm⟩
    · rw [hs, hd]
      exact ⟨hsync, hm⟩

/-- In every state of a run the coverage is stored, exactly if each call with new coverage stores
its candidate. -/
theorem session_coverage_stored_iff (hrun : Run blake3 run start its s d) :
    (∀ it ∈ its, CoverageStored run it.session it.disk) ∧ CoverageStored run s d ↔
      ∀ it ∈ its, it.KeepsNovel blake3 run := by
  induction hrun with
  | new =>
    refine iff_of_true ⟨fun it h => (List.not_mem_nil h).elim, fun i hi => ?_⟩
      fun it h => (List.not_mem_nil h).elim
    exact absurd hi (lt_irrefl _)
  | @call its s d fates call hrun ih =>
    obtain ⟨hsync, hm⟩ := hrun.sound
    have hstep : CoverageStored run s d →
        (CoverageStored run (s.call blake3 run fates d call).1
          (s.call blake3 run fates d call).2.1 ↔ Iteration.KeepsNovel blake3 run ⟨s, d, fates, call⟩) := by
      intro hc
      rcases call_spec run fates hsync call with ⟨c, hcand, hspec⟩ | ⟨hcand, hs, hd⟩
      · rw [hspec.coverageStored_iff hm hc]
        constructor
        · intro hk c' hc'
          cases hcand.symm.trans hc'
          exact hk
        · intro hk
          exact hk c hcand
      · rw [hs, hd]
        refine iff_of_true hc fun c' hc' => ?_
        cases hcand.symm.trans hc'
    simp only [List.forall_mem_cons]
    constructor
    · rintro ⟨⟨hc, hcs⟩, hc'⟩
      exact ⟨(hstep hc).mp hc', ih.mp ⟨hcs, hc⟩⟩
    · rintro ⟨hk, hks⟩
      obtain ⟨hcs, hc⟩ := ih.mpr hks
      exact ⟨⟨hc, hcs⟩, (hstep hc).mpr hk⟩

end Runs

/-- A harness that takes every edge once. -/
def everyEdge : Input → Execution := fun _ => ⟨.ok, 100, none, fun _ => 1⟩

theorem everyEdge_exit (input : Input) : shouldDedupe (everyEdge input).exit = false := rfl

/-- A seed is stored, another cannot be staged, and the file of a candidate without new coverage
cannot be removed. -/
theorem session_coverage_stored_iff_failing :
    ∃ its s d, Run emptyDigest everyEdge emptyDisk its s d ∧ its.length = 3 ∧
      (∀ it ∈ its, CoverageStored everyEdge it.session it.disk) ∧ CoverageStored everyEdge s d := by
  obtain ⟨s₁, d₁, hseed, hmerged⟩ : ∃ s d, Run emptyDigest everyEdge emptyDisk
      [⟨.new, emptyDisk, ⟨.done, .done, .done, .done, .done⟩, .seedWith []⟩] s d ∧
        reached (everyEdge []).map ≤ s.coverageGlobal :=
    have hnew : Run emptyDigest everyEdge emptyDisk [] .new emptyDisk := .new
    ⟨_, _, hnew.call _ _, (call_spec_seed everyEdge _ [] hnew.sound.1).le_coverage rfl⟩
  obtain ⟨s₂, d₂, hunstaged, hkeeps⟩ : ∃ s d, Run emptyDigest everyEdge emptyDisk
      [⟨s₁, d₁, ⟨.failed none, .done, .done, .done, .done⟩, .seedWith [1]⟩,
        ⟨.new, emptyDisk, ⟨.done, .done, .done, .done, .done⟩, .seedWith []⟩] s d ∧
        s.coverageGlobal = s₁.coverageGlobal :=
    ⟨_, _, hseed.call _ _, (call_spec_seed everyEdge _ [1] hseed.sound.1).coverage_of_unstaged rfl⟩
  have hkept := hunstaged.call ⟨.done, .done, .done, .done, .failed none⟩ (.fuzzOne 0 (· ++ [2]))
  refine ⟨_, _, _, hkept, rfl, (session_coverage_stored_iff hkept).mpr ?_⟩
  refine List.forall_mem_cons.mpr ⟨fun candidate _ _ hnovel => ?_, List.forall_mem_cons.mpr
    ⟨fun candidate _ hstage => ?_, List.forall_mem_singleton.mpr fun candidate hc _ hnovel => ?_⟩⟩
  · -- every candidate reaches what the seed reached
    obtain ⟨i, hi⟩ := hnovel
    exact absurd (hmerged.trans_eq hkeeps.symm i) (not_le.mpr hi)
  · cases hstage
  · rw [Stores, everyEdge_exit, if_neg Bool.false_ne_true]
    exact ⟨hnovel, rfl, rfl⟩

/-- The corpus file of the first seed cannot be written. -/
theorem seed_covered_unstored :
    ∃ its s d, Run emptyDigest everyEdge emptyDisk its s d ∧ ¬CoverageStored everyEdge s d := by
  refine ⟨_, _, _, .call ⟨.done, .failed none, .done, .done, .done⟩ (.seedWith []) .new,
    fun h => ?_⟩
  obtain ⟨hsync, hm⟩ := Run.sound (.new : Run emptyDigest everyEdge emptyDisk [] .new emptyDisk)
  have hc : CoverageStored everyEdge .new emptyDisk := fun i hi => absurd hi (lt_irrefl _)
  rcases call_spec everyEdge ⟨.done, .failed none, .done, .done, .done⟩ hsync (.seedWith []) with
    ⟨c, hcand, hspec⟩ | ⟨hcand, -⟩
  · have hone : (0 : Byte) < bucket 1 := by decide
    have hk := (hspec.coverageStored_iff hm hc).mp h rfl ⟨⟨0, MAP_SIZE_pos⟩, hone⟩
    rw [Stores, everyEdge_exit, if_neg Bool.false_ne_true] at hk
    exact Bool.false_ne_true hk.2.2
  · cases hcand

end Axe.Fuzzer
