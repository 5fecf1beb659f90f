import Axe.Concolic.ConcolicSession

/-!
# Whole runs of the concolic session

The popped branches and the ones that are left share out the queue, the report is the tally of
the records, and the corpus gets the inputs that were promoted.
-/
namespace Axe.Concolic.ConcolicSession

open Axe.Fuzzer (Bridge CoverageMap Input)

section
variable {N S : Type} [LinearOrder S] {settings : Settings N S} {s s' : Session N S}
  {log : List (Entry N)} {stop : Stop N} {entry : Entry N}

namespace Stop

/-- The entry of a turn whose record could not be written. -/
def entries : Stop N → List (Entry N)
  | .failed entry => [entry]
  | _ => []

/-- The branch that was popped last and has no record. -/
def items : Stop N → List (FrontierItem N ItemData)
  | .drained => []
  | .outOfTime item | .panicked item => [item]
  | .failed entry => [entry.item]

end Stop

/-- The branches that were popped. -/
def handled (log : List (Entry N)) (stop : Stop N) : List (FrontierItem N ItemData) :=
  log.map Entry.item ++ stop.items

/-- The same branch, whatever its novelty has become. -/
def SameBranch (a b : FrontierItem N ItemData) : Prop :=
  a.dedupKey = b.dedupKey ∧ a.rest = b.rest

/-- The popped branches and the ones that are left share out the queue. -/
structure SharesOut (queue left : ConcolicBacklog N ItemData S)
    (items : List (FrontierItem N ItemData)) : Prop where
  once : (items.map FrontierItem.dedupKey).Nodup
  keys : ∀ k, k ∈ queue.byKey ↔ k ∈ items.map FrontierItem.dedupKey ∨ k ∈ left.byKey
  gone : ∀ k ∈ items.map FrontierItem.dedupKey, k ∉ left.byKey
  queued : ∀ item ∈ items, ∃ q, queue.byKey.lookup item.dedupKey = some q ∧ SameBranch q item

omit [LinearOrder S] in
theorem sharesOut_nil (queue : ConcolicBacklog N ItemData S) : SharesOut queue queue [] :=
  ⟨List.nodup_nil, fun k => by simp, fun k hk => absurd hk List.not_mem_nil,
    fun item hi => absurd hi List.not_mem_nil⟩

/-- A pop takes one branch out of the queue, and changes nothing but the novelty of the rest. -/
theorem SharesOut.pop {queue mid left : ConcolicBacklog N ItemData S} {order : List Key}
    {item : FrontierItem N ItemData} {items : List (FrontierItem N ItemData)}
    (hpop : PopSpec settings.scoring queue (some item) order mid)
    (h : SharesOut mid left items) : SharesOut queue left (item :: items) := by
  obtain ⟨hlookup, hrest⟩ := hpop.taken item rfl
  have hmid : ∀ k, k ∈ mid.byKey ↔ k ≠ item.dedupKey ∧ k ∈ queue.byKey := by
    intro k
    rw [← Finmap.lookup_isSome, ← Finmap.lookup_isSome, hrest]
    by_cases hk : k = item.dedupKey <;> simp [hk]
  have hqueue : item.dedupKey ∈ queue.byKey :=
    Finmap.lookup_isSome.mp (by rw [hlookup]; rfl)
  have hfresh : item.dedupKey ∉ items.map FrontierItem.dedupKey := fun hmem =>
    ((hmid _).mp ((h.keys _).mpr (.inl hmem))).1 rfl
  refine ⟨List.nodup_cons.mpr ⟨hfresh, h.once⟩, fun k => ?_, fun k hk => ?_, fun i hi => ?_⟩
  · rw [List.map_cons, List.mem_cons]
    constructor
    · intro hk
      by_cases heq : k = item.dedupKey
      · exact .inl (.inl heq)
      · exact ((h.keys k).mp ((hmid k).mpr ⟨heq, hk⟩)).imp_left .inr
    · rintro ((rfl | hk) | hk)
      · exact hqueue
      · exact ((hmid k).mp ((h.keys k).mpr (.inl hk))).2
      · exact ((hmid k).mp ((h.keys k).mpr (.inr hk))).2
  · rcases List.mem_cons.mp hk with rfl | hk
    · exact fun hleft => ((hmid _).mp ((h.keys _).mpr (.inr hleft))).1 rfl
    · exact h.gone k hk
  · rcases List.mem_cons.mp hi with rfl | hi
    · exact ⟨_, hlookup, rfl, rfl⟩
    · obtain ⟨q, hq, hsame⟩ := h.queued i hi
      rw [hrest] at hq
      split at hq
      · cases hq
      · obtain ⟨q', hq', rfl⟩ := Option.map_eq_some_iff.mp hq
        exact ⟨q', hq', hsame⟩

theorem pops_none_byKey {b b' : ConcolicBacklog N ItemData S} {order : List Key}
    (h : Pops settings.scoring b none order b') : b'.byKey = b.byKey := by
  generalize hr : (none : Option (FrontierItem N ItemData)) = r at h
  induction h with
  | empty _ => rfl
  | skip _ _ _ ih => exact ih hr
  | found _ _ _ => cases hr

/-- Every branch of the queue is popped once, or is still there when the run stops. -/
theorem runs_shareOut (h : Runs settings s log s' stop) (hb : s.backlog.InSync settings.scoring) :
    SharesOut s.backlog s'.backlog (handled log stop) ∧
      (stop = .drained → ∀ k, k ∉ s'.backlog.byKey) := by
  induction h with
  | @drained s order backlog hpop =>
    have hnone := (pops_spec hpop hb).nothing rfl
    have hmap : ∀ k, k ∉ backlog.byKey := by
      rw [pops_none_byKey hpop]
      exact hnone
    refine ⟨⟨List.nodup_nil, fun k => ?_, fun k hk => absurd hk List.not_mem_nil,
      fun item hi => absurd hi List.not_mem_nil⟩, fun _ => hmap⟩
    exact iff_of_false (hnone k) fun hk => hk.elim List.not_mem_nil (hmap k)
  | outOfTime hpop _ =>
    exact ⟨(sharesOut_nil _).pop (pops_spec hpop hb), fun h => by cases h⟩
  | panicked hpop _ _ =>
    exact ⟨(sharesOut_nil _).pop (pops_spec hpop hb), fun h => by cases h⟩
  | failed hpop _ hproc _ =>
    have hspec := process_spec hproc
    refine ⟨?_, fun h => by cases h⟩
    rw [hspec.backlog, handled, Stop.items, hspec.ofItem]
    exact (sharesOut_nil _).pop (pops_spec hpop hb)
  | @step s s' t item order backlog turn entry log stop bytes hpop _ hproc _ _ ih =>
    have hspec := process_spec hproc
    have hpopped := pops_spec hpop hb
    have hbacklog : (s'.append entry.record bytes).backlog = backlog := hspec.backlog
    rw [hbacklog] at ih
    obtain ⟨hshare, hdrained⟩ := ih hpopped.inSync
    refine ⟨?_, hdrained⟩
    have hhandled : handled (entry :: log) stop = item :: handled log stop := by
      rw [handled, List.map_cons, hspec.ofItem]
      rfl
    rw [hhandled]
    exact hshare.pop hpopped

theorem account_cons (entry : Entry N) (log : List (Entry N)) :
    account (entry :: log) = (account [entry]).add (account log) := by
  have hcount : ∀ p : Entry N → Bool, (entry :: log).countP p =
      [entry].countP p + log.countP p := fun p => by
    rw [← List.singleton_append, List.countP_append]
  rw [ConcolicReport.add, account, account, account]
  simp only [hcount, List.length_cons, List.length_nil, Nat.zero_add]
  rw [Nat.add_comm 1]

theorem ConcolicReport.add_assoc (a b c : ConcolicReport) : (a.add b).add c = a.add (b.add c) := by
  simp only [ConcolicReport.add, Nat.add_assoc]

theorem ConcolicReport.zero_add (a : ConcolicReport) :
    ConcolicReport.add ⟨0, 0, 0, 0, 0, 0, 0⟩ a = a := by
  simp only [ConcolicReport.add, Nat.zero_add]

theorem account_attempted (log : List (Entry N)) : (account log).solvesAttempted =
    (account log).solvesSat + (account log).solvesUnsat + (account log).solvesUnknown +
      (account log).solvesTimeout := by
  induction log with
  | nil => rfl
  | cons entry log ih =>
    have hone : (account [entry]).solvesAttempted = (account [entry]).solvesSat +
        (account [entry]).solvesUnsat + (account [entry]).solvesUnknown +
          (account [entry]).solvesTimeout := by
      cases hstatus : entry.record.status <;> simp [account, hstatus]
    rw [account_cons]
    simp only [ConcolicReport.add]
    omega

/-- What a run leaves of the counters and the records. -/
structure Accounts (s s' : Session N S) (log : List (Entry N)) (stop : Stop N) : Prop where
  solves : s'.solves = s.solves ++ log.map Entry.record
  report : s'.report = s.report.add (account (log ++ stop.entries))
  tried : ∀ entry ∈ log ++ stop.entries,
    entry.promotion.isSome = entry.hasStatus .newCoverageConfirmed
  artifacts : ∀ name, name ≠ "solves.jsonl" → s'.artifacts.get name = s.artifacts.get name

theorem runs_account (h : Runs settings s log s' stop) : Accounts s s' log stop := by
  induction h with
  | drained _ => exact ⟨(List.append_nil _).symm, rfl, fun _ h => absurd h List.not_mem_nil,
      fun _ _ => rfl⟩
  | outOfTime _ _ => exact ⟨(List.append_nil _).symm, rfl, fun _ h => absurd h List.not_mem_nil,
      fun _ _ => rfl⟩
  | panicked _ _ _ => exact ⟨(List.append_nil _).symm, rfl, fun _ h => absurd h List.not_mem_nil,
      fun _ _ => rfl⟩
  | failed _ _ hproc _ =>
    have hspec := process_spec hproc
    refine ⟨hspec.solves.trans (List.append_nil _).symm, hspec.report, fun e he => ?_,
      hspec.artifacts⟩
    obtain rfl := List.mem_singleton.mp he
    exact hspec.tried
  | @step s s' t item order backlog turn entry log stop bytes _ _ hproc _ _ ih =>
    have hspec := process_spec hproc
    refine ⟨?_, ?_, fun e he => ?_, fun name hname => ?_⟩
    · have hsolves : (s'.append entry.record bytes).solves = s'.solves ++ [entry.record] := rfl
      rw [ih.solves, hsolves, hspec.solves, List.append_assoc]
      rfl
    · have hreport : (s'.append entry.record bytes).report = s'.report := rfl
      rw [ih.report, hreport, hspec.report, ConcolicReport.add_assoc, ← account_cons]
      rfl
    · rcases List.mem_cons.mp he with rfl | he
      · exact hspec.tried
      · exact ih.tried e he
    · exact (ih.artifacts name hname).trans (hspec.artifacts name hname)

/-- A ledger says complete when it has an entry and every entry of it does. -/
theorem deriveOutcome_complete_iff {m : OrderedMap String ArtifactStatusEntry} :
    deriveOutcome m = .complete ↔ m.rows ≠ [] ∧ ∀ row ∈ m.rows, row.2.status = .complete := by
  have hany : ∀ status, ((m.rows.map Prod.snd).any fun entry => decide (entry.status = status)) =
      true ↔ ∃ row ∈ m.rows, row.2.status = status := fun status => by simp [List.any_eq_true]
  by_cases hempty : m.rows = []
  · simp [deriveOutcome, hempty]
  · have hrows : (m.rows.map Prod.snd).isEmpty = false := by simpa using hempty
    constructor
    · intro h
      refine ⟨hempty, fun row hrow => ?_⟩
      have hsome := (hany row.2.status).mpr ⟨row, hrow, rfl⟩
      cases hstatus : row.2.status with
      | complete => rfl
      | incomplete =>
        rw [hstatus] at hsome
        simp only [deriveOutcome, hrows, hsome, Bool.or_true] at h
        cases h
      | failed =>
        rw [hstatus] at hsome
        simp only [deriveOutcome, hrows, hsome, Bool.true_or] at h
        cases h
      | skipped =>
        -- a skipped entry alone is a failure, and one beside a complete one is not complete
        rw [hstatus] at hsome
        simp only [deriveOutcome, hrows, hsome, Bool.true_and] at h
        split_ifs at h
    · rintro ⟨-, hall⟩
      have hnone : ∀ status, status ≠ .complete →
          ((m.rows.map Prod.snd).any fun entry => decide (entry.status = status)) = false := by
        intro status hne
        rw [← Bool.not_eq_true, hany]
        rintro ⟨row, hrow, rfl⟩
        exact hne (hall row hrow)
      obtain ⟨row, hrow⟩ := List.exists_mem_of_ne_nil _ hempty
      have hsome := (hany .complete).mpr ⟨row, hrow, hall row hrow⟩
      have hfailed := hnone .failed (by decide)
      have hincomplete := hnone .incomplete (by decide)
      have hskipped := hnone .skipped (by decide)
      simp only [deriveOutcome, hrows, hfailed, hincomplete, hskipped, hsome]
      rfl

omit [LinearOrder S] in
theorem get_finish (name : String) : (finish s).get name =
    if name = "smt2" then some ⟨.complete, s.smt2Bytes, s.smt2Count, none⟩
    else if name = "coverage.jsonl" then
      some ⟨.complete, s.coverageBytes, s.coverage.length, none⟩
    else if name = "traces.jsonl" ∨ name = "branches.jsonl" ∨ name = "exprs.jsonl" then
      some ⟨.complete, 0, 0, none⟩
    else if name = "solves.jsonl" then some ⟨.complete, s.solvesBytes, s.solves.length, none⟩
    else s.artifacts.get name := by
  rw [finish]
  simp only [OrderedMap.get_insert]
  split_ifs <;> simp_all

omit [LinearOrder S] in
/-- A ledger of a session that marked no other artifact says that the run is complete, whatever
it said of the records before. -/
theorem finish_complete
    (h : ∀ name, name ≠ "solves.jsonl" → s.artifacts.get name = none) :
    deriveOutcome (finish s) = .complete ∧ (finish s).get "solves.jsonl" =
      some ⟨.complete, s.solvesBytes, s.solves.length, none⟩ := by
  have hsolves : (finish s).get "solves.jsonl" =
      some ⟨.complete, s.solvesBytes, s.solves.length, none⟩ := by
    rw [get_finish]
    simp
  refine ⟨deriveOutcome_complete_iff.mpr ⟨fun hempty => ?_, fun row hrow => ?_⟩, hsolves⟩
  · have hmem := OrderedMap.get_eq_some.mp hsolves
    rw [hempty] at hmem
    exact absurd hmem List.not_mem_nil
  · have hget := OrderedMap.get_eq_some.mpr (show (row.1, row.2) ∈ (finish s).rows from hrow)
    rw [get_finish] at hget
    split_ifs at hget
    · exact Option.some.inj hget ▸ rfl
    · exact Option.some.inj hget ▸ rfl
    · exact Option.some.inj hget ▸ rfl
    · exact Option.some.inj hget ▸ rfl
    · rename_i hname
      rw [h _ hname] at hget
      cases hget

/-- The map once the runs of some entries are merged. -/
def merged (coverage : CoverageMap) (log : List (Entry N)) : CoverageMap :=
  (log.filter Entry.promoted).foldl (fun map entry => map ⊔ entry.reach) coverage

/-- The bridge before and after the turns of a log. -/
structure BridgedBy (settings : Settings N S) (b b' : Bridge) (log : List (Entry N)) : Prop where
  inSync : b.corpus.InSync settings.blake3 b.disk → b'.corpus.InSync settings.blake3 b'.disk
  kept : b.corpus.entries ⊆ b'.corpus.entries
  added : ∀ e ∈ b'.corpus.entries, e ∈ b.corpus.entries ∨
    ∃ entry ∈ log, entry.promoted = true ∧ e.input = entry.model
  coverage : b'.coverage = merged b.coverage log
  confirmed : ∀ before entry after, log = before ++ entry :: after → entry.promoted = true →
    Confirms settings.edgeIndex entry.turn.run entry.item.branchPc entry.item.rest.expectedFlipPc
      (merged b.coverage before) entry.model
  found : b.corpus.InSync settings.blake3 b.disk → ∀ entry ∈ log, entry.promoted = true →
    ∃ e ∈ b'.corpus.entries, e.id = Fuzzer.inputId settings.blake3 entry.model

omit [LinearOrder S] in
theorem BridgedBy.nil (b : Bridge) : BridgedBy settings b b [] where
  inSync := id
  kept := fun _ he => he
  added := fun _ he => .inl he
  coverage := rfl
  confirmed := fun before entry after h _ => by simp at h
  found := fun _ entry h _ => absurd h List.not_mem_nil

theorem merged_cons (coverage : CoverageMap) (entry : Entry N) (log : List (Entry N)) :
    merged coverage (entry :: log) =
      merged (if entry.promoted then coverage ⊔ entry.reach else coverage) log := by
  rw [merged, merged]
  cases hp : entry.promoted with
  | false => rw [List.filter_cons_of_neg (by simp [hp])]; rfl
  | true => rw [List.filter_cons_of_pos hp, List.foldl_cons]; rfl

omit [LinearOrder S] in
theorem BridgedBy.cons {b mid b' : Bridge} (hone : Bridged settings b mid entry)
    (h : BridgedBy settings mid b' log) : BridgedBy settings b b' (entry :: log) where
  inSync := fun hb => h.inSync (hone.inSync hb)
  kept := fun _ he => h.kept (hone.kept he)
  added := by
    intro e he
    rcases h.added e he with he | ⟨x, hx, hp, hinput⟩
    · exact (hone.added e he).imp_right fun hx => ⟨entry, List.mem_cons_self, hx⟩
    · exact .inr ⟨x, List.mem_cons_of_mem _ hx, hp, hinput⟩
  coverage := by rw [h.coverage, hone.coverage, ← merged_cons]
  confirmed := by
    intro before x after hlog hp
    cases before with
    | nil =>
      rw [List.nil_append, List.cons.injEq] at hlog
      obtain ⟨rfl, rfl⟩ := hlog
      exact hone.confirmed hp
    | cons y before =>
      rw [List.cons_append, List.cons.injEq] at hlog
      obtain ⟨rfl, rfl⟩ := hlog
      have hconfirmed := h.confirmed before x after rfl hp
      rw [hone.coverage, ← merged_cons] at hconfirmed
      exact hconfirmed
  found := by
    intro hb x hx hp
    rcases List.mem_cons.mp hx with rfl | hx
    · obtain ⟨e, he, hid⟩ := hone.found hb hp
      exact ⟨e, h.kept he, hid⟩
    · exact h.found (hone.inSync hb) x hx hp

theorem runs_bridge (h : Runs settings s log s' stop) :
    BridgedBy settings s.bridge s'.bridge (log ++ stop.entries) := by
  induction h with
  | drained _ => exact .nil _
  | outOfTime _ _ => exact .nil _
  | panicked _ _ _ => exact .nil _
  | failed _ _ hproc _ => exact .cons (process_spec hproc).bridge (.nil _)
  | step _ _ hproc _ _ ih => exact .cons (process_spec hproc).bridge ih

variable {backlog : ConcolicBacklog N ItemData S} {bridge : Bridge}

/-- Every queued branch has one record, or is still queued, or is the one that the run stopped
at. -/
theorem session_records (hb : backlog.InSync settings.scoring)
    (h : Runs settings (new backlog bridge) log s' stop) :
    s'.solves = log.map Entry.record ∧
      SharesOut backlog s'.backlog (handled log stop) ∧
      (stop = .drained → ∀ k, k ∈ backlog.byKey ↔ k ∈ log.map fun e => e.item.dedupKey) := by
  obtain ⟨hshare, hdrained⟩ := runs_shareOut h hb
  refine ⟨(runs_account h).solves, hshare, fun hstop k => ?_⟩
  have hkeys := hshare.keys k
  rw [or_iff_left (hdrained hstop k), hstop, handled, Stop.items, List.append_nil,
    List.map_map] at hkeys
  exact hkeys

/-- The report of a run that returns is the tally of its records, a confirmed input is promoted
unless the disk fails, and the ledger says that the run is complete whether it failed or not. -/
theorem session_report (h : Runs settings (new backlog bridge) log s' stop)
    (hstop : stop.entries = []) :
    s'.report = account log ∧ s'.report.solvesAttempted = s'.solves.length ∧
      s'.report.solvesAttempted = s'.report.solvesSat + s'.report.solvesUnsat +
        s'.report.solvesUnknown + s'.report.solvesTimeout ∧
      (∀ entry ∈ log, entry.promotion.isSome = entry.hasStatus .newCoverageConfirmed) ∧
      deriveOutcome (finish s') = .complete ∧ (finish s').get "solves.jsonl" =
        some ⟨.complete, s'.solvesBytes, s'.solves.length, none⟩ := by
  obtain ⟨hsolves, hreport, htried, hartifacts⟩ := runs_account h
  rw [hstop, List.append_nil] at hreport htried
  have hreport : s'.report = account log := by
    rw [hreport, new, ConcolicReport.zero_add]
  have hlength : s'.solves.length = log.length := by
    rw [hsolves, new, List.nil_append, List.length_map]
  obtain ⟨houtcome, hledger⟩ := finish_complete fun name hname =>
    (hartifacts name hname).trans (OrderedMap.get_empty)
  refine ⟨hreport, ?_, ?_, htried, houtcome, hledger⟩
  · rw [hreport, hlength]
    rfl
  · rw [hreport, account_attempted]

end

/-- A branch whose condition is the constant that the first node holds. -/
def constantBranch : FrontierItem Nat ItemData where
  branchPc := 16
  branchIndex := 0
  noveltyScore := 5
  rest := ⟨"p", 0, 1, "seed", 0, [], 1, true, some 32⟩

def constantSettings : Settings Nat Nat where
  scoring := ⟨FrontierItem.noveltyScore, (· + 1)⟩
  blake3 := Fuzzer.emptyDigest
  edgeIndex := fun _ _ => ⟨0, Fuzzer.MAP_SIZE_pos⟩
  dag := (ExprDag.new.intern (.boolConst true)).2
  timeBudget := none
  z3ExternalMs := 0

def constantQueue : ConcolicBacklog Nat ItemData Nat :=
  ((ConcolicBacklog.withCapacity 1).push constantSettings.scoring constantBranch).1

/-- Every input takes every edge once, and nothing fails. -/
def calmTurn : Turn where
  elapsed := false
  backends := []
  totalMs := 0
  dump := none
  run := fun _ => ⟨.ok, 0, none, fun _ => 1⟩
  stage := .done
  queue := .done
  promoteError := ""
  coverageLine := some 10
  solvesLine := some 20

theorem constantQueue_inSync : constantQueue.InSync constantSettings.scoring :=
  (push_inSync (Nat.le_refl 1) (withCapacity_inSync 1) constantBranch).1

def emptyBridge : Bridge := ⟨.opened, Fuzzer.emptyDisk, fun _ => 0⟩

theorem constant_run : ∃ log s', log.length = 1 ∧
    Runs constantSettings (new constantQueue emptyBridge) log s' .drained := by
  have htop : HeapPop constantQueue.heap ⟨5, 16, (16, 0)⟩ [] := by
    refine ⟨.refl _, fun e he => ?_⟩
    obtain rfl := List.mem_singleton.mp he
    exact .inr ⟨rfl, le_rfl⟩
  have hleft : Enumerates [] (constantQueue.byKey.erase (16, 0)) := by
    refine ⟨List.nodup_nil, fun k => ?_⟩
    rw [← Finmap.mem_keys, show (constantQueue.byKey.erase (16, 0)).keys = ∅ from rfl]
    simp
  obtain ⟨outcome, hsolve⟩ : ∃ outcome, solve calmTurn.backends
      (query constantSettings constantBranch) constantSettings.dag calmTurn.totalMs =
        some outcome := ⟨_, rfl⟩
  obtain ⟨⟨s', entry⟩, hproc⟩ := Option.isSome_iff_exists.mp
    (show (Session.process constantSettings { new constantQueue emptyBridge with
        backlog := ({ constantQueue with heap := [] }.take (16, 0)).ageOthersAfterPop
          constantSettings.scoring [] } constantBranch calmTurn).isSome = true by
      rw [Session.process, hsolve]
      rfl)
  have hempty : (s'.append entry.record 20).backlog.heap = [] :=
    congrArg ConcolicBacklog.heap (process_spec hproc).backlog
  exact ⟨[entry], _, rfl, .step (.found htop rfl hleft) (fun h => by cases h.1) hproc rfl
    (.drained (.empty hempty))⟩

theorem session_records_constant : ∃ (log : List (Entry Nat)) (s' : Session Nat Nat),
    log.length = 1 ∧ s'.solves = log.map Entry.record ∧
      SharesOut constantQueue s'.backlog (handled log .drained) := by
  obtain ⟨log, s', hlength, hrun⟩ := constant_run
  obtain ⟨hsolves, hshare, -⟩ := session_records constantQueue_inSync hrun
  exact ⟨log, s', hlength, hsolves, hshare⟩

theorem session_report_constant : ∃ (log : List (Entry Nat)) (s' : Session Nat Nat),
    log.length = 1 ∧ s'.report = account log ∧ deriveOutcome (finish s') = .complete := by
  obtain ⟨log, s', hlength, hrun⟩ := constant_run
  obtain ⟨hreport, -, -, -, hledger, -⟩ := session_report hrun rfl
  exact ⟨log, s', hlength, hreport, hledger⟩

theorem runs_bridge_constant : ∃ (log : List (Entry Nat)) (s' : Session Nat Nat),
    log.length = 1 ∧ BridgedBy constantSettings emptyBridge s'.bridge log := by
  obtain ⟨log, s', hlength, hrun⟩ := constant_run
  have hbridge : BridgedBy constantSettings emptyBridge s'.bridge (log ++ []) := runs_bridge hrun
  rw [List.append_nil] at hbridge
  exact ⟨log, s', hlength, hbridge⟩

end Axe.Concolic.ConcolicSession
