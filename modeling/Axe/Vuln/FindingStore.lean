import Mathlib.Data.List.Dedup
import Axe.Vuln.Query

/-!
# The store of findings over several runs

A run numbers the findings it emits from one on and keys the rows of the store by these numbers.
Templates and scores are parameters of a run.
-/
namespace Axe.Vuln

structure FindingRecord (Payload : Type) where
  findingId : String
  runId : String
  bugClass : String
  payload : Payload

/-- A number in at least six digits. -/
def findingId (counter : Nat) : String :=
  let digits := Nat.toDigits 10 counter
  String.ofList ("F-".toList ++ List.replicate (6 - digits.length) '0' ++ digits)

def isLifetimeBugClass (bugClass : String) : Bool :=
  ["uaf_candidate", "double_free_candidate"].contains bugClass

/-- What the scoring loop looks up and computes for a chain. -/
structure Scoring (Template Score Payload : Type) where
  templateInFiltered : CandidateChain → Option Template
  lifetimeTemplateFor : String → Template
  score : CandidateChain → Template → Score
  belowThreshold : Score → Bool
  payload : String → CandidateChain → Template → Score → Payload

structure VulnRun (Template Score Payload : Type) where
  runId : String
  enableV11 : Bool
  scoring : Scoring Template Score Payload
  chains : List CandidateChain

variable {Template Score Payload : Type}

namespace VulnRun

variable (run : VulnRun Template Score Payload)

def templateRef (chain : CandidateChain) : Option Template :=
  match run.scoring.templateInFiltered chain with
  | some template => some template
  | none =>
    if isLifetimeBugClass chain.templateId then
      some (run.scoring.lifetimeTemplateFor chain.templateId)
    else none

/-- The finding of a chain, with the number it gets; no finding below the threshold. -/
def emitFinding (counter : Nat) (chain : CandidateChain) : Option (FindingRecord Payload) :=
  (run.templateRef chain).bind fun template =>
    let score := run.scoring.score chain template
    if run.scoring.belowThreshold score then none
    else
      some ⟨findingId counter, run.runId, chain.templateId,
        run.scoring.payload (findingId counter) chain template score⟩

/-- The counter is 32 bits wide and grows with every finding. -/
def scoringLoop : (counter : Nat) → List CandidateChain → List (FindingRecord Payload)
  | _, [] => []
  | counter, chain :: rest =>
    let next := (counter + 1) % 2 ^ 32
    match run.emitFinding next chain with
    | none => scoringLoop counter rest
    | some finding => finding :: scoringLoop next rest

def findings : List (FindingRecord Payload) := run.scoringLoop 0 run.chains

/-- Lifetime findings go to a stream of their own. -/
def defaultFindings : List (FindingRecord Payload) :=
  if run.enableV11 then run.findings.filter fun f => !isLifetimeBugClass f.bugClass
  else run.findings

end VulnRun

/-- The rows of the table, one for each key. -/
structure FindingStore (Payload : Type) where
  rows : List (FindingRecord Payload)
  keys : (rows.map FindingRecord.findingId).Nodup

namespace FindingStore

def empty : FindingStore Payload := ⟨[], List.nodup_nil⟩

/-- `INSERT OR REPLACE`. -/
def insert (store : FindingStore Payload) (f : FindingRecord Payload) : FindingStore Payload where
  rows := store.rows.filter (fun row => row.findingId ≠ f.findingId) ++ [f]
  keys := by
    rw [List.map_append, List.map_singleton]
    refine List.nodup_append.mpr ⟨store.keys.sublist (List.filter_sublist.map _),
      List.nodup_singleton _, fun id hid id' hid' heq => ?_⟩
    obtain ⟨row, hrow, rfl⟩ := List.mem_map.mp hid
    exact of_decide_eq_true (List.mem_filter.mp hrow).2 (heq.trans (List.mem_singleton.mp hid'))

def count (store : FindingStore Payload) : Nat := store.rows.length

/-- One run inserts its findings one after the other. -/
def afterRun (store : FindingStore Payload) (run : VulnRun Template Score Payload) :
    FindingStore Payload :=
  run.defaultFindings.foldl insert store

end FindingStore

/-- Every run's rows are its findings, and there are no others. -/
structure KeepsRuns (runs : List (VulnRun Template Score Payload))
    (store : FindingStore Payload) : Prop where
  rows : ∀ run ∈ runs,
    (store.rows.filter fun row => row.runId = run.runId).Perm run.defaultFindings
  count : store.count = (runs.map fun run => run.defaultFindings.length).sum

namespace VulnRun

variable (run : VulnRun Template Score Payload)

/-- A chain that yields a finding, whatever its number. -/
def emits (chain : CandidateChain) : Bool := (run.emitFinding 0 chain).isSome

/-- The chains that yield findings, each with the number of its finding. -/
def numbered : List (Nat × CandidateChain) :=
  (run.chains.filter run.emits).mapIdx fun i chain => ((i + 1) % 2 ^ 32, chain)

/-- The numbers of the findings that go to the store. -/
def storedNumbers : List Nat :=
  (run.numbered.filter fun row => !(run.enableV11 && isLifetimeBugClass row.2.templateId)).map
    Prod.fst

end VulnRun

variable {run : VulnRun Template Score Payload} {counter : Nat} {chain : CandidateChain}
  {f : FindingRecord Payload} {store : FindingStore Payload}
  {runs : List (VulnRun Template Score Payload)}

theorem findingId_injective : Function.Injective findingId := by
  have hread : ∀ n, Nat.ofDigitChars 10 ((findingId n).toList.drop 2) 0 = n := by
    intro n
    have hdrop : (findingId n).toList.drop 2 =
        List.replicate (6 - (Nat.toDigits 10 n).length) '0' ++ Nat.toDigits 10 n := by
      rw [findingId, String.toList_ofList, List.append_assoc]
      rfl
    rw [hdrop, Nat.ofDigitChars_append, Nat.ofDigitChars_replicate_zero, Nat.mul_zero,
      Nat.ofDigitChars_ten_toDigits]
  intro a b h
  rw [← hread a, h, hread b]

theorem emitFinding_eq_some (h : run.emitFinding counter chain = some f) :
    f.findingId = findingId counter ∧ f.runId = run.runId ∧ f.bugClass = chain.templateId := by
  obtain ⟨template, _, h⟩ := Option.bind_eq_some_iff.mp h
  simp only at h
  split at h
  · cases h
  · cases h
    exact ⟨rfl, rfl, rfl⟩

theorem isSome_emitFinding : (run.emitFinding counter chain).isSome = run.emits chain := by
  rw [VulnRun.emits, VulnRun.emitFinding, VulnRun.emitFinding]
  cases run.templateRef chain with
  | none => rfl
  | some template =>
    simp only [Option.bind_some]
    split <;> rfl

/-- The loop numbers the chains that yield findings one after the other. -/
theorem map_scoringLoop (run : VulnRun Template Score Payload) (counter : Nat)
    (chains : List CandidateChain) :
    (run.scoringLoop counter chains).map (fun f => (f.findingId, f.bugClass)) =
      ((chains.filter run.emits).mapIdx fun i chain => ((counter + (i + 1)) % 2 ^ 32, chain)).map
        fun row => (findingId row.1, row.2.templateId) := by
  induction chains generalizing counter with
  | nil => rfl
  | cons chain rest ih =>
    have hemits : (run.emitFinding ((counter + 1) % 2 ^ 32) chain).isSome = run.emits chain :=
      isSome_emitFinding
    rw [VulnRun.scoringLoop]
    cases hf : run.emitFinding ((counter + 1) % 2 ^ 32) chain with
    | none =>
      rw [hf] at hemits
      simp only
      rw [ih, List.filter_cons_of_neg (by rw [← hemits]; exact Bool.false_ne_true)]
    | some f =>
      rw [hf] at hemits
      obtain ⟨hid, _, hclass⟩ := emitFinding_eq_some hf
      simp only
      rw [List.map_cons, ih, List.filter_cons_of_pos hemits.symm, List.mapIdx_cons, List.map_cons,
        hid, hclass]
      simp only [Nat.zero_add]
      congr 3
      funext i chain
      rw [Nat.mod_add_mod]
      congr 2
      omega

theorem ids_defaultFindings :
    run.defaultFindings.map FindingRecord.findingId = run.storedNumbers.map findingId := by
  have hfindings : run.findings.map (fun f => (f.findingId, f.bugClass)) =
      run.numbered.map fun row => (findingId row.1, row.2.templateId) := by
    have hloop := map_scoringLoop run 0 run.chains
    simp only [Nat.zero_add] at hloop
    exact hloop
  have hdefault : run.defaultFindings.map FindingRecord.findingId =
      ((run.findings.map fun f => (f.findingId, f.bugClass)).filter fun p =>
        !(run.enableV11 && isLifetimeBugClass p.2)).map Prod.fst := by
    rw [List.filter_map, List.map_map, VulnRun.defaultFindings]
    cases run.enableV11 with
    | true => rfl
    | false =>
      have hall : run.findings.filter ((fun p : String × String =>
          !(false && isLifetimeBugClass p.2)) ∘ fun f => (f.findingId, f.bugClass)) =
          run.findings := List.filter_eq_self.mpr fun f _ => rfl
      rw [hall]
      rfl
  rw [hdefault, hfindings, List.filter_map, List.map_map, VulnRun.storedNumbers, List.map_map]
  rfl

theorem runId_of_mem_defaultFindings (h : f ∈ run.defaultFindings) : f.runId = run.runId := by
  have hloop : ∀ chains counter, f ∈ run.scoringLoop counter chains → f.runId = run.runId := by
    intro chains
    induction chains with
    | nil => exact fun _ hmem => absurd hmem List.not_mem_nil
    | cons chain rest ih =>
      intro counter hmem
      rw [VulnRun.scoringLoop] at hmem
      cases hf : run.emitFinding ((counter + 1) % 2 ^ 32) chain with
      | none =>
        simp only [hf] at hmem
        exact ih _ hmem
      | some g =>
        simp only [hf] at hmem
        rcases List.mem_cons.mp hmem with rfl | hmem
        · exact (emitFinding_eq_some hf).2.1
        · exact ih _ hmem
  rw [VulnRun.defaultFindings] at h
  split at h
  · exact hloop _ _ (List.mem_filter.mp h).1
  · exact hloop _ _ h

/-- Findings with new keys are added as they come. -/
theorem rows_foldl_insert {fs : List (FindingRecord Payload)}
    (h : ((store.rows ++ fs).map FindingRecord.findingId).Nodup) :
    (fs.foldl FindingStore.insert store).rows = store.rows ++ fs := by
  induction fs generalizing store with
  | nil => exact (List.append_nil _).symm
  | cons f rest ih =>
    have hrows : (store.insert f).rows = store.rows ++ [f] := by
      refine congrArg (· ++ [f]) (List.filter_eq_self.mpr fun row hrow => ?_)
      rw [List.map_append] at h
      exact decide_eq_true ((List.nodup_append.mp h).2.2 _ (List.mem_map_of_mem hrow) _
        (List.mem_map_of_mem List.mem_cons_self))
    have happend : store.rows ++ f :: rest = (store.insert f).rows ++ rest := by
      rw [hrows, List.append_assoc]
      rfl
    rw [List.foldl_cons, happend, ih (happend ▸ h)]

theorem mem_keys_insert {id : String} : id ∈ (store.insert f).rows.map FindingRecord.findingId ↔
    id ∈ store.rows.map FindingRecord.findingId ∨ id = f.findingId := by
  simp only [FindingStore.insert, List.map_append, List.map_singleton, List.mem_append,
    List.mem_singleton, List.mem_map, List.mem_filter, decide_eq_true_eq]
  constructor
  · rintro (⟨row, ⟨hrow, _⟩, rfl⟩ | rfl)
    · exact Or.inl ⟨row, hrow, rfl⟩
    · exact Or.inr rfl
  · rintro (⟨row, hrow, rfl⟩ | rfl)
    · by_cases heq : row.findingId = f.findingId
      · exact Or.inr heq
      · exact Or.inl ⟨row, ⟨hrow, heq⟩, rfl⟩
    · exact Or.inr rfl

theorem mem_keys_foldl_insert {fs : List (FindingRecord Payload)} {id : String} :
    id ∈ (fs.foldl FindingStore.insert store).rows.map FindingRecord.findingId ↔
      id ∈ store.rows.map FindingRecord.findingId ∨ id ∈ fs.map FindingRecord.findingId := by
  induction fs generalizing store with
  | nil => simp
  | cons f rest ih =>
    rw [List.foldl_cons, ih, mem_keys_insert, List.map_cons, List.mem_cons, or_assoc]

/-- No row is lost only where all keys differ. -/
theorem nodup_of_count {fs : List (FindingRecord Payload)}
    (h : (fs.foldl FindingStore.insert (FindingStore.empty : FindingStore Payload)).count =
      fs.length) : (fs.map FindingRecord.findingId).Nodup := by
  have hperm : ((fs.foldl FindingStore.insert FindingStore.empty).rows.map
      FindingRecord.findingId).Perm (fs.map FindingRecord.findingId).dedup := by
    refine (List.perm_ext_iff_of_nodup (FindingStore.keys _) (List.nodup_dedup _)).mpr fun id => ?_
    rw [mem_keys_foldl_insert, List.mem_dedup]
    exact or_iff_right List.not_mem_nil
  have hlength := hperm.length_eq
  rw [List.length_map] at hlength
  have hfull : (fs.map FindingRecord.findingId).dedup.length =
      (fs.map FindingRecord.findingId).length := by
    rw [← hlength, List.length_map]
    exact h
  exact List.dedup_eq_self.mp ((List.dedup_sublist _).eq_of_length hfull)

def storeAfter (runs : List (VulnRun Template Score Payload)) : FindingStore Payload :=
  runs.foldl FindingStore.afterRun FindingStore.empty

theorem storeAfter_eq : storeAfter runs =
    (runs.flatMap VulnRun.defaultFindings).foldl FindingStore.insert FindingStore.empty := by
  rw [storeAfter, List.foldl_flatMap]
  rfl

theorem ids_flatMap : (runs.flatMap VulnRun.defaultFindings).map FindingRecord.findingId =
    (runs.flatMap VulnRun.storedNumbers).map findingId := by
  rw [List.map_flatMap, List.map_flatMap]
  exact congrArg (fun g => runs.flatMap g) (funext fun run => ids_defaultFindings)

theorem filter_flatMap_runId (hids : (runs.map VulnRun.runId).Nodup) (hrun : run ∈ runs) :
    ((runs.flatMap VulnRun.defaultFindings).filter fun row => row.runId = run.runId) =
      run.defaultFindings := by
  have hothers : ∀ others : List (VulnRun Template Score Payload),
      run.runId ∉ others.map VulnRun.runId →
      ((others.flatMap VulnRun.defaultFindings).filter fun row => row.runId = run.runId) = [] := by
    intro others hnot
    refine List.filter_eq_nil_iff.mpr fun f hf => ?_
    obtain ⟨other, hother, hmem⟩ := List.mem_flatMap.mp hf
    rw [runId_of_mem_defaultFindings hmem, decide_eq_true_iff]
    exact fun heq => hnot (heq ▸ List.mem_map_of_mem hother)
  induction runs with
  | nil => exact absurd hrun List.not_mem_nil
  | cons head rest ih =>
    obtain ⟨hhead, hrest⟩ := List.nodup_cons.mp hids
    rw [List.flatMap_cons, List.filter_append]
    rcases List.mem_cons.mp hrun with rfl | hmem
    · rw [hothers rest hhead, List.append_nil]
      exact List.filter_eq_self.mpr fun f hf =>
        decide_eq_true (runId_of_mem_defaultFindings hf)
    · have hne : run.runId ∉ [head].map VulnRun.runId := by
        intro hin
        exact hhead (List.mem_singleton.mp hin ▸ List.mem_map_of_mem hmem)
      have hnone := hothers [head] hne
      rw [List.flatMap_singleton] at hnone
      rw [hnone, List.nil_append, ih hrest hmem]

/-- The store keeps all findings of runs with names of their own exactly when no two stored
findings of the whole sequence have one number. -/
theorem keeps_runs_iff (runs : List (VulnRun Template Score Payload))
    (hids : (runs.map VulnRun.runId).Nodup) :
    KeepsRuns runs (storeAfter runs) ↔ (runs.flatMap VulnRun.storedNumbers).Nodup := by
  have hnodup : ((runs.flatMap VulnRun.defaultFindings).map FindingRecord.findingId).Nodup ↔
      (runs.flatMap VulnRun.storedNumbers).Nodup := by
    rw [ids_flatMap]
    exact List.nodup_map_iff findingId_injective
  rw [← hnodup, storeAfter_eq]
  constructor
  · intro h
    refine nodup_of_count (h.count.trans ?_)
    rw [List.length_flatMap]
  · intro h
    have hrows : ((runs.flatMap VulnRun.defaultFindings).foldl FindingStore.insert
        FindingStore.empty).rows = runs.flatMap VulnRun.defaultFindings := rows_foldl_insert h
    refine ⟨fun run hrun => ?_, ?_⟩
    · rw [hrows, filter_flatMap_runId hids hrun]
    · rw [FindingStore.count, hrows, List.length_flatMap]

/-- A run whose chains all yield findings with nothing to tell. -/
def plainRun (runId : String) (chains : List CandidateChain) : VulnRun Unit Unit Unit where
  runId := runId
  enableV11 := false
  scoring := ⟨fun _ => some (), fun _ => (), fun _ _ => (), fun _ => false, fun _ _ _ _ => ()⟩
  chains := chains

def recvToMemcpy : CandidateChain :=
  ⟨"C-000001", "unchecked_copy_length", "network_recv", 0x1000, 0x1100, "memcpy", 0x2000, 0x2200,
    .exact, 0, 0, false⟩

/-- A run whose first finding goes to the stream of the lifetime findings. -/
def lifetimeRun : VulnRun Unit Unit Unit :=
  { plainRun "run-2" [⟨"C-000001", "uaf_candidate", "free", 0x1000, 0x1100, "deref", 0x2000, 0x2200,
      .exact, 0, 0, false⟩, recvToMemcpy] with enableV11 := true }

theorem keeps_runs_twoRuns :
    KeepsRuns [plainRun "run-1" [recvToMemcpy], lifetimeRun]
        (storeAfter [plainRun "run-1" [recvToMemcpy], lifetimeRun]) ∧
      (storeAfter [plainRun "run-1" [recvToMemcpy], lifetimeRun]).rows.map
        (fun row => (row.findingId, row.runId)) = [("F-000001", "run-1"), ("F-000002", "run-2")] := by
  have hids : ([plainRun "run-1" [recvToMemcpy], lifetimeRun].map VulnRun.runId).Nodup := by decide
  exact ⟨(keeps_runs_iff _ hids).mpr (by decide), by decide⟩

/-- The first finding of the second run takes the row of the first run's. -/
theorem second_run_overwrites :
    ([plainRun "run-1" [recvToMemcpy], plainRun "run-2" [recvToMemcpy]].map VulnRun.runId).Nodup ∧
      ¬ KeepsRuns [plainRun "run-1" [recvToMemcpy], plainRun "run-2" [recvToMemcpy]]
        (storeAfter [plainRun "run-1" [recvToMemcpy], plainRun "run-2" [recvToMemcpy]]) := by
  refine ⟨by decide +kernel, fun h => ?_⟩
  have hcount := h.count
  exact absurd hcount (by decide +kernel)

end Axe.Vuln
