import Mathlib.Algebra.Order.Ring.Nat
import Mathlib.Order.Fin.Basic
import Mathlib.Data.List.FinRange
import Mathlib.Order.Bounds.Basic

/-!
# The edge bitmap

A run fills a map with hit counts; the session keeps the greatest bucket of every
slot. An edge's slot is a hash of its two addresses, and nothing here depends on it.
-/
namespace Axe.Fuzzer

def MAP_SIZE : Nat := 2 ^ 20

theorem MAP_SIZE_pos : 0 < MAP_SIZE := by
  rw [MAP_SIZE]
  exact Nat.two_pow_pos 20

abbrev Byte := Fin 256

instance byteNeZero : NeZero 256 := ⟨by decide⟩

/-- Raw hit counts in a local map, buckets in a global one. -/
abbrev CoverageMap := Fin MAP_SIZE → Byte

/-- The nine bands of a hit count. -/
def bucket (hits : Byte) : Byte :=
  if hits ≤ 3 then hits
  else if hits ≤ 7 then 4
  else if hits ≤ 15 then 5
  else if hits ≤ 31 then 6
  else if hits ≤ 127 then 7
  else 8

structure Novelty where
  newEdges : Nat
  newBuckets : Nat

def Novelty.isInteresting (n : Novelty) : Bool := n.newEdges > 0 || n.newBuckets > 0

def classifyAgainstSnapshot (localMap snapshot : CoverageMap) : Novelty where
  newEdges := (List.finRange MAP_SIZE).countP fun i => localMap i ≠ 0 ∧ snapshot i = 0
  newBuckets := (List.finRange MAP_SIZE).countP fun i =>
    localMap i ≠ 0 ∧ snapshot i ≠ 0 ∧ bucket (localMap i) > snapshot i

def mergeIntoGlobal (localMap globalMap : CoverageMap) : CoverageMap := fun i =>
  if localMap i = 0 then globalMap i
  else if bucket (localMap i) > globalMap i then bucket (localMap i)
  else globalMap i

def classify (localMap globalMap : CoverageMap) : Novelty × CoverageMap :=
  (classifyAgainstSnapshot localMap globalMap, mergeIntoGlobal localMap globalMap)

/-- What a run reaches, as a map of buckets. -/
def reached (localMap : CoverageMap) : CoverageMap := fun i => bucket (localMap i)

theorem bucket_eq_zero {hits : Byte} : bucket hits = 0 ↔ hits = 0 := by
  unfold bucket
  split
  · rfl
  · rename_i h
    have hne : hits ≠ 0 := fun heq => h (heq ▸ by decide)
    refine iff_of_false ?_ hne
    split
    · decide
    · split
      · decide
      · split
        · decide
        · split <;> decide

/-- The merge is the join of the two maps. -/
theorem mergeIntoGlobal_eq (localMap globalMap : CoverageMap) :
    mergeIntoGlobal localMap globalMap = globalMap ⊔ reached localMap := by
  funext i
  show _ = max (globalMap i) (bucket (localMap i))
  unfold mergeIntoGlobal
  split
  · rename_i h
    rw [h, show bucket 0 = 0 from rfl]
    exact (max_eq_left (Fin.zero_le _)).symm
  · split
    · rename_i h
      exact (max_eq_right (le_of_lt h)).symm
    · rename_i h
      exact (max_eq_left (not_lt.mp h)).symm

/-- A run is interesting exactly if it reaches a bucket that the map has not. -/
theorem isInteresting_iff {localMap snapshot : CoverageMap} :
    (classifyAgainstSnapshot localMap snapshot).isInteresting = true ↔
      ∃ i, snapshot i < reached localMap i := by
  simp only [Novelty.isInteresting, classifyAgainstSnapshot, gt_iff_lt, Bool.or_eq_true,
    decide_eq_true_iff, List.countP_pos_iff, List.mem_finRange, true_and]
  constructor
  · rintro (⟨i, hl, hs⟩ | ⟨i, -, -, hlt⟩)
    · refine ⟨i, ?_⟩
      rw [hs]
      exact Fin.pos_iff_ne_zero.mpr fun h => hl (bucket_eq_zero.mp h)
    · exact ⟨i, hlt⟩
  · rintro ⟨i, hlt⟩
    have hl : localMap i ≠ 0 := by
      intro h
      rw [reached, h] at hlt
      exact absurd hlt (not_lt.mpr (Fin.zero_le _))
    by_cases hs : snapshot i = 0
    · exact .inl ⟨i, hl, hs⟩
    · exact .inr ⟨i, hl, hs, hlt⟩

section Runs
variable {localMap globalMap : CoverageMap} {runs : List CoverageMap} {i : Fin MAP_SIZE} {b : Byte}

/-- The merges of many runs, one after another. -/
def mergeRuns (runs : List CoverageMap) (globalMap : CoverageMap) : CoverageMap :=
  runs.foldl (fun globalMap localMap => mergeIntoGlobal localMap globalMap) globalMap

/-- The buckets that a slot ever saw. -/
def slotBuckets (runs : List CoverageMap) (globalMap : CoverageMap) (i : Fin MAP_SIZE) : Set Byte :=
  {b | b = globalMap i ∨ ∃ localMap ∈ runs, b = reached localMap i}

theorem mergeIntoGlobal_apply (localMap globalMap : CoverageMap) (i : Fin MAP_SIZE) :
    mergeIntoGlobal localMap globalMap i = max (globalMap i) (reached localMap i) := by
  rw [mergeIntoGlobal_eq]
  rfl

theorem le_mergeRuns (runs : List CoverageMap) (globalMap : CoverageMap) :
    globalMap i ≤ mergeRuns runs globalMap i := by
  induction runs generalizing globalMap with
  | nil => exact le_rfl
  | cons localMap runs ih =>
    refine le_trans ?_ (ih (mergeIntoGlobal localMap globalMap))
    rw [mergeIntoGlobal_apply]
    exact le_max_left _ _

/-- By induction on the runs, every slot ends with the greatest bucket it saw. -/
theorem mergeRuns_greatest (runs : List CoverageMap) (globalMap : CoverageMap) (i : Fin MAP_SIZE) :
    IsGreatest (slotBuckets runs globalMap i) (mergeRuns runs globalMap i) := by
  induction runs generalizing globalMap with
  | nil =>
    refine ⟨Or.inl rfl, ?_⟩
    rintro b (rfl | ⟨localMap, hmem, -⟩)
    · exact le_rfl
    · exact absurd hmem List.not_mem_nil
  | cons localMap runs ih =>
    obtain ⟨hmem, hbound⟩ := ih (mergeIntoGlobal localMap globalMap)
    have hfirst : max (globalMap i) (reached localMap i) ≤
        mergeRuns (localMap :: runs) globalMap i := by
      rw [← mergeIntoGlobal_apply]
      exact le_mergeRuns runs _
    refine ⟨?_, ?_⟩
    · rcases hmem with heq | ⟨run, hrun, heq⟩
      · rw [mergeIntoGlobal_apply] at heq
        rcases max_choice (globalMap i) (reached localMap i) with hmax | hmax
        · exact .inl (heq.trans hmax)
        · exact .inr ⟨localMap, List.mem_cons_self, heq.trans hmax⟩
      · exact .inr ⟨run, List.mem_cons_of_mem _ hrun, heq⟩
    · rintro b (rfl | ⟨run, hrun, rfl⟩)
      · exact (le_max_left _ _).trans hfirst
      · rcases List.mem_cons.mp hrun with rfl | hrun
        · exact (le_max_right _ _).trans hfirst
        · exact hbound (.inr ⟨run, hrun, rfl⟩)

/-- The slots that a merge changes. -/
def changes (localMap globalMap : CoverageMap) (i : Fin MAP_SIZE) : Bool :=
  mergeIntoGlobal localMap globalMap i ≠ globalMap i

theorem changes_iff : changes localMap globalMap i = true ↔ globalMap i < reached localMap i := by
  rw [changes, decide_eq_true_iff, mergeIntoGlobal_apply, ne_eq, max_eq_left_iff, not_le]

/-- A slot that a merge changes counts as a new edge or as a new bucket. -/
theorem changes_split (localMap globalMap : CoverageMap) (i : Fin MAP_SIZE) :
    decide (localMap i ≠ 0 ∧ globalMap i = 0) = true ∧
      decide (localMap i ≠ 0 ∧ globalMap i ≠ 0 ∧ bucket (localMap i) > globalMap i) = false ∧
      changes localMap globalMap i = true ∨
    decide (localMap i ≠ 0 ∧ globalMap i = 0) = false ∧
      decide (localMap i ≠ 0 ∧ globalMap i ≠ 0 ∧ bucket (localMap i) > globalMap i) =
        changes localMap globalMap i := by
  have hchanges : changes localMap globalMap i = decide (globalMap i < bucket (localMap i)) := by
    rw [Bool.eq_iff_iff, changes_iff, decide_eq_true_iff]
    rfl
  by_cases hl : localMap i = 0
  · right
    have hlt : ¬ globalMap i < bucket (localMap i) := by
      rw [hl]
      exact not_lt.mpr (Fin.zero_le _)
    simp only [hchanges, hl, ne_eq, not_true_eq_false, false_and, decide_false]
    rw [hl] at hlt
    exact ⟨trivial, (decide_eq_false hlt).symm⟩
  · by_cases hg : globalMap i = 0
    · left
      have hlt : globalMap i < bucket (localMap i) := by
        rw [hg]
        exact Fin.pos_iff_ne_zero.mpr fun h => hl (bucket_eq_zero.mp h)
      rw [hchanges]
      refine ⟨decide_eq_true ⟨hl, hg⟩, decide_eq_false ?_, decide_eq_true hlt⟩
      exact fun h => h.2.1 hg
    · right
      rw [hchanges]
      simp only [hl, hg, ne_eq, not_false_eq_true, true_and, and_false, decide_false, gt_iff_lt]

/-- The two counters split the slots that a merge changes. -/
theorem novelty_count (localMap globalMap : CoverageMap) :
    (classifyAgainstSnapshot localMap globalMap).newEdges +
        (classifyAgainstSnapshot localMap globalMap).newBuckets =
      (List.finRange MAP_SIZE).countP (changes localMap globalMap) := by
  unfold classifyAgainstSnapshot
  dsimp only
  generalize List.finRange MAP_SIZE = slots
  induction slots with
  | nil => rfl
  | cons i slots ih =>
    rcases changes_split localMap globalMap i with
      ⟨hedge, hbucket, hall⟩ | ⟨hedge, hbucket⟩
    · simp only [List.countP_cons, hedge, hbucket, hall, if_true, Bool.false_eq_true, if_false]
      omega
    · simp only [List.countP_cons, hedge, hbucket, Bool.false_eq_true, if_false]
      omega

/-- Merging is a join in every slot, and the classification of a run counts the slots that its
merge would change. -/
theorem mergeRuns_join :
    (∀ runs globalMap i, IsGreatest (slotBuckets runs globalMap i) (mergeRuns runs globalMap i)) ∧
    (∀ runs runs' globalMap, (∀ localMap, localMap ∈ runs ↔ localMap ∈ runs') →
      mergeRuns runs globalMap = mergeRuns runs' globalMap) ∧
    ∀ localMap globalMap,
      ((classifyAgainstSnapshot localMap globalMap).isInteresting = true ↔
        mergeIntoGlobal localMap globalMap ≠ globalMap) ∧
      (classifyAgainstSnapshot localMap globalMap).newEdges +
          (classifyAgainstSnapshot localMap globalMap).newBuckets =
        (List.finRange MAP_SIZE).countP (changes localMap globalMap) := by
  refine ⟨mergeRuns_greatest, fun runs runs' globalMap hsame => ?_, fun localMap globalMap =>
    ⟨?_, novelty_count localMap globalMap⟩⟩
  · funext i
    have hset : slotBuckets runs globalMap i = slotBuckets runs' globalMap i := by
      unfold slotBuckets
      simp only [hsame]
    refine (mergeRuns_greatest runs globalMap i).unique ?_
    rw [hset]
    exact mergeRuns_greatest runs' globalMap i
  · rw [isInteresting_iff, Function.ne_iff]
    exact exists_congr fun i => changes_iff.symm.trans decide_eq_true_iff

end Runs

end Axe.Fuzzer
