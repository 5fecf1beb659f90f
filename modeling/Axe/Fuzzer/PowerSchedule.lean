import Axe.Lib.Checked
import Mathlib.Algebra.BigOperators.Group.List.Basic
import Mathlib.Data.List.Range

/-!
# The power schedule

The score of an entry grows with its novelty and shrinks with every so many picks, and an entry is
picked in proportion to its score. Sums of scores saturate at 32 bits; the penalty is cut to
32 bits instead.
-/
namespace Axe.Fuzzer

open Checked (Fault)

structure PowerSchedule where
  rareEdgeWeight : UInt32
  speedWeight : UInt32
  fuzzCountPenaltyDiv : UInt32
  divides : fuzzCountPenaltyDiv ≠ 0

/-- What the score reads of the metadata of an entry. -/
structure EntryMetadata where
  noveltyNewEdges : UInt32
  noveltyNewBuckets : UInt32
  execUs : UInt64
  favored : Bool
  timesFuzzed : UInt64

def saturatingAdd (a b : Nat) : Nat := min (a + b) (2 ^ 32 - 1)

def saturatingMul (a b : Nat) : Nat := min (a * b) (2 ^ 32 - 1)

/-- The sum of scores, which has to fit into 64 bits. -/
def totalWeight : List Nat → Except Fault Nat
  | [] => .ok 0
  | w :: ws => do Checked.add 64 w (← totalWeight ws)

/-- The entry in whose share a number falls. -/
def walk (needle : Nat) : (weights : List Nat) → (idx : Nat) → Option Nat
  | [], _ => none
  | w :: ws, idx => if needle < w then some idx else walk (needle - w) ws (idx + 1)

namespace PowerSchedule

variable (schedule : PowerSchedule)

def speedBonus (m : EntryMetadata) : Nat :=
  if m.execUs < 1000 then schedule.speedWeight.toNat
  else if m.execUs < 10000 then schedule.speedWeight.toNat / 2
  else 0

def penalty (m : EntryMetadata) : Nat :=
  m.timesFuzzed.toNat / schedule.fuzzCountPenaltyDiv.toNat % 2 ^ 32

def score (m : EntryMetadata) : Nat :=
  let s := saturatingAdd 1 (saturatingMul schedule.rareEdgeWeight.toNat m.noveltyNewEdges.toNat)
  let s := saturatingAdd s
    (saturatingMul (schedule.rareEdgeWeight.toNat / 2) m.noveltyNewBuckets.toNat)
  let s := saturatingAdd s (schedule.speedBonus m)
  let s := if m.favored then saturatingAdd s 5 else s
  max (s - schedule.penalty m) 1

/-- The index of the entry for a random number. -/
def pick (corpus : List EntryMetadata) (random : UInt64) : Except Fault (Option Nat) :=
  if corpus = [] then return none
  else do
    let weights := corpus.map schedule.score
    let total ← totalWeight weights
    if total = 0 then return some 0
    return some ((walk (random.toNat % total) weights 0).getD (weights.length - 1))

/-- What an entry has earned, no sum cut off. -/
def bonus (m : EntryMetadata) : Nat :=
  schedule.rareEdgeWeight.toNat * m.noveltyNewEdges.toNat +
    schedule.rareEdgeWeight.toNat / 2 * m.noveltyNewBuckets.toNat + schedule.speedBonus m +
    if m.favored then 5 else 0

end PowerSchedule

section Score
variable {schedule : PowerSchedule} {m : EntryMetadata}

theorem score_eq (schedule : PowerSchedule) (m : EntryMetadata) : schedule.score m =
    max (min (1 + schedule.bonus m) (2 ^ 32 - 1) - schedule.penalty m) 1 := by
  unfold PowerSchedule.score PowerSchedule.bonus saturatingAdd saturatingMul
  cases m.favored <;> simp only [if_true, if_false, Bool.false_eq_true] <;> congr 2 <;> omega

theorem score_pos : 1 ≤ schedule.score m := by
  rw [score_eq]
  exact le_max_right _ _

theorem score_mono_edges {n n' : UInt32} (h : n ≤ n') :
    schedule.score { m with noveltyNewEdges := n } ≤
      schedule.score { m with noveltyNewEdges := n' } := by
  have hmul : schedule.rareEdgeWeight.toNat * n.toNat ≤ schedule.rareEdgeWeight.toNat * n'.toNat :=
    Nat.mul_le_mul_left _ (UInt32.le_iff_toNat_le.mp h)
  have hbonus : schedule.bonus { m with noveltyNewEdges := n } ≤
      schedule.bonus { m with noveltyNewEdges := n' } := by
    unfold PowerSchedule.bonus PowerSchedule.speedBonus
    dsimp only
    omega
  rw [score_eq, score_eq]
  have hpenalty : schedule.penalty { m with noveltyNewEdges := n } =
      schedule.penalty { m with noveltyNewEdges := n' } := rfl
  omega

/-- What is left of the penalty for a count when it is cut to 32 bits. -/
def cutPenalty (schedule : PowerSchedule) (t : UInt64) : Nat :=
  t.toNat / schedule.fuzzCountPenaltyDiv.toNat % 2 ^ 32

/-- A greater count does not raise the score just when the cut penalty does not fall, or the
entry has no score to lose. -/
theorem score_times_iff {t t' : UInt64} :
    schedule.score { m with timesFuzzed := t' } ≤ schedule.score { m with timesFuzzed := t } ↔
      cutPenalty schedule t ≤ cutPenalty schedule t' ∨
        schedule.bonus m ≤ cutPenalty schedule t' ∨ 2 ^ 32 - 2 ≤ cutPenalty schedule t' := by
  have hb : ∀ t, schedule.bonus { m with timesFuzzed := t } = schedule.bonus m := fun t => rfl
  have hp : ∀ t, schedule.penalty { m with timesFuzzed := t } = cutPenalty schedule t :=
    fun t => rfl
  rw [score_eq, score_eq, hb t', hb t, hp t', hp t]
  have hlt : cutPenalty schedule t < 2 ^ 32 := Nat.mod_lt _ (Nat.two_pow_pos 32)
  omega

end Score

section Pick
variable {schedule : PowerSchedule} {weights : List Nat} {corpus : List EntryMetadata}

theorem totalWeight_eq (weights : List Nat) : ∀ total, totalWeight weights = .ok total →
    total = weights.sum := by
  induction weights with
  | nil =>
    intro total h
    cases h
    rfl
  | cons w ws ih =>
    intro total h
    obtain ⟨rest, hrest, h⟩ := Checked.bind_eq_ok.mp h
    obtain ⟨-, rfl⟩ := Checked.add_eq_ok.mp h
    rw [List.sum_cons, ih rest hrest]

theorem totalWeight_isOk (weights : List Nat) :
    (∃ total, totalWeight weights = .ok total) ↔ weights.sum < 2 ^ 64 := by
  induction weights with
  | nil => exact ⟨fun _ => Nat.two_pow_pos 64, fun _ => ⟨0, rfl⟩⟩
  | cons w ws ih =>
    rw [List.sum_cons]
    constructor
    · rintro ⟨total, h⟩
      obtain ⟨rest, hrest, h⟩ := Checked.bind_eq_ok.mp h
      obtain ⟨hfits, -⟩ := Checked.add_eq_ok.mp h
      rw [← totalWeight_eq ws rest hrest]
      exact hfits
    · intro hfits
      obtain ⟨rest, hrest⟩ := ih.mpr (by omega)
      refine ⟨w + rest, Checked.bind_eq_ok.mpr ⟨rest, hrest, Checked.add_eq_ok.mpr ⟨?_, rfl⟩⟩⟩
      rw [totalWeight_eq ws rest hrest]
      exact hfits

theorem walk_lt (weights : List Nat) (needle idx : Nat) (hlt : needle < weights.sum) :
    ∃ i < weights.length, walk needle weights idx = some (idx + i) := by
  induction weights generalizing needle idx with
  | nil => exact absurd hlt (Nat.not_lt_zero _)
  | cons w ws ih =>
    rw [List.sum_cons] at hlt
    by_cases h : needle < w
    · exact ⟨0, Nat.succ_pos _, if_pos h⟩
    · obtain ⟨i, hi, hwalk⟩ := ih (needle - w) (idx + 1) (by omega)
      refine ⟨i + 1, Nat.succ_lt_succ hi, (if_neg h).trans ?_⟩
      rw [hwalk]
      congr 1
      omega

theorem le_of_walk {needle idx j : Nat} (h : walk needle weights idx = some j) : idx ≤ j := by
  induction weights generalizing needle idx with
  | nil => cases h
  | cons w ws ih =>
    rw [walk] at h
    split at h
    · cases h
      exact Nat.le_refl _
    · exact Nat.le_of_succ_le (ih h)

/-- By induction on the weights, every entry has as many numbers as its weight. -/
theorem walk_share (weights : List Nat) (idx i : Nat) :
    (List.range weights.sum).countP (fun r => walk r weights idx = some (idx + i)) =
      weights.getD i 0 := by
  induction weights generalizing idx i with
  | nil => rfl
  | cons w ws ih =>
    have hfirst : ∀ r ∈ List.range w, walk r (w :: ws) idx = some idx := fun r hr =>
      if_pos (List.mem_range.mp hr)
    have hrest : ∀ r, walk (w + r) (w :: ws) idx = walk r ws (idx + 1) := fun r => by
      rw [walk, if_neg (by omega), Nat.add_sub_cancel_left]
    rw [List.sum_cons, List.range_add, List.countP_append, List.countP_map]
    simp only [Function.comp_def, hrest]
    cases i with
    | zero =>
      have hall : (List.range w).countP (fun r => walk r (w :: ws) idx = some (idx + 0)) = w := by
        refine (List.countP_eq_length.mpr fun r hr => ?_).trans List.length_range
        exact decide_eq_true (hfirst r hr)
      have hnone : (List.range ws.sum).countP
          (fun r => walk r ws (idx + 1) = some (idx + 0)) = 0 := by
        refine List.countP_eq_zero.mpr fun r _ hr => ?_
        exact absurd (le_of_walk (of_decide_eq_true hr)) (by omega)
      rw [hall, hnone]
      rfl
    | succ i =>
      have hnone : (List.range w).countP
          (fun r => walk r (w :: ws) idx = some (idx + (i + 1))) = 0 := by
        refine List.countP_eq_zero.mpr fun r hr heq => ?_
        have := (hfirst r hr).symm.trans (of_decide_eq_true heq)
        exact absurd (Option.some.inj this) (by omega)
      rw [hnone, Nat.zero_add, show idx + (i + 1) = idx + 1 + i by omega, ih]
      rfl

/-- Every score is positive, so a corpus with entries has a total. -/
theorem sum_pos (hne : corpus ≠ []) : 0 < (corpus.map schedule.score).sum := by
  cases corpus with
  | nil => exact absurd rfl hne
  | cons m rest =>
    rw [List.map_cons, List.sum_cons]
    have : 1 ≤ schedule.score m := score_pos
    omega

/-- An entry is picked by as many remainders as its score, and the pick never falls through. -/
structure FairPick (schedule : PowerSchedule) (corpus : List EntryMetadata) : Prop where
  share : ∀ i, ∀ m, corpus[i]? = some m →
    (List.range (corpus.map schedule.score).sum).countP
      (fun r => walk r (corpus.map schedule.score) 0 = some i) = schedule.score m
  picked : ∀ random : UInt64, ∃ i < corpus.length,
    walk (random.toNat % (corpus.map schedule.score).sum) (corpus.map schedule.score) 0 = some i ∧
      schedule.pick corpus random = .ok (some i)

theorem fairPick_iff (hne : corpus ≠ []) :
    FairPick schedule corpus ↔ (corpus.map schedule.score).sum < 2 ^ 64 := by
  have hpos : 0 < (corpus.map schedule.score).sum := sum_pos hne
  rw [← totalWeight_isOk]
  constructor
  · intro h
    obtain ⟨i, -, -, hpick⟩ := h.picked 0
    unfold PowerSchedule.pick at hpick
    rw [if_neg hne] at hpick
    obtain ⟨total, htotal, -⟩ := Checked.bind_eq_ok.mp hpick
    exact ⟨total, htotal⟩
  · rintro ⟨total, htotal⟩
    have hsum := totalWeight_eq _ total htotal
    refine ⟨fun i m hm => ?_, fun random => ?_⟩
    · have hshare := walk_share (corpus.map schedule.score) 0 i
      rw [Nat.zero_add] at hshare
      rw [hshare, List.getD_eq_getElem?_getD, List.getElem?_map, hm]
      rfl
    · obtain ⟨i, hi, hwalk⟩ := walk_lt (corpus.map schedule.score) _ 0
        (Nat.mod_lt random.toNat hpos)
      rw [Nat.zero_add] at hwalk
      rw [List.length_map] at hi
      refine ⟨i, hi, hwalk, ?_⟩
      unfold PowerSchedule.pick
      rw [if_neg hne]
      refine Checked.bind_eq_ok.mpr ⟨total, htotal, ?_⟩
      rw [hsum, if_neg (Nat.ne_of_gt hpos), hwalk]
      rfl

end Pick

/-- Scores are positive and grow with the novelty. They fall with the count of picks, and entries
are picked in proportion to them, just where the penalty and the total fit. -/
theorem powerSchedule_iff (schedule : PowerSchedule) :
    (∀ m, 1 ≤ schedule.score m) ∧
    (∀ (m : EntryMetadata) (n n' : UInt32), n ≤ n' →
      schedule.score { m with noveltyNewEdges := n } ≤
        schedule.score { m with noveltyNewEdges := n' }) ∧
    (∀ (m : EntryMetadata) (t t' : UInt64), t ≤ t' →
      (schedule.score { m with timesFuzzed := t' } ≤
          schedule.score { m with timesFuzzed := t } ↔
        cutPenalty schedule t ≤ cutPenalty schedule t' ∨
          schedule.bonus m ≤ cutPenalty schedule t' ∨ 2 ^ 32 - 2 ≤ cutPenalty schedule t')) ∧
    ∀ corpus, corpus ≠ [] →
      (FairPick schedule corpus ↔ (corpus.map schedule.score).sum < 2 ^ 64) :=
  ⟨fun _ => score_pos, fun _ _ _ => score_mono_edges, fun _ _ _ _ => score_times_iff,
    fun _ => fairPick_iff⟩

def defaultSchedule : PowerSchedule where
  rareEdgeWeight := 3
  speedWeight := 1
  fuzzCountPenaltyDiv := 10
  divides := by decide

/-- An entry with a score of 14, picked a hundred times or so often that the penalty is cut to
nothing. -/
def pickedEntry (timesFuzzed : UInt64) : EntryMetadata := ⟨5, 0, 50000, false, timesFuzzed⟩

theorem forgotten_penalty : (100 : UInt64) ≤ 42949672960 ∧
    defaultSchedule.score (pickedEntry 100) = 6 ∧
    defaultSchedule.score (pickedEntry 42949672960) = 16 := by
  decide

/-- Ten picks more cost the entry one point. -/
theorem powerSchedule_aged : defaultSchedule.score (pickedEntry 110) ≤
    defaultSchedule.score (pickedEntry 100) :=
  ((powerSchedule_iff defaultSchedule).2.2.1 (pickedEntry 100) 100 110 (by decide)).mpr
    (.inl (by decide))

end Axe.Fuzzer
