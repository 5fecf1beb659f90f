import Mathlib.Data.List.Basic
import Mathlib.Order.Lattice

/-!
# Stable sorting

A list sorts another one when it has the same members in the order of their keys, and those of
one key in the order they had.
-/
namespace Axe

section StableSort
variable {α κ : Type} [LinearOrder κ] {key : α → κ} {l k : List α} {a f g : α}

def sortBy (key : α → κ) (l : List α) : List α := l.mergeSort fun a b => decide (key a ≤ key b)

structure Sorts (key : α → κ) (l k : List α) : Prop where
  sorted : l.Pairwise fun a b => key a ≤ key b
  same : ∀ b, l.filter (fun a => key a = b) = k.filter fun a => key a = b

/-- The first of the members with the least key. -/
def Foremost (key : α → κ) (k : List α) (f : α) : Prop :=
  ∃ before after, k = before ++ f :: after ∧ (∀ a ∈ before, key f < key a) ∧
    ∀ a ∈ after, key f ≤ key a

theorem sorts_nil : Sorts key ([] : List α) [] := ⟨List.Pairwise.nil, fun _ => rfl⟩

theorem keys_trans (key : α → κ) (a b c : α) (hab : decide (key a ≤ key b) = true)
    (hbc : decide (key b ≤ key c) = true) : decide (key a ≤ key c) = true :=
  decide_eq_true (le_trans (of_decide_eq_true hab) (of_decide_eq_true hbc))

theorem keys_total (key : α → κ) (a b : α) :
    (decide (key a ≤ key b) || decide (key b ≤ key a)) = true := by
  rw [Bool.or_eq_true, decide_eq_true_iff, decide_eq_true_iff]
  exact le_total _ _

theorem sorts_sortBy (l : List α) : Sorts key (sortBy key l) l where
  sorted := (List.pairwise_mergeSort (keys_trans key) (keys_total key) l).imp of_decide_eq_true
  same := by
    intro b
    -- the members of one key are sorted, so the sort keeps their order
    have hsorted : (l.filter fun a => key a = b).Pairwise
        fun a b => decide (key a ≤ key b) = true := by
      refine List.Pairwise.imp_of_mem (R := fun _ _ => True) (fun ha hb _ => ?_)
        (List.pairwise_of_forall fun _ _ => trivial)
      rw [List.mem_filter, decide_eq_true_iff] at ha hb
      exact decide_eq_true (le_of_eq (ha.2.trans hb.2.symm))
    have hsub : (l.filter fun a => key a = b).Sublist (sortBy key l) :=
      List.sublist_mergeSort (keys_trans key) (keys_total key) hsorted List.filter_sublist
    have hfilter := hsub.filter fun a => key a = b
    rw [List.filter_filter] at hfilter
    simp only [Bool.and_self] at hfilter
    exact (hfilter.eq_of_length
      ((List.mergeSort_perm l _).filter _).length_eq.symm).symm

theorem Sorts.filter (h : Sorts key l k) (p : α → Bool) : Sorts key (l.filter p) (k.filter p) where
  sorted := h.sorted.filter p
  same := fun b => by
    rw [List.filter_comm, h.same, List.filter_comm]

/-- With distinct keys the order of the members does not count. -/
theorem sortBy_eq_of_perm (h : l.Perm k)
    (hdistinct : ∀ a ∈ l, ∀ b ∈ l, key a = key b → a = b) : sortBy key l = sortBy key k := by
  have hperm : ∀ l : List α, (sortBy key l).Perm l := fun l => List.mergeSort_perm l _
  refine ((hperm l).trans (h.trans (hperm k).symm)).eq_of_pairwise
    (fun a b ha hb hab hba => ?_) (sorts_sortBy l).sorted (sorts_sortBy k).sorted
  exact hdistinct a ((hperm l).mem_iff.mp ha) b
    (h.mem_iff.mpr ((hperm k).mem_iff.mp hb)) (le_antisymm hab hba)

/-- The members by their keys are all of them, when the keys are. -/
theorem groups_perm {keys : List κ} (hnodup : keys.Nodup) (hall : ∀ a ∈ l, key a ∈ keys) :
    (keys.flatMap fun k => l.filter fun a => key a = k).Perm l := by
  induction keys generalizing l with
  | nil =>
    rw [List.eq_nil_iff_forall_not_mem.mpr fun a ha => List.not_mem_nil (hall a ha)]
    exact List.Perm.refl _
  | cons k keys ih =>
    obtain ⟨hk, hnodup⟩ := List.nodup_cons.mp hnodup
    -- the other keys do not see the members of this one
    have hrest : (keys.flatMap fun k' => l.filter fun a => key a = k') =
        keys.flatMap fun k' => (l.filter fun a => ¬ key a = k).filter fun a => key a = k' := by
      refine List.flatMap_congr fun k' hk' => ?_
      rw [List.filter_filter]
      refine List.filter_congr fun a _ => ?_
      by_cases hkey : key a = k'
      · have hne : ¬ k' = k := fun heq => hk (heq ▸ hk')
        simp only [hkey, decide_true, hne, not_false_eq_true, Bool.and_self]
      · simp only [hkey, decide_false, Bool.false_and]
    have hall' : ∀ a ∈ l.filter fun a => ¬ key a = k, key a ∈ keys := by
      intro a ha
      obtain ⟨ha, hne⟩ := List.mem_filter.mp ha
      exact (List.mem_cons.mp (hall a ha)).resolve_left (of_decide_eq_true hne)
    rw [List.flatMap_cons, hrest]
    refine ((ih hnodup hall').append_left _).trans ?_
    have hsplit := List.filter_append_perm (fun a => decide (key a = k)) l
    simpa only [decide_not] using hsplit

theorem groups_sorted {keys : List κ} (hkeys : keys.Pairwise (· < ·)) :
    (keys.flatMap fun k => l.filter fun a => key a = k).Pairwise fun a b => key a ≤ key b := by
  induction keys with
  | nil => exact List.Pairwise.nil
  | cons k keys ih =>
    obtain ⟨hk, hkeys⟩ := List.pairwise_cons.mp hkeys
    have hkey : ∀ k' a, a ∈ l.filter (fun a => key a = k') → key a = k' :=
      fun k' a ha => of_decide_eq_true (List.mem_filter.mp ha).2
    rw [List.flatMap_cons, List.pairwise_append]
    refine ⟨List.pairwise_of_forall_mem_list fun a ha b hb => ?_, ih hkeys, fun a ha b hb => ?_⟩
    · exact le_of_eq ((hkey k a ha).trans (hkey k b hb).symm)
    · obtain ⟨k', hk', hb⟩ := List.mem_flatMap.mp hb
      rw [hkey k a ha, hkey k' b hb]
      exact (hk k' hk').le

/-- A member is added at the end before it is sorted in. -/
theorem Sorts.push (h : Sorts key l k) (a : α) : Sorts key (sortBy key (l ++ [a])) (k ++ [a]) where
  sorted := (sorts_sortBy _).sorted
  same := fun b => by
    rw [(sorts_sortBy _).same, List.filter_append, h.same, List.filter_append]

theorem Sorts.mem_iff (h : Sorts key l k) : a ∈ l ↔ a ∈ k := by
  have hmem : ∀ l : List α, a ∈ l ↔ a ∈ l.filter fun a' => key a' = key a := fun l => by
    rw [List.mem_filter, decide_eq_true_iff, and_iff_left rfl]
  rw [hmem l, h.same, ← hmem k]

theorem Foremost.mem (h : Foremost key k f) : f ∈ k := by
  obtain ⟨before, after, rfl, -, -⟩ := h
  exact List.mem_append_right _ List.mem_cons_self

theorem Foremost.le (h : Foremost key k f) (ha : a ∈ k) : key f ≤ key a := by
  obtain ⟨before, after, rfl, hbefore, hafter⟩ := h
  rcases List.mem_append.mp ha with ha | ha
  · exact (hbefore a ha).le
  · rcases List.mem_cons.mp ha with rfl | ha
    · exact le_rfl
    · exact hafter a ha

theorem Foremost.head?_filter (h : Foremost key k f) :
    (k.filter fun a => key a = key f).head? = some f := by
  obtain ⟨before, after, rfl, hbefore, -⟩ := h
  have hnil : before.filter (fun a => key a = key f) = [] :=
    List.filter_eq_nil_iff.mpr fun a ha hkey => (hbefore a ha).ne' (of_decide_eq_true hkey)
  rw [List.filter_append, hnil, List.nil_append, List.filter_cons, if_pos (decide_eq_true rfl),
    List.head?_cons]

theorem Foremost.unique (hf : Foremost key k f) (hg : Foremost key k g) : f = g := by
  have hkey : key f = key g := le_antisymm (hf.le hg.mem) (hg.le hf.mem)
  have hhead := hf.head?_filter
  rw [hkey, hg.head?_filter] at hhead
  exact (Option.some.inj hhead).symm

/-- The head of a sorted list is the first of the members with the least key. -/
theorem Sorts.head?_eq_some (h : Sorts key l k) : l.head? = some f ↔ Foremost key k f := by
  cases l with
  | nil =>
    refine iff_of_false (by simp) fun hf => ?_
    exact List.not_mem_nil (h.mem_iff.mpr hf.mem)
  | cons a l =>
    have ha : Foremost key k a := by
      have hfilter := (h.same (key a)).symm
      rw [List.filter_cons, if_pos (decide_eq_true rfl)] at hfilter
      obtain ⟨before, after, rfl, hbefore, -, -⟩ := List.filter_eq_cons_iff.mp hfilter
      have hle : ∀ b ∈ before ++ a :: after, key a ≤ key b := fun b hb => by
        rcases List.mem_cons.mp (h.mem_iff.mpr hb) with rfl | hb
        · exact le_rfl
        · exact List.rel_of_pairwise_cons h.sorted hb
      refine ⟨before, after, rfl, fun b hb => ?_, fun b hb => ?_⟩
      · refine lt_of_le_of_ne (hle b (List.mem_append_left _ hb)) fun heq => ?_
        exact hbefore b hb (decide_eq_true heq.symm)
      · exact hle b (List.mem_append_right _ (List.mem_cons_of_mem _ hb))
    rw [List.head?_cons, Option.some.injEq]
    exact ⟨fun heq => heq ▸ ha, fun hf => ha.unique hf⟩

theorem exists_foremost (key : α → κ) (ha : a ∈ k) : ∃ f, Foremost key k f := by
  have h : Sorts key (sortBy key k) k := sorts_sortBy k
  cases hl : sortBy key k with
  | nil => exact absurd (h.mem_iff.mpr ha) (hl ▸ List.not_mem_nil)
  | cons f l => exact ⟨f, h.head?_eq_some.mp (by rw [hl, List.head?_cons])⟩

end StableSort
end Axe
