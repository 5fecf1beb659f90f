import Mathlib.Data.List.Basic

/-!
# Texts with separators

What a separator tells about the texts on its two sides.
-/
namespace Axe

variable {α : Type} {a b d e : List α} {c : α}

/-- What comes after the last separator. -/
theorem eq_of_append_cons (hd : c ∉ d) (he : c ∉ e) (h : a ++ c :: d = b ++ c :: e) : d = e := by
  rcases List.append_eq_append_iff.mp h with ⟨t, _, ht⟩ | ⟨t, _, ht⟩
  · cases t with
    | nil => exact (List.cons.inj ht).2
    | cons x t => exact absurd ((List.cons.inj ht).2 ▸ by simp) hd
  · cases t with
    | nil => exact (List.cons.inj ht).2.symm
    | cons x t => exact absurd ((List.cons.inj ht).2 ▸ by simp) he

/-- What comes before the last separator. -/
theorem eq_and_eq_of_append_cons (hd : c ∉ d) (he : c ∉ e) (h : a ++ c :: d = b ++ c :: e) :
    a = b ∧ d = e := by
  obtain rfl := eq_of_append_cons hd he h
  exact ⟨List.append_cancel_right h, rfl⟩

/-- Two texts with their first separators. -/
theorem append_cons_inj (ha : c ∉ a) (hb : c ∉ b) :
    a ++ c :: d = b ++ c :: e ↔ a = b ∧ d = e := by
  constructor
  · intro h
    rcases List.append_eq_append_iff.mp h with ⟨t, rfl, ht⟩ | ⟨t, rfl, ht⟩
    · cases t with
      | nil => exact ⟨(List.append_nil a).symm, (List.cons.inj ht).2⟩
      | cons x t => exact absurd ((List.cons.inj ht).1 ▸ by simp) hb
    · cases t with
      | nil => exact ⟨List.append_nil b, (List.cons.inj ht).2.symm⟩
      | cons x t => exact absurd ((List.cons.inj ht).1 ▸ by simp) ha
  · rintro ⟨rfl, rfl⟩
    rfl

theorem mem_of_mem_intercalate {x : α} {seps : List α} {xs : List (List α)}
    (h : x ∈ seps.intercalate xs) : x ∈ seps ∨ ∃ y ∈ xs, x ∈ y := by
  induction xs with
  | nil => cases h
  | cons y ys ih =>
    by_cases hys : ys = []
    · rw [hys, List.intercalate_singleton] at h
      exact .inr ⟨y, List.mem_cons_self, h⟩
    · rw [List.intercalate_cons_of_ne_nil hys, List.mem_append, List.mem_append] at h
      rcases h with (h | h) | h
      · exact .inr ⟨y, List.mem_cons_self, h⟩
      · exact .inl h
      · exact (ih h).imp_right fun ⟨z, hz, hx⟩ => ⟨z, List.mem_cons_of_mem _ hz, hx⟩

theorem map_intercalate {β : Type} (f : α → β) (seps : List α) (xs : List (List α)) :
    (seps.intercalate xs).map f = (seps.map f).intercalate (xs.map (·.map f)) := by
  induction xs with
  | nil => rfl
  | cons y ys ih =>
    by_cases hys : ys = []
    · rw [hys, List.map_singleton, List.intercalate_singleton, List.intercalate_singleton]
    · rw [List.intercalate_cons_of_ne_nil hys, List.map_cons,
        List.intercalate_cons_of_ne_nil (mt List.map_eq_nil_iff.mp hys), List.map_append,
        List.map_append, ih]

/-- Lists of texts without the separator that are joined to the same text. -/
theorem intercalate_eq_iff [DecidableEq α] {xs ys : List (List α)} (hx : ∀ x ∈ xs, c ∉ x)
    (hy : ∀ y ∈ ys, c ∉ y) : [c].intercalate xs = [c].intercalate ys ↔
      xs = ys ∨ xs = [] ∧ ys = [[]] ∨ xs = [[]] ∧ ys = [] := by
  constructor
  · intro h
    by_cases hxs : xs = []
    · by_cases hys : ys = []
      · exact .inl (hxs.trans hys.symm)
      · have hsplit := List.splitOn_intercalate c hy hys
        rw [← h, hxs, List.intercalate_nil, List.splitOn_nil] at hsplit
        exact .inr (.inl ⟨hxs, hsplit.symm⟩)
    · have hsplit := List.splitOn_intercalate c hx hxs
      by_cases hys : ys = []
      · rw [h, hys, List.intercalate_nil, List.splitOn_nil] at hsplit
        exact .inr (.inr ⟨hsplit.symm, hys⟩)
      · rw [h, List.splitOn_intercalate c hy hys] at hsplit
        exact .inl hsplit.symm
  · rintro (rfl | ⟨rfl, rfl⟩ | ⟨rfl, rfl⟩) <;> rfl

/-- Pieces without separators are found again by a split at every separator. -/
theorem splitOnP_intercalate {p : α → Bool} (hc : p c = true) {xs : List (List α)}
    (hx : ∀ x ∈ xs, ∀ a ∈ x, p a = false) (hne : xs ≠ []) : ([c].intercalate xs).splitOnP p = xs := by
  induction xs with
  | nil => exact absurd rfl hne
  | cons x xs ih =>
    have hhead := hx x List.mem_cons_self
    by_cases hxs : xs = []
    · rw [hxs, List.intercalate_singleton, List.splitOnP_eq_singleton hhead]
    · have htail := ih (fun y hy => hx y (List.mem_cons_of_mem _ hy)) hxs
      rw [List.intercalate_cons_of_ne_nil hxs, List.append_assoc, List.singleton_append,
        List.splitOnP_append_cons_of_forall_mem hhead c hc, htail]

end Axe
