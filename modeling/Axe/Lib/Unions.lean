import Axe.Lib.SortedMap
import Axe.Lib.StableSort

/-!
# Unions of lists

A union keeps the first row of each key, or the members in their order. Of several rows the last
with the greatest score is picked.
-/
namespace Axe.Unions

variable {α κ : Type}

section Unseen
variable [DecidableEq κ] (key : α → κ)

/-- The rows whose keys were not seen before. -/
def unseen : (seen : List κ) → List α → List α
  | _, [] => []
  | seen, a :: l => if key a ∈ seen then unseen seen l else a :: unseen (key a :: seen) l

variable {key} {seen : List κ} {l : List α} {a : α} {k : κ}

theorem unseen_sublist : (unseen key seen l).Sublist l := by
  induction l generalizing seen with
  | nil => exact List.Sublist.refl []
  | cons a l ih =>
    rw [unseen]
    split
    · exact ih.cons a
    · exact ih.cons_cons a

theorem mem_keys_unseen : k ∈ (unseen key seen l).map key ↔ k ∈ l.map key ∧ k ∉ seen := by
  induction l generalizing seen with
  | nil => simp [unseen]
  | cons a l ih =>
    rw [unseen]
    split
    · rename_i ha
      rw [ih, List.map_cons, List.mem_cons]
      refine and_congr_left fun hk => ⟨.inr, fun h => h.resolve_left ?_⟩
      rintro rfl
      exact hk ha
    · rename_i ha
      rw [List.map_cons, List.map_cons, List.mem_cons, List.mem_cons, ih, List.mem_cons]
      constructor
      · rintro (rfl | ⟨hk, hseen⟩)
        · exact ⟨.inl rfl, ha⟩
        · exact ⟨.inr hk, fun h => hseen (.inr h)⟩
      · rintro ⟨rfl | hk, hseen⟩
        · exact .inl rfl
        · by_cases heq : k = key a
          · exact .inl heq
          · exact .inr ⟨hk, fun h => h.elim heq hseen⟩

theorem nodup_keys_unseen : ((unseen key seen l).map key).Nodup := by
  induction l generalizing seen with
  | nil => exact List.nodup_nil
  | cons a l ih =>
    rw [unseen]
    split
    · exact ih
    · rw [List.map_cons, List.nodup_cons]
      exact ⟨fun h => (mem_keys_unseen.mp h).2 List.mem_cons_self, ih⟩

theorem unseen_eq_self (h : (l.map key).Nodup) (hseen : ∀ a ∈ l, key a ∉ seen) :
    unseen key seen l = l := by
  induction l generalizing seen with
  | nil => rfl
  | cons a l ih =>
    rw [List.map_cons, List.nodup_cons] at h
    rw [unseen, if_neg (hseen a List.mem_cons_self), ih h.2 fun b hb hmem => ?_]
    rcases List.mem_cons.mp hmem with heq | hmem
    · exact h.1 (heq ▸ List.mem_map_of_mem hb)
    · exact hseen b (List.mem_cons_of_mem _ hb) hmem

end Unseen

section Sets
variable [LinearOrder κ] {l : List κ} {k : κ}

def sortedSet (l : List κ) : List κ := SortedMap.ofList id l

theorem mem_sortedSet : k ∈ sortedSet l ↔ k ∈ l := by
  have h := SortedMap.exists_mem_ofList id l k
  rw [sortedSet]
  simpa using h

theorem sorted_sortedSet (l : List κ) : SortedMap.Sorted id (sortedSet l) :=
  SortedMap.sorted_ofList l

theorem nodup_sortedSet (l : List κ) : (sortedSet l).Nodup :=
  (sorted_sortedSet l).imp fun h => ne_of_lt h

theorem sortedSet_sortedSet (l : List κ) : sortedSet (sortedSet l) = sortedSet l :=
  (sorted_sortedSet _).eq_of_mem_iff (sorted_sortedSet l) fun _ => mem_sortedSet

end Sets

section Greatest
variable [LinearOrder κ] (score : α → κ)

/-- The last of the rows with the greatest score. -/
def maxBy (l : List α) : Option α :=
  l.foldl (fun best a => some (best.elim a fun b => if score a < score b then b else a)) none

variable {score} {l : List α} {a b : α}

theorem foldl_maxBy (b : α) : ∃ a, l.foldl (fun best a =>
      some (best.elim a fun b => if score a < score b then b else a)) (some b) = some a ∧
    (a = b ∨ a ∈ l) ∧ score b ≤ score a ∧ ∀ c ∈ l, score c ≤ score a := by
  induction l generalizing b with
  | nil => exact ⟨b, rfl, .inl rfl, le_rfl, fun c hc => absurd hc List.not_mem_nil⟩
  | cons d l ih =>
    rw [List.foldl_cons, Option.elim_some]
    split
    · rename_i hlt
      obtain ⟨a, ha, hmem, hb, hl⟩ := ih b
      refine ⟨a, ha, hmem.imp_right (List.mem_cons_of_mem _), hb, fun c hc => ?_⟩
      rcases List.mem_cons.mp hc with rfl | hc
      · exact hlt.le.trans hb
      · exact hl c hc
    · rename_i hle
      obtain ⟨a, ha, hmem, hd, hl⟩ := ih d
      refine ⟨a, ha, .inr ?_, (not_lt.mp hle).trans hd, fun c hc => ?_⟩
      · rcases hmem with rfl | hmem
        · exact List.mem_cons_self
        · exact List.mem_cons_of_mem _ hmem
      · rcases List.mem_cons.mp hc with rfl | hc
        · exact hd
        · exact hl c hc

theorem maxBy_eq_none : maxBy score l = none ↔ l = [] := by
  cases l with
  | nil => exact iff_of_true rfl rfl
  | cons b l =>
    obtain ⟨a, ha, -⟩ := @foldl_maxBy _ _ _ score l b
    refine iff_of_false (fun h => ?_) (List.cons_ne_nil b l)
    rw [maxBy, List.foldl_cons, Option.elim_none, ha] at h
    cases h

theorem maxBy_spec (h : maxBy score l = some a) : a ∈ l ∧ ∀ c ∈ l, score c ≤ score a := by
  cases l with
  | nil => cases h
  | cons b l =>
    obtain ⟨a', ha', hmem, hb, hl⟩ := @foldl_maxBy _ _ _ score l b
    rw [maxBy, List.foldl_cons, Option.elim_none, ha'] at h
    obtain rfl := Option.some.inj h
    refine ⟨?_, fun c hc => ?_⟩
    · rcases hmem with rfl | hmem
      · exact List.mem_cons_self
      · exact List.mem_cons_of_mem _ hmem
    · rcases List.mem_cons.mp hc with rfl | hc
      · exact hb
      · exact hl c hc

theorem maxBy_toList (o : Option α) : maxBy score o.toList = o := by
  cases o <;> rfl

end Greatest

end Axe.Unions
