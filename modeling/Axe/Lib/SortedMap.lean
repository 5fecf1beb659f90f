import Mathlib.Order.Lattice
import Mathlib.Data.List.Pairwise

/-!
# Maps kept in the order of their keys

A map is a list of rows in the strict order of a key that each row carries. Inserting a row
replaces the row of the same key; the other insertion keeps it. A set is the map whose rows
are their own keys.
-/
namespace Axe.SortedMap

variable {κ : Type} [LinearOrder κ] {α : Type} {key : α → κ} {row x y : α} {rows : List α}

def Sorted (key : α → κ) (rows : List α) : Prop := rows.Pairwise fun a b => key a < key b

/-- The row of a key, replaced when it is there already. -/
def insert (key : α → κ) (row : α) : List α → List α
  | [] => [row]
  | head :: rest =>
    if key row < key head then row :: head :: rest
    else if key row = key head then row :: rest
    else head :: insert key row rest

def get? (key : α → κ) (k : κ) (rows : List α) : Option α := rows.find? (key · = k)

/-- The row of a key that is not there yet. -/
def insertNew (key : α → κ) (row : α) (rows : List α) : List α :=
  if (get? key (key row) rows).isSome then rows else insert key row rows

/-- Of several rows with one key the last stays. -/
def ofList (key : α → κ) (rows : List α) : List α :=
  rows.foldl (fun acc row => insert key row acc) []

theorem sorted_nil : Sorted key ([] : List α) := List.Pairwise.nil

theorem mem_of_mem_insert (h : x ∈ insert key row rows) : x = row ∨ x ∈ rows := by
  induction rows with
  | nil => exact Or.inl (List.mem_singleton.mp h)
  | cons head rest ih =>
    rw [insert] at h
    split at h
    · exact List.mem_cons.mp h
    · split at h
      · exact (List.mem_cons.mp h).imp_right (List.mem_cons_of_mem _)
      · rcases List.mem_cons.mp h with rfl | h
        · exact Or.inr List.mem_cons_self
        · exact (ih h).imp_right (List.mem_cons_of_mem _)

theorem sorted_insert (row : α) (hs : Sorted key rows) : Sorted key (insert key row rows) := by
  induction rows with
  | nil => exact List.pairwise_singleton _ _
  | cons head rest ih =>
    obtain ⟨hhead, hrest⟩ := List.pairwise_cons.mp hs
    rw [insert]
    split
    · rename_i hlt
      refine List.pairwise_cons.mpr ⟨?_, hs⟩
      intro z hz
      rcases List.mem_cons.mp hz with rfl | hz
      · exact hlt
      · exact hlt.trans (hhead z hz)
    · rename_i hlt
      split
      · rename_i heq
        exact List.pairwise_cons.mpr ⟨fun z hz => heq ▸ hhead z hz, hrest⟩
      · rename_i hne
        refine List.pairwise_cons.mpr ⟨?_, ih hrest⟩
        intro z hz
        rcases mem_of_mem_insert hz with rfl | hz
        · exact lt_of_le_of_ne (not_lt.mp hlt) (Ne.symm hne)
        · exact hhead z hz

/-- An insertion adds its row and drops the row of the same key, no other. -/
theorem mem_insert (hs : Sorted key rows) :
    x ∈ insert key row rows ↔ x = row ∨ (x ∈ rows ∧ key x ≠ key row) := by
  induction rows with
  | nil => simp [insert]
  | cons head rest ih =>
    obtain ⟨hhead, hrest⟩ := List.pairwise_cons.mp hs
    rw [insert]
    split
    · rename_i hlt
      have hne : ∀ z ∈ head :: rest, key z ≠ key row := by
        intro z hz
        rcases List.mem_cons.mp hz with rfl | hz
        · exact hlt.ne'
        · exact (hlt.trans (hhead z hz)).ne'
      rw [List.mem_cons]
      exact or_congr_right ⟨fun h => ⟨h, hne x h⟩, fun h => h.1⟩
    · split
      · rename_i heq
        have hne : ∀ z ∈ rest, key z ≠ key row := fun z hz => heq ▸ (hhead z hz).ne'
        rw [List.mem_cons, List.mem_cons]
        refine or_congr_right ⟨fun h => ⟨Or.inr h, hne x h⟩, ?_⟩
        rintro ⟨rfl | h, hkey⟩
        · exact absurd heq.symm hkey
        · exact h
      · rename_i hne
        rw [List.mem_cons, List.mem_cons, ih hrest]
        constructor
        · rintro (rfl | rfl | ⟨h, hkey⟩)
          · exact Or.inr ⟨Or.inl rfl, fun heq => hne heq.symm⟩
          · exact Or.inl rfl
          · exact Or.inr ⟨Or.inr h, hkey⟩
        · rintro (rfl | ⟨rfl | h, hkey⟩)
          · exact Or.inr (Or.inl rfl)
          · exact Or.inl rfl
          · exact Or.inr (Or.inr ⟨h, hkey⟩)

theorem mem_insert_self : row ∈ insert key row rows := by
  induction rows with
  | nil => exact List.mem_singleton_self row
  | cons head rest ih =>
    rw [insert]
    split
    · exact List.mem_cons_self
    · split
      · exact List.mem_cons_self
      · exact List.mem_cons_of_mem _ ih

theorem length_insert_le : (insert key row rows).length ≤ rows.length + 1 := by
  induction rows with
  | nil => exact le_rfl
  | cons head rest ih =>
    rw [insert]
    split
    · exact le_rfl
    · split
      · exact Nat.le_succ _
      · exact Nat.succ_le_succ ih

/-- In a sorted map a key has one row. -/
theorem Sorted.eq_of_key (hs : Sorted key rows) (hx : x ∈ rows) (hy : y ∈ rows)
    (h : key x = key y) : x = y := by
  induction rows with
  | nil => exact absurd hx List.not_mem_nil
  | cons head rest ih =>
    obtain ⟨hhead, hrest⟩ := List.pairwise_cons.mp hs
    rcases List.mem_cons.mp hx with hxh | hxr
    · rcases List.mem_cons.mp hy with hyh | hyr
      · rw [hxh, hyh]
      · exact absurd (hxh ▸ h) (hhead y hyr).ne
    · rcases List.mem_cons.mp hy with hyh | hyr
      · exact absurd (hyh ▸ h) (hhead x hxr).ne'
      · exact ih hrest hxr hyr

/-- The last row has the greatest key. -/
theorem Sorted.key_le_getLast (hs : Sorted key rows) (hlast : rows.getLast? = some y)
    (hx : x ∈ rows) : key x ≤ key y := by
  induction rows with
  | nil => exact absurd hx List.not_mem_nil
  | cons head rest ih =>
    obtain ⟨hhead, hrest⟩ := List.pairwise_cons.mp hs
    cases rest with
    | nil =>
      rw [List.getLast?_singleton, Option.some.injEq] at hlast
      rw [List.mem_singleton.mp hx, hlast]
    | cons second rest =>
      rw [List.getLast?_cons_cons] at hlast
      rcases List.mem_cons.mp hx with rfl | hx
      · exact (hhead y (List.mem_of_getLast? hlast)).le
      · exact ih hrest hlast hx

/-- Of the keys up to a bound there is a greatest. -/
theorem exists_greatest_le {keys : List κ} {bound : κ} (h : ∃ k ∈ keys, k ≤ bound) :
    ∃ k ∈ keys, k ≤ bound ∧ ∀ t ∈ keys, t ≤ bound → t ≤ k := by
  induction keys with
  | nil =>
    obtain ⟨k, hk, _⟩ := h
    exact absurd hk List.not_mem_nil
  | cons head rest ih =>
    by_cases hrest : ∃ k ∈ rest, k ≤ bound
    · obtain ⟨k, hk, hle, hmax⟩ := ih hrest
      by_cases hhead : head ≤ bound ∧ k < head
      · refine ⟨head, List.mem_cons_self, hhead.1, ?_⟩
        intro t ht htb
        rcases List.mem_cons.mp ht with rfl | ht
        · exact le_rfl
        · exact (hmax t ht htb).trans hhead.2.le
      · refine ⟨k, List.mem_cons_of_mem _ hk, hle, ?_⟩
        intro t ht htb
        rcases List.mem_cons.mp ht with rfl | ht
        · exact not_lt.mp fun hlt => hhead ⟨htb, hlt⟩
        · exact hmax t ht htb
    · obtain ⟨k, hk, hle⟩ := h
      have hhead : k = head := by
        rcases List.mem_cons.mp hk with heq | hk
        · exact heq
        · exact absurd ⟨k, hk, hle⟩ hrest
      refine ⟨head, List.mem_cons_self, hhead ▸ hle, ?_⟩
      intro t ht htb
      rcases List.mem_cons.mp ht with rfl | ht
      · exact le_rfl
      · exact absurd ⟨t, ht, htb⟩ hrest

theorem Sorted.filter {p : α → Bool} (hs : Sorted key rows) : Sorted key (rows.filter p) :=
  List.Pairwise.filter p hs

theorem get?_eq_some (hs : Sorted key rows) {k : κ} :
    get? key k rows = some x ↔ x ∈ rows ∧ key x = k := by
  have hsound : ∀ {z : α} {k : κ}, get? key k rows = some z → z ∈ rows ∧ key z = k := by
    intro z k h
    rw [get?] at h
    exact ⟨List.mem_of_find?_eq_some h, by simpa using List.find?_some h⟩
  refine ⟨hsound, ?_⟩
  rintro ⟨hx, rfl⟩
  cases hfind : get? key (key x) rows with
  | none =>
    rw [get?] at hfind
    exact absurd (decide_eq_true rfl) (List.find?_eq_none.mp hfind x hx)
  | some y =>
    obtain ⟨hy, hkey⟩ := hsound hfind
    rw [hs.eq_of_key hx hy hkey.symm]

/-- The rows of a key are the one that the map has for it. -/
theorem filter_key (hs : Sorted key rows) (k : κ) :
    rows.filter (fun row => key row = k) = (get? key k rows).toList := by
  induction rows with
  | nil => rfl
  | cons head rest ih =>
    obtain ⟨hhead, hrest⟩ := List.pairwise_cons.mp hs
    rw [get?, List.filter_cons, List.find?_cons]
    by_cases hk : key head = k
    · have hnone : rest.filter (fun row => key row = k) = [] :=
        List.filter_eq_nil_iff.mpr fun row hrow => by
          have hlt := hhead row hrow
          rw [hk] at hlt
          simpa using hlt.ne'
      rw [if_pos (decide_eq_true hk), hnone, decide_eq_true hk]
      rfl
    · rw [if_neg (by simpa using hk), decide_eq_false hk, ih hrest]
      rfl

/-- A sorted map is the set of its rows. -/
theorem Sorted.eq_of_mem_iff {rows' : List α} (hs : Sorted key rows) (hs' : Sorted key rows')
    (h : ∀ x, x ∈ rows ↔ x ∈ rows') : rows = rows' := by
  have hnodup : ∀ {rows : List α}, Sorted key rows → rows.Nodup := fun hs =>
    hs.imp fun hlt heq => (heq ▸ hlt).false
  have hperm : rows.Perm rows' :=
    (List.perm_ext_iff_of_nodup (hnodup hs) (hnodup hs')).mpr h
  exact hperm.eq_of_pairwise (fun a b _ _ hab hba => absurd (hab.trans hba) (lt_irrefl _)) hs hs'

theorem get?_eq_none {k : κ} : get? key k rows = none ↔ ∀ x ∈ rows, key x ≠ k := by
  rw [get?, List.find?_eq_none]
  exact forall₂_congr fun x _ => by rw [decide_eq_true_iff]

theorem sorted_insertNew (row : α) (hs : Sorted key rows) :
    Sorted key (insertNew key row rows) := by
  rw [insertNew]
  split
  · exact hs
  · exact sorted_insert row hs

theorem length_insertNew_le : (insertNew key row rows).length ≤ rows.length + 1 := by
  rw [insertNew]
  split
  · exact Nat.le_succ _
  · exact length_insert_le

/-- The second insertion adds its row only under a fresh key. -/
theorem mem_insertNew (hs : Sorted key rows) :
    x ∈ insertNew key row rows ↔ x ∈ rows ∨ (x = row ∧ ∀ y ∈ rows, key y ≠ key row) := by
  rw [insertNew]
  split
  · rename_i hsome
    obtain ⟨y, hy⟩ := Option.isSome_iff_exists.mp hsome
    obtain ⟨hmem, hkey⟩ := (get?_eq_some hs).mp hy
    refine ⟨Or.inl, ?_⟩
    rintro (h | ⟨_, hfresh⟩)
    · exact h
    · exact absurd hkey (hfresh y hmem)
  · rename_i hnone
    have hfresh := get?_eq_none.mp (Option.not_isSome_iff_eq_none.mp hnone)
    rw [mem_insert hs]
    constructor
    · rintro (rfl | ⟨h, _⟩)
      · exact Or.inr ⟨rfl, hfresh⟩
      · exact Or.inl h
    · rintro (h | ⟨rfl, _⟩)
      · exact Or.inr ⟨h, hfresh x h⟩
      · exact Or.inl rfl

theorem sorted_foldl_insert (todo : List α) (hs : Sorted key rows) :
    Sorted key (todo.foldl (fun acc row => insert key row acc) rows) := by
  induction todo generalizing rows with
  | nil => exact hs
  | cons row rest ih => exact ih (sorted_insert row hs)

theorem sorted_ofList (rows : List α) : Sorted key (ofList key rows) :=
  sorted_foldl_insert rows sorted_nil

theorem mem_of_mem_foldl_insert {todo : List α}
    (h : x ∈ todo.foldl (fun acc row => insert key row acc) rows) : x ∈ todo ∨ x ∈ rows := by
  induction todo generalizing rows with
  | nil => exact Or.inr h
  | cons row rest ih =>
    rcases ih h with h | h
    · exact Or.inl (List.mem_cons_of_mem _ h)
    · rcases mem_of_mem_insert h with rfl | h
      · exact Or.inl List.mem_cons_self
      · exact Or.inr h

theorem mem_of_mem_ofList (h : x ∈ ofList key rows) : x ∈ rows :=
  (mem_of_mem_foldl_insert h).resolve_right List.not_mem_nil

/-- A row stays when no later row has its key. -/
theorem mem_foldl_insert {todo : List α} (hs : Sorted key rows) (hx : x ∈ rows)
    (hlast : ∀ y ∈ todo, key y ≠ key x) :
    x ∈ todo.foldl (fun acc row => insert key row acc) rows := by
  induction todo generalizing rows with
  | nil => exact hx
  | cons row rest ih =>
    have hkeep : x ∈ insert key row rows :=
      (mem_insert hs).mpr (Or.inr ⟨hx, (hlast row List.mem_cons_self).symm⟩)
    exact ih (sorted_insert row hs) hkeep fun y hy => hlast y (List.mem_cons_of_mem _ hy)

/-- With distinct keys the map holds every row. -/
theorem mem_ofList (hd : rows.Pairwise fun a b => key a ≠ key b) :
    x ∈ ofList key rows ↔ x ∈ rows := by
  refine ⟨mem_of_mem_ofList, ?_⟩
  suffices ∀ acc, Sorted key acc → x ∈ rows →
      x ∈ rows.foldl (fun acc row => insert key row acc) acc from this [] sorted_nil
  intro acc hs hx
  induction rows generalizing acc with
  | nil => exact absurd hx List.not_mem_nil
  | cons head rest ih =>
    obtain ⟨hhead, hrest⟩ := List.pairwise_cons.mp hd
    rcases List.mem_cons.mp hx with hxh | hxr
    · have hself : x ∈ insert key head acc := hxh ▸ mem_insert_self
      rw [List.foldl_cons]
      exact mem_foldl_insert (sorted_insert head hs) hself
        fun y hy => hxh ▸ (hhead y hy).symm
    · exact ih hrest (insert key head acc) (sorted_insert head hs) hxr

/-- The keys of the map are those of the rows put in. -/
theorem exists_mem_ofList (key : α → κ) (rows : List α) (k : κ) :
    (∃ x ∈ ofList key rows, key x = k) ↔ ∃ x ∈ rows, key x = k := by
  constructor
  · rintro ⟨x, hx, hk⟩
    exact ⟨x, mem_of_mem_ofList hx, hk⟩
  suffices ∀ acc, Sorted key acc → ((∃ x ∈ rows, key x = k) ∨ ∃ x ∈ acc, key x = k) →
      ∃ x ∈ rows.foldl (fun acc row => insert key row acc) acc, key x = k from
    fun h => this [] sorted_nil (Or.inl h)
  intro acc hs h
  induction rows generalizing acc with
  | nil =>
    rcases h with ⟨x, hx, _⟩ | h
    · exact absurd hx List.not_mem_nil
    · exact h
  | cons head rest ih =>
    refine ih (insert key head acc) (sorted_insert head hs) ?_
    rcases h with ⟨x, hx, hk⟩ | ⟨x, hx, hk⟩
    · rcases List.mem_cons.mp hx with rfl | hx
      · exact Or.inr ⟨x, mem_insert_self, hk⟩
      · exact Or.inl ⟨x, hx, hk⟩
    · by_cases heq : key x = key head
      · exact Or.inr ⟨head, mem_insert_self, heq ▸ hk⟩
      · exact Or.inr ⟨x, (mem_insert hs).mpr (Or.inr ⟨hx, heq⟩), hk⟩

end Axe.SortedMap
