import Axe.Lib.SortedMap

/-!
# Maps that carry their order

The rows of a map are pairs of a key and a value in the strict order of the keys.
-/
namespace Axe

structure OrderedMap (κ ν : Type) [LinearOrder κ] where
  rows : List (κ × ν)
  sorted : SortedMap.Sorted Prod.fst rows
  deriving DecidableEq

namespace OrderedMap

variable {κ ν : Type} [LinearOrder κ] {m : OrderedMap κ ν} {j k : κ} {v w : ν} {f : ν → ν}

def empty : OrderedMap κ ν := ⟨[], SortedMap.sorted_nil⟩

def get (m : OrderedMap κ ν) (k : κ) : Option ν := (SortedMap.get? Prod.fst k m.rows).map Prod.snd

def insert (m : OrderedMap κ ν) (k : κ) (v : ν) : OrderedMap κ ν :=
  ⟨SortedMap.insert Prod.fst (k, v) m.rows, SortedMap.sorted_insert _ m.sorted⟩

def erase (m : OrderedMap κ ν) (k : κ) : OrderedMap κ ν :=
  ⟨m.rows.filter fun row => row.1 ≠ k, m.sorted.filter⟩

/-- Changes the value of a key, when there is one. -/
def modify (m : OrderedMap κ ν) (k : κ) (f : ν → ν) : OrderedMap κ ν :=
  (m.get k).elim m fun v => m.insert k (f v)

/-- Gives a key a value made of the one it has, when it has one. -/
def upsert (m : OrderedMap κ ν) (k : κ) (f : Option ν → ν) : OrderedMap κ ν :=
  m.insert k (f (m.get k))

/-- Changes every value. -/
def mapValues (m : OrderedMap κ ν) (f : ν → ν) : OrderedMap κ ν where
  rows := m.rows.map fun row => (row.1, f row.2)
  sorted := by
    rw [SortedMap.Sorted, List.pairwise_map]
    exact m.sorted

def ofList (rows : List (κ × ν)) : OrderedMap κ ν :=
  rows.foldl (fun m row => m.insert row.1 row.2) empty

theorem get_eq_some : m.get k = some v ↔ (k, v) ∈ m.rows := by
  rw [get, Option.map_eq_some_iff]
  constructor
  · rintro ⟨row, hrow, rfl⟩
    obtain ⟨hmem, rfl⟩ := (SortedMap.get?_eq_some m.sorted).mp hrow
    exact hmem
  · exact fun h => ⟨(k, v), (SortedMap.get?_eq_some m.sorted).mpr ⟨h, rfl⟩, rfl⟩

@[simp] theorem get_empty : (empty : OrderedMap κ ν).get k = none := rfl

theorem get_insert : (m.insert k v).get j = if j = k then some v else m.get j := by
  refine Option.ext fun w => ?_
  have hrows : (j, w) ∈ SortedMap.insert Prod.fst (k, v) m.rows ↔ _ := SortedMap.mem_insert m.sorted
  rw [get_eq_some, insert, hrows, Prod.mk.injEq]
  split
  · rename_i h
    simp [h, eq_comm]
  · rename_i h
    simp [h, get_eq_some]

@[simp] theorem get_insert_self : (m.insert k v).get k = some v := by rw [get_insert, if_pos rfl]

theorem get_insert_of_ne (h : j ≠ k) : (m.insert k v).get j = m.get j := by
  rw [get_insert, if_neg h]

theorem get_erase : (m.erase k).get j = if j = k then none else m.get j := by
  refine Option.ext fun w => ?_
  rw [get_eq_some, erase, List.mem_filter, decide_eq_true_iff]
  split
  · rename_i h
    simp [h]
  · rename_i h
    simp [h, get_eq_some]

theorem get_upsert {f : Option ν → ν} :
    (m.upsert k f).get j = if j = k then some (f (m.get k)) else m.get j := get_insert

/-- What some updates make of a key's value is what those at the key make of it. -/
theorem get_foldl_upsert {α : Type} (key : α → κ) (f : α → Option ν → ν) (items : List α) :
    (items.foldl (fun m a => m.upsert (key a) (f a)) m).get k =
      (items.filter fun a => key a = k).foldl (fun v a => some (f a v)) (m.get k) := by
  induction items generalizing m with
  | nil => rfl
  | cons a items ih =>
    rw [List.foldl_cons, ih, get_upsert, List.filter_cons]
    by_cases hk : key a = k
    · rw [if_pos hk.symm, if_pos (decide_eq_true hk), List.foldl_cons, hk]
    · rw [if_neg (Ne.symm hk), if_neg (by simpa using hk)]

theorem get_modify : (m.modify k f).get j = if j = k then (m.get k).map f else m.get j := by
  cases hk : m.get k with
  | none =>
    rw [modify, hk, Option.elim_none]
    split
    · rename_i h
      rw [h, hk, Option.map_none]
    · rfl
  | some v =>
    rw [modify, hk, Option.elim_some]
    exact get_insert

/-- What a map of a list has is of the list. -/
theorem mem_of_get_ofList {rows : List (κ × ν)} (h : (ofList rows).get k = some v) :
    (k, v) ∈ rows := by
  have hfold : ∀ (rows : List (κ × ν)) (m : OrderedMap κ ν),
      (rows.foldl (fun m row => m.insert row.1 row.2) m).get k = some v →
        (k, v) ∈ rows ∨ m.get k = some v := by
    intro rows
    induction rows with
    | nil => exact fun m hget => .inr hget
    | cons row rows ih =>
      intro m hget
      rcases ih _ hget with hmem | hget
      · exact .inl (List.mem_cons_of_mem _ hmem)
      · rw [get_insert] at hget
        split at hget
        · rename_i hk
          rw [hk, ← Option.some.inj hget]
          exact .inl List.mem_cons_self
        · exact .inr hget
  rcases hfold rows empty h with hmem | hnone
  · exact hmem
  · cases hnone

/-- A map of a list has every key of the list. -/
theorem exists_get_ofList {rows : List (κ × ν)} (h : (k, v) ∈ rows) :
    ∃ w, (ofList rows).get k = some w := by
  have hkeep : ∀ (rows : List (κ × ν)) (m : OrderedMap κ ν), (∃ w, m.get k = some w) →
      ∃ w, (rows.foldl (fun m row => m.insert row.1 row.2) m).get k = some w := by
    intro rows
    induction rows with
    | nil => exact fun m hw => hw
    | cons row rows ih =>
      refine fun m hw => ih _ ?_
      rw [get_insert]
      split
      · exact ⟨_, rfl⟩
      · exact hw
  obtain ⟨before, after, rfl⟩ := List.append_of_mem h
  rw [ofList, List.foldl_append, List.foldl_cons]
  exact hkeep _ _ ⟨v, get_insert_self⟩

/-- A map of a list in which no key has two values is the list. -/
theorem get_ofList_iff {rows : List (κ × ν)}
    (hone : ∀ k v w, (k, v) ∈ rows → (k, w) ∈ rows → v = w) :
    (ofList rows).get k = some v ↔ (k, v) ∈ rows := by
  refine ⟨mem_of_get_ofList, fun h => ?_⟩
  obtain ⟨w, hw⟩ := exists_get_ofList h
  rw [hw, hone k v w h (mem_of_get_ofList hw)]

theorem mem_keys : k ∈ m.rows.map Prod.fst ↔ ∃ v, m.get k = some v := by
  rw [List.mem_map]
  constructor
  · rintro ⟨⟨_, v⟩, hrow, rfl⟩
    exact ⟨v, get_eq_some.mpr hrow⟩
  · rintro ⟨v, hv⟩
    exact ⟨(k, v), get_eq_some.mp hv, rfl⟩

theorem get_mapValues : (m.mapValues f).get k = (m.get k).map f := by
  refine Option.ext fun w => ?_
  rw [get_eq_some, mapValues, List.mem_map, Option.map_eq_some_iff]
  constructor
  · rintro ⟨⟨j, v⟩, hrow, heq⟩
    rw [Prod.mk.injEq] at heq
    exact ⟨v, get_eq_some.mpr (heq.1 ▸ hrow), heq.2⟩
  · rintro ⟨v, hv, rfl⟩
    exact ⟨(k, v), get_eq_some.mp hv, rfl⟩

/-- A change of the values of some keys that does nothing the second time. -/
theorem get_foldl_modify (hf : ∀ v, f (f v) = f v) (p : κ → Bool) (keys : List κ) :
    (keys.foldl (fun m k => if p k then m.modify k f else m) m).get j =
      if j ∈ keys ∧ p j = true then (m.get j).map f else m.get j := by
  induction keys generalizing m with
  | nil => rw [List.foldl_nil, if_neg (fun h => List.not_mem_nil h.1)]
  | cons k keys ih =>
    have hhead : (if p k then m.modify k f else m).get j =
        if j = k ∧ p j = true then (m.get j).map f else m.get j := by
      by_cases hp : p k = true
      · rw [if_pos hp, get_modify]
        by_cases hj : j = k
        · subst hj
          rw [if_pos rfl, if_pos ⟨rfl, hp⟩]
        · rw [if_neg hj, if_neg fun h => hj h.1]
      · rw [if_neg hp, if_neg]
        rintro ⟨rfl, h⟩
        exact hp h
    rw [List.foldl_cons, ih, hhead]
    have htwice : ((m.get j).map f).map f = (m.get j).map f := by
      rw [Option.map_map]
      exact congrArg (fun g => (m.get j).map g) (funext hf)
    grind

/-- A map is what it holds for each key. -/
theorem ext_get {m m' : OrderedMap κ ν} (h : ∀ k, m.get k = m'.get k) : m = m' := by
  have hmem : ∀ row, row ∈ m.rows ↔ row ∈ m'.rows := by
    rintro ⟨k, v⟩
    rw [← get_eq_some, ← get_eq_some, h]
  obtain ⟨rows, sorted⟩ := m
  obtain ⟨rows', sorted'⟩ := m'
  have hperm : rows.Perm rows' := (List.perm_ext_iff_of_nodup
    (sorted.imp fun hlt heq => (heq ▸ hlt).false)
    (sorted'.imp fun hlt heq => (heq ▸ hlt).false)).mpr hmem
  have heq : rows = rows' := hperm.eq_of_pairwise
    (fun a b _ _ hab hba => absurd (hab.trans hba) (lt_irrefl _)) sorted sorted'
  subst heq
  rfl

end OrderedMap
end Axe
