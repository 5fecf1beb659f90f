import Mathlib.Data.Finmap
import Mathlib.Order.Bounds.Defs

/-!
# The frontier queue of the concolic scheduler

A heap of scored entries, a map from keys to items and the order of eviction. An
entry is not removed when its key is pushed again or evicted. The score is any
total order; the sweep after a pop walks the map in an order that is not known.
-/
namespace Axe.Concolic

/-- A candidate branch. The data that neither the key nor the aging uses is one field. -/
structure FrontierItem (N D : Type) where
  branchPc : Nat
  branchIndex : Nat
  noveltyScore : N
  rest : D

abbrev Key := Nat × Nat

def FrontierItem.dedupKey {N D : Type} (item : FrontierItem N D) : Key :=
  (item.branchPc, item.branchIndex)

/-- An entry of the heap, which sorts by its score and then by its address. -/
structure ScoredItem (S : Type) where
  score : S
  pcTiebreak : Nat
  key : Key

def ScoredItem.le {S : Type} [LinearOrder S] (a b : ScoredItem S) : Prop :=
  a.score < b.score ∨ a.score = b.score ∧ a.pcTiebreak ≤ b.pcTiebreak

/-- How items are scored and how the novelty of a skipped item grows. -/
structure Scoring (N D S : Type) where
  scoreItem : FrontierItem N D → S
  bump : N → N

structure ConcolicBacklog (N D S : Type) where
  heap : List (ScoredItem S)
  byKey : Finmap fun _ : Key => FrontierItem N D
  lruOrder : List Key
  cap : Nat

section Operations
variable {N D S : Type} (sc : Scoring N D S)

def Scoring.scored (item : FrontierItem N D) : ScoredItem S :=
  ⟨sc.scoreItem item, item.branchPc, item.dedupKey⟩

def Scoring.aged (item : FrontierItem N D) : FrontierItem N D :=
  { item with noveltyScore := sc.bump item.noveltyScore }

namespace ConcolicBacklog

def withCapacity (cap : Nat) : ConcolicBacklog N D S := ⟨[], ∅, [], cap⟩

def len (b : ConcolicBacklog N D S) : Nat := b.byKey.keys.card

def isEmpty (b : ConcolicBacklog N D S) : Bool := b.len = 0

/-- A new key at capacity drops the key at the front of the eviction order. -/
def evict (b : ConcolicBacklog N D S) (key : Key) : ConcolicBacklog N D S × Option Key :=
  if key ∉ b.byKey ∧ b.cap ≤ b.len then
    match b.lruOrder with
    | k :: rest => ({ b with lruOrder := rest, byKey := b.byKey.erase k }, some k)
    | [] => (b, none)
  else (b, none)

/-- The key moves to the back of the eviction order, and the heap gets a further entry. -/
def insert (b : ConcolicBacklog N D S) (item : FrontierItem N D) : ConcolicBacklog N D S :=
  let lru := if item.dedupKey ∈ b.byKey then b.lruOrder.erase item.dedupKey else b.lruOrder
  { b with
    heap := sc.scored item :: b.heap
    byKey := b.byKey.insert item.dedupKey item
    lruOrder := lru ++ [item.dedupKey] }

def push (b : ConcolicBacklog N D S) (item : FrontierItem N D) :
    ConcolicBacklog N D S × Option Key :=
  ((b.evict item.dedupKey).1.insert sc item, (b.evict item.dedupKey).2)

/-- One item of the sweep. -/
def reinsert (b : ConcolicBacklog N D S) (item : FrontierItem N D) : ConcolicBacklog N D S :=
  { b with
    heap := sc.scored item :: b.heap
    byKey := b.byKey.insert item.dedupKey item
    lruOrder := b.lruOrder ++ [item.dedupKey] }

/-- The aged items, in the order the map is walked, fill the cleared containers. -/
def ageOthersAfterPop (b : ConcolicBacklog N D S) (order : List Key) : ConcolicBacklog N D S :=
  if b.isEmpty then b
  else (order.filterMap fun k => (b.byKey.lookup k).map sc.aged).foldl (reinsert sc)
    { b with heap := [], byKey := ∅, lruOrder := [] }

/-- The queue without an item. -/
def take (b : ConcolicBacklog N D S) (key : Key) : ConcolicBacklog N D S :=
  { b with byKey := b.byKey.erase key, lruOrder := b.lruOrder.erase key }

end ConcolicBacklog

variable [LinearOrder S]

/-- The heap gives up one of its greatest entries. -/
structure HeapPop (heap : List (ScoredItem S)) (top : ScoredItem S) (rest : List (ScoredItem S)) :
    Prop where
  perm : heap.Perm (top :: rest)
  greatest : ∀ e ∈ heap, e.le top

/-- A walk of the map: every key once. -/
def Enumerates (order : List Key) (m : Finmap fun _ : Key => FrontierItem N D) : Prop :=
  order.Nodup ∧ ∀ k, k ∈ order ↔ k ∈ m

/-- A pop, with the order in which its sweep walks the map. Entries whose key is gone are
skipped. -/
inductive Pops : ConcolicBacklog N D S → Option (FrontierItem N D) → List Key →
    ConcolicBacklog N D S → Prop
  | empty {b : ConcolicBacklog N D S} : b.heap = [] → Pops b none [] b
  | skip {b b' : ConcolicBacklog N D S} {r : Option (FrontierItem N D)} {order : List Key}
      {top : ScoredItem S} {rest : List (ScoredItem S)} : HeapPop b.heap top rest →
      b.byKey.lookup top.key = none → Pops { b with heap := rest } r order b' → Pops b r order b'
  | found {b : ConcolicBacklog N D S} {item : FrontierItem N D} {order : List Key}
      {top : ScoredItem S} {rest : List (ScoredItem S)} : HeapPop b.heap top rest →
      b.byKey.lookup top.key = some item → Enumerates order (b.byKey.erase top.key) →
      Pops b (some item) order
        (({ b with heap := rest }.take top.key).ageOthersAfterPop sc order)

end Operations

section Map
variable {V : Type} {m : Finmap fun _ : Key => V} {k k' : Key} {v w : V}

theorem lookup_insert_iff : (m.insert k v).lookup k' = some w ↔
    k' = k ∧ v = w ∨ k' ≠ k ∧ m.lookup k' = some w := by
  by_cases h : k' = k
  · subst h
    simp [Finmap.lookup_insert]
  · simp [Finmap.lookup_insert_of_ne _ h, h]

theorem lookup_erase_iff : (m.erase k).lookup k' = some w ↔ k' ≠ k ∧ m.lookup k' = some w := by
  by_cases h : k' = k
  · subst h
    simp [Finmap.lookup_erase]
  · simp [Finmap.lookup_erase_ne h, h]

theorem keys_insert : (m.insert k v).keys = insert k m.keys := by
  ext x
  simp [Finmap.mem_keys, Finmap.mem_insert]

end Map

section Sync
variable {N D S : Type} {sc : Scoring N D S} {b b' : ConcolicBacklog N D S}
  {item : FrontierItem N D} {k : Key}

/-- The three containers agree, and every item has an entry with its score. -/
structure ConcolicBacklog.InSync (sc : Scoring N D S) (b : ConcolicBacklog N D S) : Prop where
  keyed : ∀ k item, b.byKey.lookup k = some item → item.dedupKey = k
  nodup : b.lruOrder.Nodup
  mem : ∀ k, k ∈ b.lruOrder ↔ k ∈ b.byKey
  len : b.len ≤ b.cap
  current : ∀ k item, b.byKey.lookup k = some item → sc.scored item ∈ b.heap

theorem ConcolicBacklog.InSync.lru_length (h : b.InSync sc) : b.lruOrder.length = b.len := by
  have hset : b.lruOrder.toFinset = b.byKey.keys := by
    ext k
    rw [List.mem_toFinset, h.mem, Finmap.mem_keys]
  rw [ConcolicBacklog.len, ← hset, List.toFinset_card_of_nodup h.nodup]

theorem withCapacity_inSync (cap : Nat) : (ConcolicBacklog.withCapacity cap).InSync sc where
  keyed _ _ h := by cases h
  nodup := .nil
  mem _ := by simp [ConcolicBacklog.withCapacity, Finmap.notMem_empty]
  len := Nat.zero_le _
  current _ _ h := by cases h

theorem isEmpty_iff : b.isEmpty = true ↔ ∀ k, k ∉ b.byKey := by
  rw [ConcolicBacklog.isEmpty, decide_eq_true_iff, ConcolicBacklog.len, Finset.card_eq_zero,
    Finset.eq_empty_iff_forall_notMem]
  simp only [Finmap.mem_keys]

theorem evict_lookup {k : Key} {it : FrontierItem N D} (key : Key)
    (h : (b.evict key).1.byKey.lookup k = some it) : b.byKey.lookup k = some it := by
  unfold ConcolicBacklog.evict at h
  split at h
  · split at h
    · exact (lookup_erase_iff.mp h).2
    · exact h
  · exact h

@[simp] theorem evict_heap (key : Key) : (b.evict key).1.heap = b.heap := by
  unfold ConcolicBacklog.evict
  split
  · split <;> rfl
  · rfl

theorem evict_sublist (key : Key) : (b.evict key).1.lruOrder.Sublist b.lruOrder := by
  unfold ConcolicBacklog.evict
  split
  · split
    · rename_i hlru
      rw [hlru]
      exact List.sublist_cons_self _ _
    · exact .refl _
  · exact .refl _

/-- After the eviction there is room for a new key. -/
theorem evict_inSync (hcap : 1 ≤ b.cap) (h : b.InSync sc) :
    (b.evict k).1.InSync sc ∧ (b.evict k).1.cap = b.cap ∧
      (k ∉ (b.evict k).1.byKey → (b.evict k).1.len < b.cap) ∧
      (k ∈ (b.evict k).1.byKey ↔ k ∈ b.byKey) := by
  unfold ConcolicBacklog.evict
  split
  · rename_i hfull
    split
    · rename_i x rest hlru
      have hnd := h.nodup
      rw [hlru] at hnd
      obtain ⟨hx, hrest⟩ := List.nodup_cons.mp hnd
      have hxk : x ∈ b.byKey := (h.mem x).mp (by simp [hlru])
      have hlen : (b.byKey.erase x).keys.card = b.len - 1 := by
        rw [Finmap.keys_erase, Finset.card_erase_of_mem (Finmap.mem_keys.mpr hxk)]
        rfl
      have hpos : 0 < b.len := Finset.card_pos.mpr ⟨x, Finmap.mem_keys.mpr hxk⟩
      have hle := h.len
      refine ⟨⟨?_, hrest, ?_, ?_, ?_⟩, rfl, fun _ => ?_, ?_⟩
      · intro k it hk
        exact h.keyed k it (lookup_erase_iff.mp hk).2
      · intro k
        have := h.mem k
        rw [hlru, List.mem_cons] at this
        rw [Finmap.mem_erase]
        by_cases hkx : k = x
        · subst hkx
          simp [hx]
        · simp only [hkx, false_or] at this
          simp [this, hkx]
      · show (b.byKey.erase x).keys.card ≤ b.cap
        omega
      · intro k it hk
        exact h.current k it (lookup_erase_iff.mp hk).2
      · show (b.byKey.erase x).keys.card < b.cap
        omega
      · rw [Finmap.mem_erase]
        exact ⟨fun h => h.2, fun h => absurd h hfull.1⟩
    · rename_i hlru
      have := h.lru_length
      rw [hlru, List.length_nil] at this
      exact ⟨h, rfl, fun _ => show b.len < b.cap by omega, Iff.rfl⟩
  · rename_i hroom
    exact ⟨h, rfl, fun hk => not_le.mp fun hfull => hroom ⟨hk, hfull⟩, Iff.rfl⟩

/-- The pushed key is the last one of the order, and the others keep their places. -/
theorem insert_lru (sc : Scoring N D S) (item : FrontierItem N D) (h : b.InSync sc) :
    ∃ older, (b.insert sc item).lruOrder = older ++ [item.dedupKey] ∧ older.Nodup ∧
      (∀ k, k ∈ older ↔ k ≠ item.dedupKey ∧ k ∈ b.byKey) ∧ older.Sublist b.lruOrder := by
  by_cases hk : item.dedupKey ∈ b.byKey
  · refine ⟨b.lruOrder.erase item.dedupKey, ?_, h.nodup.erase _, fun k => ?_, List.erase_sublist⟩
    · simp only [ConcolicBacklog.insert, if_pos hk]
    · rw [h.nodup.mem_erase_iff, h.mem]
  · refine ⟨b.lruOrder, ?_, h.nodup, fun k => ?_, .refl _⟩
    · simp only [ConcolicBacklog.insert, if_neg hk]
    · rw [h.mem]
      exact ⟨fun h => ⟨fun heq => hk (heq ▸ h), h⟩, fun h => h.2⟩

theorem insert_inSync (h : b.InSync sc) (hroom : item.dedupKey ∉ b.byKey → b.len < b.cap) :
    (b.insert sc item).InSync sc := by
  obtain ⟨older, hlru, hnd, hmem, -⟩ := insert_lru sc item h
  refine ⟨?_, ?_, ?_, ?_, ?_⟩
  · intro k it hk
    obtain ⟨rfl, rfl⟩ | ⟨-, hk⟩ := lookup_insert_iff.mp hk
    · rfl
    · exact h.keyed k it hk
  · rw [hlru]
    refine List.nodup_append.mpr ⟨hnd, by simp, ?_⟩
    rintro x hx y hy rfl
    exact ((hmem x).mp hx).1 (List.mem_singleton.mp hy)
  · intro k
    rw [hlru, List.mem_append, List.mem_singleton, hmem]
    show _ ↔ k ∈ b.byKey.insert item.dedupKey item
    rw [Finmap.mem_insert]
    tauto
  · show (b.byKey.insert item.dedupKey item).keys.card ≤ b.cap
    rw [keys_insert]
    by_cases hk : item.dedupKey ∈ b.byKey
    · rw [Finset.insert_eq_of_mem (Finmap.mem_keys.mpr hk)]
      exact h.len
    · exact (Finset.card_insert_le _ _).trans (hroom hk)
  · intro k it hk
    obtain ⟨rfl, rfl⟩ | ⟨-, hk⟩ := lookup_insert_iff.mp hk
    · exact List.mem_cons_self
    · exact List.mem_cons_of_mem _ (h.current k it hk)

theorem push_inSync (hcap : 1 ≤ b.cap) (h : b.InSync sc) (item : FrontierItem N D) :
    (b.push sc item).1.InSync sc ∧ (b.push sc item).1.cap = b.cap := by
  obtain ⟨hs, hc, hroom, -⟩ := evict_inSync (k := item.dedupKey) hcap h
  exact ⟨insert_inSync hs fun hk => hc ▸ hroom hk, hc⟩

/-- What the sweep has put in after some items of different keys. -/
theorem foldl_reinsert (sc : Scoring N D S) (items : List (FrontierItem N D))
    (hnd : (items.map FrontierItem.dedupKey).Nodup) (b : ConcolicBacklog N D S) :
    let b' := items.foldl (ConcolicBacklog.reinsert sc) b
    b'.cap = b.cap ∧ b'.lruOrder = b.lruOrder ++ items.map FrontierItem.dedupKey ∧
      (∀ e, e ∈ b'.heap ↔ e ∈ b.heap ∨ ∃ it ∈ items, e = sc.scored it) ∧
      ∀ k it, b'.byKey.lookup k = some it ↔ (it ∈ items ∧ it.dedupKey = k) ∨
        (k ∉ items.map FrontierItem.dedupKey ∧ b.byKey.lookup k = some it) := by
  induction items generalizing b with
  | nil => simp
  | cons x items ih =>
    obtain ⟨hx, hnd⟩ := List.nodup_cons.mp hnd
    obtain ⟨hcap, hlru, hheap, hlookup⟩ := ih hnd (b.reinsert sc x)
    refine ⟨hcap, ?_, fun e => ?_, fun k it => ?_⟩
    · rw [List.foldl_cons, hlru]
      simp [ConcolicBacklog.reinsert]
    · rw [List.foldl_cons, hheap]
      simp only [ConcolicBacklog.reinsert, List.mem_cons, exists_eq_or_imp]
      tauto
    · rw [List.foldl_cons, hlookup]
      simp only [ConcolicBacklog.reinsert, lookup_insert_iff, List.map_cons, List.mem_cons]
      constructor
      · rintro (⟨hit, hk⟩ | ⟨hk, ⟨rfl, rfl⟩ | ⟨hne, hb⟩⟩)
        · exact .inl ⟨.inr hit, hk⟩
        · exact .inl ⟨.inl rfl, rfl⟩
        · exact .inr ⟨fun h => h.elim hne hk, hb⟩
      · rintro (⟨rfl | hit, hk⟩ | ⟨hk, hb⟩)
        · exact .inr ⟨hk ▸ hx, .inl ⟨hk.symm, rfl⟩⟩
        · exact .inl ⟨hit, hk⟩
        · exact .inr ⟨fun h => hk (.inr h), .inr ⟨fun h => hk (.inl h), hb⟩⟩

/-- The sweep keeps the items, aged, and lists them in the order the map was walked. -/
theorem ageOthers_spec (sc : Scoring N D S) {order : List Key}
    (hkeyed : ∀ k it, b.byKey.lookup k = some it → it.dedupKey = k)
    (ho : Enumerates order b.byKey) (hne : b.isEmpty = false) :
    let b' := b.ageOthersAfterPop sc order
    b'.cap = b.cap ∧ b'.lruOrder = order ∧
      (∀ e, e ∈ b'.heap ↔ ∃ k it, b'.byKey.lookup k = some it ∧ e = sc.scored it) ∧
      ∀ k, b'.byKey.lookup k = (b.byKey.lookup k).map sc.aged := by
  have hmap : (order.filterMap fun k => (b.byKey.lookup k).map sc.aged).map FrontierItem.dedupKey =
      order := by
    have hmem := fun k hk => (ho.2 k).mp hk
    clear ho
    induction order with
    | nil => rfl
    | cons k order ih =>
      obtain ⟨it, hit⟩ := Finmap.mem_iff.mp (hmem k (by simp))
      rw [List.filterMap_cons_some (by rw [hit]; rfl), List.map_cons,
        ih fun k hk => hmem k (by simp [hk])]
      exact congrArg (· :: order) (hkeyed k it hit)
  have hitems : ∀ it, it ∈ (order.filterMap fun k => (b.byKey.lookup k).map sc.aged) ↔
      ∃ k it', b.byKey.lookup k = some it' ∧ sc.aged it' = it := by
    intro it
    simp only [List.mem_filterMap, Option.map_eq_some_iff]
    constructor
    · rintro ⟨k, -, it', h⟩
      exact ⟨k, it', h⟩
    · rintro ⟨k, it', h⟩
      exact ⟨k, (ho.2 k).mpr (Finmap.mem_iff.mpr ⟨it', h.1⟩), it', h⟩
  obtain ⟨hcap, hlru, hheap, hlookup⟩ := foldl_reinsert sc
    (order.filterMap fun k => (b.byKey.lookup k).map sc.aged) (by rw [hmap]; exact ho.1)
    ({ b with heap := [], byKey := ∅, lruOrder := [] } : ConcolicBacklog N D S)
  have haged : ∀ k it, ((order.filterMap fun k => (b.byKey.lookup k).map sc.aged).foldl
      (ConcolicBacklog.reinsert sc)
      { b with heap := [], byKey := ∅, lruOrder := [] }).byKey.lookup k = some it ↔
      (b.byKey.lookup k).map sc.aged = some it := by
    intro k it
    rw [hlookup, hitems, Finmap.lookup_empty, Option.map_eq_some_iff]
    simp only [reduceCtorEq, and_false, or_false]
    constructor
    · rintro ⟨⟨k', it', hk', rfl⟩, hkey⟩
      have : k' = k := (hkeyed k' it' hk').symm.trans hkey
      exact ⟨it', this ▸ hk', rfl⟩
    · rintro ⟨it', hk', rfl⟩
      exact ⟨⟨k, it', hk', rfl⟩, hkeyed k it' hk'⟩
  rw [ConcolicBacklog.ageOthersAfterPop, if_neg (by simp [hne])]
  refine ⟨hcap, ?_, fun e => ?_, fun k => Option.ext fun it => haged k it⟩
  · rw [hlru, hmap]
    rfl
  · rw [hheap]
    simp only [List.not_mem_nil, false_or, hitems, haged, Option.map_eq_some_iff]
    constructor
    · rintro ⟨it, ⟨k, it', hk, hit⟩, he⟩
      exact ⟨k, it, ⟨it', hk, hit⟩, he⟩
    · rintro ⟨k, it, ⟨it', hk, hit⟩, he⟩
      exact ⟨it, ⟨k, it', hk, hit⟩, he⟩

/-- An entry without an item may go. -/
theorem skip_inSync {top : ScoredItem S} {rest : List (ScoredItem S)} (h : b.InSync sc)
    (hperm : b.heap.Perm (top :: rest)) (hgone : b.byKey.lookup top.key = none) :
    ({ b with heap := rest } : ConcolicBacklog N D S).InSync sc where
  keyed := h.keyed
  nodup := h.nodup
  mem := h.mem
  len := h.len
  current k it hk := by
    have hin := hperm.mem_iff.mp (h.current k it hk)
    rcases List.mem_cons.mp hin with rfl | hin
    · rw [Scoring.scored, h.keyed k it hk, hk] at hgone
      cases hgone
    · exact hin

/-- After a found item the order of eviction is the order of the walk, and the entries are the
current ones if an item is left. -/
theorem found_spec (rest : List (ScoredItem S)) {order : List Key} (h : b.InSync sc)
    (ho : Enumerates order (b.byKey.erase k)) :
    let b' := (({ b with heap := rest } : ConcolicBacklog N D S).take k).ageOthersAfterPop sc order
    b'.InSync sc ∧ b'.cap = b.cap ∧ b'.lruOrder = order ∧
      (∀ e ∈ b'.heap, ∀ it, b'.byKey.lookup e.key = some it → e = sc.scored it) ∧
      ∀ k', b'.byKey.lookup k' = if k' = k then none else (b.byKey.lookup k').map sc.aged := by
  generalize hleft : ({ b with heap := rest } : ConcolicBacklog N D S).take k = left
  have hmap : left.byKey = b.byKey.erase k := hleft ▸ rfl
  have hlru : left.lruOrder = b.lruOrder.erase k := hleft ▸ rfl
  have hcap : left.cap = b.cap := hleft ▸ rfl
  have hlookup : ∀ k', left.byKey.lookup k' = if k' = k then none else b.byKey.lookup k' := by
    intro k'
    rw [hmap]
    split
    · rename_i heq
      rw [heq, Finmap.lookup_erase]
    · rename_i hne
      exact Finmap.lookup_erase_ne hne
  have hkeyed : ∀ k' it, left.byKey.lookup k' = some it → it.dedupKey = k' := fun k' it hk' =>
    h.keyed k' it (lookup_erase_iff.mp (hmap ▸ hk')).2
  have hlen : left.len ≤ b.cap := by
    rw [ConcolicBacklog.len, hmap, Finmap.keys_erase]
    exact (Finset.card_le_card (Finset.erase_subset _ _)).trans h.len
  rw [← hmap] at ho
  cases hemp : left.isEmpty with
  | true =>
    have hnone := isEmpty_iff.mp hemp
    have hgone : ∀ k', left.byKey.lookup k' = none := fun k' =>
      Finmap.lookup_eq_none.mpr (hnone k')
    have horder : order = [] := List.eq_nil_iff_forall_not_mem.mpr fun x hx =>
      hnone x ((ho.2 x).mp hx)
    have hnil : left.lruOrder = [] := List.eq_nil_iff_forall_not_mem.mpr fun x hx => by
      obtain ⟨hne, hx⟩ := h.nodup.mem_erase_iff.mp (hlru ▸ hx)
      exact hnone x (hmap ▸ Finmap.mem_erase.mpr ⟨hne, (h.mem x).mp hx⟩)
    simp only [ConcolicBacklog.ageOthersAfterPop, hemp, if_true]
    refine ⟨⟨hkeyed, by simp [hnil], fun k' => by simp [hnil, hnone k'], hcap ▸ hlen,
      fun k' it hk' => ?_⟩, hcap, hnil.trans horder.symm, fun e _ it he => ?_, fun k' => ?_⟩
    · rw [hgone] at hk'
      cases hk'
    · rw [hgone] at he
      cases he
    · have hk' := hlookup k'
      rw [hgone] at hk' ⊢
      split
      · rfl
      · rename_i hne
        rw [if_neg hne] at hk'
        rw [← hk']
        rfl
  | false =>
    obtain ⟨hcap', hlru', hheap, hlookup'⟩ := ageOthers_spec sc hkeyed ho hemp
    generalize left.ageOthersAfterPop sc order = b' at hcap' hlru' hheap hlookup' ⊢
    have hkeyed' : ∀ k' it, b'.byKey.lookup k' = some it → it.dedupKey = k' := by
      intro k' it hk'
      rw [hlookup'] at hk'
      obtain ⟨it', hit', rfl⟩ := Option.map_eq_some_iff.mp hk'
      exact hkeyed k' it' hit'
    have hmem : ∀ k', k' ∈ b'.byKey ↔ k' ∈ left.byKey := by
      intro k'
      rw [← Finmap.lookup_isSome, ← Finmap.lookup_isSome, hlookup', Option.isSome_map]
    have hkeys : b'.byKey.keys = left.byKey.keys := Finset.ext fun x => by
      rw [Finmap.mem_keys, Finmap.mem_keys, hmem]
    refine ⟨⟨hkeyed', by rw [hlru']; exact ho.1, fun k' => ?_, ?_, fun k' it hk' => ?_⟩,
      hcap'.trans hcap, hlru', fun e he it hit => ?_, fun k' => ?_⟩
    · rw [hlru', hmem, ho.2]
    · rw [hcap', hcap, ConcolicBacklog.len, hkeys]
      exact hlen
    · exact (hheap _).mpr ⟨k', it, hk', rfl⟩
    · obtain ⟨k', it', hk', rfl⟩ := (hheap e).mp he
      rw [Scoring.scored, hkeyed' k' it' hk', hk'] at hit
      cases hit
      rfl
    · rw [hlookup', hlookup]
      split <;> rfl

end Sync

end Axe.Concolic
