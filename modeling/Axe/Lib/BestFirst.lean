import Mathlib.Data.List.Forall2
import Mathlib.Data.Prod.Lex
import Mathlib.Algebra.Order.Ring.Int
import Axe.Lib.SortedMap
import Axe.Lib.StableSort

/-!
# The best of keyed rows

Rows of several sources carry a key and a priority. A selection keeps the first row of every key,
ranks what is left by falling priority and then by the key, and cuts the list. When that gives
the keys of the greatest priorities, in whatever order each source has its rows, is told by the
rows of each key in the first source that has one.
-/
namespace Axe.BestFirst

section
variable {α κ : Type}

/-- Falling priorities, and rising keys under one priority. -/
abbrev Rank (κ : Type) := ℤᵒᵈ ×ₗ κ

def rankOf (p : ℤ) (k : κ) : Rank κ := toLex (OrderDual.toDual p, k)

def rank (priority : α → ℤ) (key : α → κ) (a : α) : Rank κ := rankOf (priority a) (key a)

/-- The highest priority of any row with a key. -/
def Highest (priority : α → ℤ) (key : α → κ) (rows : List α) (p : ℤ) (k : κ) : Prop :=
  (∃ a ∈ rows, key a = k ∧ priority a = p) ∧ ∀ a ∈ rows, key a = k → priority a ≤ p

variable {priority : α → ℤ} {key : α → κ} {rows rows' : List α} {p q : ℤ} {j k : κ}

theorem rankOf_inj : rankOf p j = rankOf q k ↔ p = q ∧ j = k := by
  rw [rankOf, rankOf, toLex_inj, Prod.mk.injEq, OrderDual.toDual_inj]

theorem highest_congr (h : ∀ a, a ∈ rows ↔ a ∈ rows') :
    Highest priority key rows p k ↔ Highest priority key rows' p k := by
  simp only [Highest, h]

/-- Rows of the same ranks look alike when those of the same keys do. -/
theorem map_view_eq {β : Type} {view : α → β} {l l' : List α}
    (hrank : l.map (rank priority key) = l'.map (rank priority key))
    (hview : ∀ a ∈ l, ∀ b ∈ l', key a = key b → view a = view b) : l.map view = l'.map view := by
  induction l generalizing l' with
  | nil =>
    rw [List.map_nil, eq_comm, List.map_eq_nil_iff] at hrank
    rw [hrank]
  | cons a l ih =>
    cases l' with
    | nil => cases hrank
    | cons b l' =>
      rw [List.map_cons, List.map_cons, List.cons.injEq] at hrank
      have hhead := hview a List.mem_cons_self b List.mem_cons_self (rankOf_inj.mp hrank.1).2
      rw [List.map_cons, List.map_cons, hhead, ih hrank.2 fun a ha b hb =>
        hview a (List.mem_cons_of_mem _ ha) b (List.mem_cons_of_mem _ hb)]

end

section
variable {α κ : Type} [LinearOrder κ]

/-- The rows whose key was not seen before. -/
def firstsFrom (key : α → κ) : List κ → List α → List α
  | _, [] => []
  | seen, a :: rows =>
    if key a ∈ seen then firstsFrom key seen rows else a :: firstsFrom key (key a :: seen) rows

def firsts (key : α → κ) (rows : List α) : List α := firstsFrom key [] rows

def select (priority : α → ℤ) (key : α → κ) (cap : Nat) (rows : List α) : List α :=
  (sortBy (rank priority key) (firsts key rows)).take cap

/-- All keys by their highest priorities, best first. -/
structure Ranks (priority : α → ℤ) (key : α → κ) (rows : List α) (ranked : List (Rank κ)) :
    Prop where
  sorted : ranked.Pairwise (· < ·)
  mem : ∀ p k, rankOf p k ∈ ranked ↔ Highest priority key rows p k

/-- The rows of a key in the first source that has one. -/
def leaders (key : α → κ) (k : κ) : List (List α) → List α
  | [] => []
  | rows :: rest =>
    if rows.filter (fun a => key a = k) = [] then leaders key k rest
    else rows.filter fun a => key a = k

variable {β : Type} {priority : α → ℤ} {key : α → κ} {view : α → β} {cap : Nat} {k : κ}
  {seen : List κ} {rows rows' : List α} {a b : α} {ranked ranked' : List (Rank κ)} {r : Rank κ}
  {sources sources' : List (List α)}

theorem mem_firstsFrom : a ∈ firstsFrom key seen rows ↔
    key a ∉ seen ∧ (rows.filter fun b => key b = key a).head? = some a := by
  induction rows generalizing seen with
  | nil => simp [firstsFrom]
  | cons b rows ih =>
    rw [firstsFrom]
    by_cases hb : key b ∈ seen
    · rw [if_pos hb, ih, List.filter_cons]
      refine and_congr_right fun ha => ?_
      rw [if_neg fun h => ha ((of_decide_eq_true h : key b = key a) ▸ hb)]
    · rw [if_neg hb, List.mem_cons, ih, List.filter_cons, List.mem_cons]
      by_cases hk : key b = key a
      · rw [if_pos (decide_eq_true hk), List.head?_cons, Option.some.injEq]
        constructor
        · rintro (rfl | ⟨hnot, -⟩)
          · exact ⟨hb, rfl⟩
          · exact absurd (.inl hk.symm) hnot
        · exact fun h => .inl h.2.symm
      · rw [if_neg fun h => hk (of_decide_eq_true h)]
        constructor
        · rintro (rfl | ⟨hnot, hhead⟩)
          · exact absurd rfl hk
          · exact ⟨fun h => hnot (.inr h), hhead⟩
        · exact fun ⟨hnot, hhead⟩ =>
            .inr ⟨fun h => h.elim (fun h => hk h.symm) hnot, hhead⟩

theorem mem_firsts :
    a ∈ firsts key rows ↔ (rows.filter fun b => key b = key a).head? = some a := by
  rw [firsts, mem_firstsFrom]
  exact and_iff_right List.not_mem_nil

theorem mem_of_mem_firsts (h : a ∈ firsts key rows) : a ∈ rows :=
  (List.mem_filter.mp (List.mem_of_head? (mem_firsts.mp h))).1

theorem nodup_firstsFrom : ((firstsFrom key seen rows).map key).Nodup := by
  induction rows generalizing seen with
  | nil => exact List.nodup_nil
  | cons b rows ih =>
    rw [firstsFrom]
    split
    · exact ih
    · rw [List.map_cons, List.nodup_cons]
      refine ⟨fun hmem => ?_, ih⟩
      obtain ⟨a, ha, hkey⟩ := List.mem_map.mp hmem
      exact (mem_firstsFrom.mp ha).1 (hkey ▸ List.mem_cons_self)

theorem firstsFrom_append : firstsFrom key seen (rows ++ rows') = firstsFrom key seen rows ++
    firstsFrom key (((firstsFrom key seen rows).map key).reverse ++ seen) rows' := by
  induction rows generalizing seen with
  | nil => rfl
  | cons a rows ih =>
    rw [List.cons_append, firstsFrom, firstsFrom]
    by_cases ha : key a ∈ seen
    · rw [if_pos ha, if_pos ha, ih]
    · rw [if_neg ha, if_neg ha, ih, List.map_cons, List.reverse_cons, List.append_assoc,
        List.singleton_append, List.cons_append]

/-- Later rows do not change which of the earlier ones are first. -/
theorem firsts_append : firsts key (rows ++ rows') = firsts key rows ++
    firstsFrom key ((firsts key rows).map key).reverse rows' := by
  rw [firsts, firstsFrom_append, List.append_nil, firsts]

theorem firsts_of_nodup (h : (rows.map key).Nodup) : firsts key rows = rows := by
  have hall : ∀ rows seen, (∀ a ∈ rows, key a ∉ seen) → (rows.map key).Nodup →
      firstsFrom key seen rows = rows := by
    intro rows
    induction rows with
    | nil => exact fun _ _ _ => rfl
    | cons a rows ih =>
      intro seen hseen hnodup
      obtain ⟨ha, hrest⟩ := List.nodup_cons.mp hnodup
      rw [firstsFrom, if_neg (hseen a List.mem_cons_self), ih _ (fun b hb hmem => ?_) hrest]
      rcases List.mem_cons.mp hmem with heq | hmem
      · exact ha (heq ▸ List.mem_map_of_mem hb)
      · exact hseen b (List.mem_cons_of_mem _ hb) hmem
  exact hall rows [] (fun _ _ => List.not_mem_nil) h

theorem exists_first (key : α → κ) (ha : a ∈ rows) : ∃ b ∈ firsts key rows, key b = key a := by
  cases h : rows.filter fun b => key b = key a with
  | nil => exact absurd (decide_eq_true rfl) (List.filter_eq_nil_iff.mp h a ha)
  | cons b rest =>
    have hb : key b = key a := by
      have hmem : b ∈ rows.filter fun b => key b = key a := h ▸ List.mem_cons_self
      exact of_decide_eq_true (List.mem_filter.mp hmem).2
    exact ⟨b, mem_firsts.mpr (by rw [hb, h, List.head?_cons]), hb⟩

theorem rankOf_le {p q : ℤ} (h : p ≤ q) : rankOf q k ≤ rankOf p k := by
  rw [rankOf, rankOf, Prod.Lex.toLex_le_toLex]
  rcases h.lt_or_eq with hlt | rfl
  · exact .inl hlt
  · exact .inr ⟨rfl, le_rfl⟩

/-- Rows kept once a key are ranked strictly. -/
theorem sorted_ranks :
    ((sortBy (rank priority key) (firsts key rows)).map (rank priority key)).Pairwise (· < ·) := by
  have hperm : (sortBy (rank priority key) (firsts key rows)).Perm (firsts key rows) :=
    List.mergeSort_perm _ _
  have hdistinct : (sortBy (rank priority key) (firsts key rows)).Pairwise
      fun a b => key a ≠ key b := by
    have hnodup : ((sortBy (rank priority key) (firsts key rows)).map key).Nodup :=
      (hperm.map key).nodup_iff.mpr nodup_firstsFrom
    exact List.pairwise_map.mp hnodup
  rw [List.pairwise_map]
  refine ((sorts_sortBy _).sorted.and hdistinct).imp fun h => ?_
  exact lt_of_le_of_ne h.1 fun heq => h.2 (rankOf_inj.mp heq).2

theorem mem_ranks : r ∈ (sortBy (rank priority key) (firsts key rows)).map (rank priority key) ↔
    ∃ a ∈ firsts key rows, rank priority key a = r := by
  simp only [List.mem_map, (sorts_sortBy (firsts key rows)).mem_iff]

theorem exists_highest (priority : α → ℤ) (key : α → κ) (ha : a ∈ rows) :
    ∃ p, Highest priority key rows p (key a) := by
  have hmem : a ∈ rows.filter fun b => key b = key a :=
    List.mem_filter.mpr ⟨ha, decide_eq_true rfl⟩
  obtain ⟨f, hf⟩ := exists_foremost (fun b => OrderDual.toDual (priority b)) hmem
  obtain ⟨hfm, hfk⟩ := List.mem_filter.mp hf.mem
  refine ⟨priority f, ⟨f, hfm, of_decide_eq_true hfk, rfl⟩, fun b hb hkey => ?_⟩
  exact hf.le (List.mem_filter.mpr ⟨hb, decide_eq_true hkey⟩)

theorem Ranks.unique (h : Ranks priority key rows ranked) (h' : Ranks priority key rows' ranked')
    (hrows : ∀ a, a ∈ rows ↔ a ∈ rows') : ranked = ranked' := by
  have hmem : ∀ r, r ∈ ranked ↔ r ∈ ranked' := fun r =>
    ((h.mem _ (ofLex r).2).trans (highest_congr hrows)).trans (h'.mem _ _).symm
  exact @SortedMap.Sorted.eq_of_mem_iff (Rank κ) _ (Rank κ) id _ _ h.sorted h'.sorted hmem

/-- The ranks of the first rows with the highest priorities are those of all keys. -/
theorem exists_ranks (priority : α → ℤ) (key : α → κ) (rows : List α) :
    ∃ ranked, Ranks priority key rows ranked := by
  let best := rows.filter fun a => ∀ b ∈ rows, key b = key a → priority b ≤ priority a
  have hbest : ∀ a, a ∈ best ↔ a ∈ rows ∧ ∀ b ∈ rows, key b = key a → priority b ≤ priority a :=
    fun a => by rw [List.mem_filter, decide_eq_true_iff]
  refine ⟨(sortBy (rank priority key) (firsts key best)).map (rank priority key), sorted_ranks,
    fun p k => ?_⟩
  rw [mem_ranks]
  constructor
  · rintro ⟨a, ha, hr⟩
    obtain ⟨hmem, hhigh⟩ := (hbest a).mp (mem_of_mem_firsts ha)
    obtain ⟨rfl, rfl⟩ := rankOf_inj.mp hr
    exact ⟨⟨a, hmem, rfl, rfl⟩, hhigh⟩
  · rintro ⟨⟨a, ha, rfl, rfl⟩, hhigh⟩
    obtain ⟨b, hb, hkey⟩ := exists_first key ((hbest a).mpr ⟨ha, hhigh⟩)
    obtain ⟨hmem, hle⟩ := (hbest b).mp (mem_of_mem_firsts hb)
    exact ⟨b, hb, rankOf_inj.mpr ⟨le_antisymm (hhigh b hmem hkey) (hle a ha hkey.symm), hkey⟩⟩

/-- Of two strict orders the one whose members lie before all others of the other begins it. -/
theorem take_eq_of_below {γ : Type} [LinearOrder γ] {l m : List γ} (hl : l.Pairwise (· < ·))
    (hm : m.Pairwise (· < ·)) (hsub : ∀ x ∈ l, x ∈ m) (hbelow : ∀ x ∈ m, x ∉ l → ∀ y ∈ l, y < x) :
    m.take l.length = l := by
  induction l generalizing m with
  | nil => rfl
  | cons a l ih =>
    obtain ⟨ha, hl⟩ := List.pairwise_cons.mp hl
    cases m with
    | nil => exact absurd (hsub a List.mem_cons_self) List.not_mem_nil
    | cons b m =>
      obtain ⟨hb, hmrest⟩ := List.pairwise_cons.mp hm
      have hab : a = b := by
        rcases List.mem_cons.mp (hsub a List.mem_cons_self) with hab | ham
        · exact hab
        · by_contra hne
          have hbl : b ∉ a :: l := fun hbl => by
            rcases List.mem_cons.mp hbl with rfl | hbl
            · exact hne rfl
            · exact lt_asymm (ha b hbl) (hb a ham)
          exact lt_asymm (hbelow b List.mem_cons_self hbl a List.mem_cons_self) (hb a ham)
      subst hab
      rw [List.length_cons, List.take_succ_cons, ih hl hmrest]
      · intro x hx
        rcases List.mem_cons.mp (hsub x (List.mem_cons_of_mem _ hx)) with rfl | hxm
        · exact absurd (ha x hx) (lt_irrefl _)
        · exact hxm
      · intro x hx hxl y hy
        refine hbelow x (List.mem_cons_of_mem _ hx) (fun hxal => ?_) y (List.mem_cons_of_mem _ hy)
        rcases List.mem_cons.mp hxal with rfl | hxal
        · exact lt_irrefl _ (hb x hx)
        · exact hxl hxal

theorem mem_firsts_unique (ha : a ∈ firsts key rows) (hb : b ∈ firsts key rows)
    (hkey : key a = key b) : a = b := by
  have hhead := mem_firsts.mp ha
  rw [hkey, mem_firsts.mp hb] at hhead
  exact (Option.some.inj hhead).symm

theorem mem_of_mem_select (h : a ∈ select priority key cap rows) : a ∈ firsts key rows :=
  (sorts_sortBy _).mem_iff.mp (List.mem_of_mem_take h)

theorem map_select : (select priority key cap rows).map (rank priority key) =
    ((sortBy (rank priority key) (firsts key rows)).map (rank priority key)).take cap :=
  List.map_take ..

/-- The selection has the best keys exactly when the first row of each of these has the highest
priority of the key. -/
theorem select_eq_iff (h : Ranks priority key rows ranked) :
    (select priority key cap rows).map (rank priority key) = ranked.take cap ↔
      ∀ p k, rankOf p k ∈ ranked.take cap → ∀ a ∈ firsts key rows, key a = k → priority a = p := by
  constructor
  · intro heq p k hmem a ha hkey
    rw [← heq] at hmem
    obtain ⟨b, hb, hr⟩ := List.mem_map.mp hmem
    obtain ⟨hp, hk⟩ := rankOf_inj.mp hr
    rw [mem_firsts_unique ha (mem_of_mem_select hb) (hkey.trans hk.symm), hp]
  · intro hfirst
    rw [map_select]
    have hranked : ∀ p k, rankOf p k ∈ ranked.take cap → rankOf p k ∈
        (sortBy (rank priority key) (firsts key rows)).map (rank priority key) := by
      intro p k hmem
      obtain ⟨⟨a, ha, hk, -⟩, -⟩ := (h.mem p k).mp (List.mem_of_mem_take hmem)
      obtain ⟨b, hb, hbk⟩ := exists_first key ha
      have hkey := hbk.trans hk
      exact mem_ranks.mpr ⟨b, hb, rankOf_inj.mpr ⟨hfirst p k hmem b hb hkey, hkey⟩⟩
    -- a row that is not among the best has a key that is not, or one of lower priority
    have hrest : ∀ a ∈ firsts key rows, rank priority key a ∉ ranked.take cap →
        ∃ r ∈ ranked.drop cap, r ≤ rank priority key a := by
      intro a ha hnot
      obtain ⟨p, hp⟩ := exists_highest priority key (mem_of_mem_firsts ha)
      have hmem := (h.mem p (key a)).mpr hp
      rw [← List.take_append_drop cap ranked, List.mem_append] at hmem
      rcases hmem with hmem | hmem
      · have hpa := hfirst p (key a) hmem a ha rfl
        exact absurd hmem (hpa ▸ hnot)
      · exact ⟨_, hmem, rankOf_le (hp.2 a (mem_of_mem_firsts ha) rfl)⟩
    rcases le_or_gt ranked.length cap with hle | hlt
    · -- the cap is not reached, and the rows are the keys
      rw [List.take_of_length_le hle] at hranked hrest ⊢
      have hdrop : ranked.drop cap = [] := List.drop_eq_nil_iff.mpr hle
      have hsame : ∀ r, r ∈ (sortBy (rank priority key) (firsts key rows)).map
          (rank priority key) ↔ r ∈ ranked := by
        intro r
        refine ⟨fun hr => ?_, fun hr => hranked _ (ofLex r).2 hr⟩
        obtain ⟨a, ha, rfl⟩ := mem_ranks.mp hr
        by_contra hnot
        obtain ⟨r', hr', -⟩ := hrest a ha hnot
        exact List.not_mem_nil (hdrop ▸ hr')
      have heq := @SortedMap.Sorted.eq_of_mem_iff (Rank κ) _ (Rank κ) id _ _ sorted_ranks
        h.sorted hsame
      rw [heq, List.take_of_length_le hle]
    · have hbelow := take_eq_of_below (h.sorted.sublist (List.take_sublist cap ranked))
        (@sorted_ranks α κ _ priority key rows) (fun r hr => hranked _ (ofLex r).2 hr)
        fun r hr hnot s hs => by
          obtain ⟨a, ha, rfl⟩ := mem_ranks.mp hr
          obtain ⟨t, ht, hle⟩ := hrest a ha hnot
          have hsplit := h.sorted
          rw [← List.take_append_drop cap ranked, List.pairwise_append] at hsplit
          exact (hsplit.2.2 s hs t ht).trans_le hle
      rwa [List.length_take, min_eq_left hlt.le] at hbelow

theorem leaders_filter : (sources.flatten.filter fun a => key a = k).head? =
    (leaders key k sources).head? := by
  induction sources with
  | nil => rfl
  | cons rows rest ih =>
    rw [List.flatten_cons, List.filter_append, leaders]
    split
    · rename_i hnil
      rw [hnil, List.nil_append, ih]
    · rename_i hsome
      exact List.head?_append_of_ne_nil _ hsome

/-- A leading row of a key is of a source behind some that have none. -/
theorem mem_leaders (h : a ∈ leaders key k sources) : ∃ before rows after,
    sources = before ++ rows :: after ∧ (∀ l ∈ before, l.filter (fun a => key a = k) = []) ∧
      a ∈ rows ∧ key a = k := by
  induction sources with
  | nil => exact absurd h List.not_mem_nil
  | cons rows rest ih =>
    rw [leaders] at h
    split at h
    · rename_i hnil
      obtain ⟨before, l, after, rfl, hnone, ha⟩ := ih h
      exact ⟨rows :: before, l, after, rfl, List.forall_mem_cons.mpr ⟨hnil, hnone⟩, ha⟩
    · obtain ⟨ha, hk⟩ := List.mem_filter.mp h
      exact ⟨[], rows, rest, rfl, List.forall_mem_nil _, ha, of_decide_eq_true hk⟩

theorem leaders_append {before : List (List α)}
    (h : ∀ l ∈ before, l.filter (fun a => key a = k) = []) :
    leaders key k (before ++ sources) = leaders key k sources := by
  induction before with
  | nil => rfl
  | cons l before ih =>
    obtain ⟨hnil, hbefore⟩ := List.forall_mem_cons.mp h
    rw [List.cons_append, leaders, if_pos hnil, ih hbefore]

theorem leaders_perm (h : List.Forall₂ List.Perm sources sources') :
    (leaders key k sources).Perm (leaders key k sources') := by
  induction h with
  | nil => exact List.Perm.refl _
  | cons hrows _ ih =>
    rename_i l l' rest rest' hrest
    have hfilter := hrows.filter fun a => decide (key a = k)
    have hiff : l.filter (fun a => key a = k) = [] ↔ l'.filter (fun a => key a = k) = [] := by
      rw [← List.length_eq_zero_iff, hfilter.length_eq, List.length_eq_zero_iff]
    rw [leaders, leaders]
    by_cases hnil : l.filter (fun a => key a = k) = []
    · rw [if_pos hnil, if_pos (hiff.mp hnil)]
      exact ih
    · rw [if_neg hnil, if_neg fun hnil' => hnil (hiff.mpr hnil')]
      exact hfilter

/-- The rows of each of the best keys in the first source that has one look alike, and have the
highest priority of the key. -/
def Agree (priority : α → ℤ) (key : α → κ) (view : α → β) (cap : Nat)
    (sources : List (List α)) : Prop :=
  ∀ ranked, Ranks priority key sources.flatten ranked → ∀ p k, rankOf p k ∈ ranked.take cap →
    ∀ a ∈ leaders key k sources, priority a = p ∧ ∀ b ∈ leaders key k sources, view a = view b

/-- The selection has the best keys with their highest priorities. -/
def Best (priority : α → ℤ) (key : α → κ) (cap : Nat) (rows : List α) : Prop :=
  ∃ ranked, Ranks priority key rows ranked ∧
    (select priority key cap rows).map (rank priority key) = ranked.take cap

theorem mem_flatten_perm (h : List.Forall₂ List.Perm sources sources') :
    ∀ a, a ∈ sources.flatten ↔ a ∈ sources'.flatten := by
  induction h with
  | nil => exact fun a => Iff.rfl
  | cons hrows _ ih =>
    intro a
    rw [List.flatten_cons, List.flatten_cons, List.mem_append, List.mem_append, hrows.mem_iff, ih]

theorem mem_leaders_of_firsts (ha : a ∈ firsts key sources.flatten) :
    a ∈ leaders key (key a) sources := by
  have hhead := mem_firsts.mp ha
  rw [leaders_filter] at hhead
  exact List.mem_of_head? hhead

theorem mem_flatten_of_leaders (h : a ∈ leaders key k sources) :
    a ∈ sources.flatten ∧ key a = k := by
  obtain ⟨before, rows, after, rfl, -, ha, hk⟩ := mem_leaders h
  exact ⟨List.mem_flatten.mpr ⟨rows, List.mem_append_right _ List.mem_cons_self, ha⟩, hk⟩

/-- Rows of different keys always agree. -/
theorem agree_of_injOn
    (h : ∀ a ∈ sources.flatten, ∀ b ∈ sources.flatten, key a = key b → a = b) :
    Agree priority key view cap sources := by
  intro ranked hranked p k hmem a ha
  obtain ⟨ha, hkey⟩ := mem_flatten_of_leaders ha
  obtain ⟨⟨best, hbest, hbestKey, hp⟩, -⟩ := (hranked.mem p k).mp (List.mem_of_mem_take hmem)
  have hsame := h a ha best hbest (hkey.trans hbestKey.symm)
  refine ⟨hsame ▸ hp, fun b hb => ?_⟩
  obtain ⟨hb, hkey'⟩ := mem_flatten_of_leaders hb
  rw [h a ha b hb (hkey.trans hkey'.symm)]

/-- Where the leading rows agree, the best keys are selected from every order of the sources. -/
theorem best_of_agree (h : Agree priority key view cap sources)
    (hperm : List.Forall₂ List.Perm sources sources') : Best priority key cap sources'.flatten := by
  obtain ⟨ranked, hranked⟩ := exists_ranks priority key sources.flatten
  have hranked' : Ranks priority key sources'.flatten ranked :=
    ⟨hranked.sorted, fun p k => (hranked.mem p k).trans (highest_congr (mem_flatten_perm hperm))⟩
  refine ⟨ranked, hranked', (select_eq_iff hranked').mpr fun p k hmem a ha hkey => ?_⟩
  have hlead := hkey ▸ mem_leaders_of_firsts ha
  exact (h ranked hranked p k hmem a ((leaders_perm hperm).mem_iff.mpr hlead)).1

/-- Where the leading rows agree, the order of the sources does not show. -/
theorem select_view_of_agree (h : Agree priority key view cap sources)
    (hperm : List.Forall₂ List.Perm sources sources') :
    (select priority key cap sources'.flatten).map view =
      (select priority key cap sources.flatten).map view := by
  obtain ⟨ranked, hranked, hselect⟩ :=
    best_of_agree h (List.forall₂_same.mpr fun l _ => List.Perm.refl l)
  obtain ⟨ranked', hranked', hselect'⟩ := best_of_agree h hperm
  have hsame : ranked' = ranked :=
    hranked'.unique hranked fun a => (mem_flatten_perm hperm a).symm
  refine map_view_eq (hselect'.trans (hsame ▸ hselect.symm)) fun a ha b hb hkey => ?_
  have hbest : rank priority key b ∈ ranked.take cap :=
    hselect ▸ List.mem_map.mpr ⟨b, hb, rfl⟩
  have hlead := hkey ▸ mem_leaders_of_firsts (mem_of_mem_select ha)
  have hlead' := mem_leaders_of_firsts (mem_of_mem_select hb)
  exact (h ranked hranked _ _ hbest a ((leaders_perm hperm).mem_iff.mpr hlead)).2 b hlead'

/-- When any row of a source can come first in it, up to its looks, and the best keys are selected
with the same looks from every order, the leading rows agree. -/
theorem agree_of_select (Reached : List (List α) → Prop)
    (hview : ∀ a b, view a = view b → priority a = priority b)
    (hmove : ∀ before l after, sources = before ++ l :: after → ∀ b ∈ l, ∃ l' c, l.Perm l' ∧
      Reached (before ++ l' :: after) ∧ (l'.filter fun a => key a = key b).head? = some c ∧
        view c = view b)
    (hselect : ∀ sources', Reached sources' → Best priority key cap sources'.flatten ∧
      (select priority key cap sources'.flatten).map view =
        (select priority key cap sources.flatten).map view) :
    Agree priority key view cap sources := by
  intro ranked hranked p k hmem
  obtain ⟨i, hi⟩ := List.mem_iff_getElem?.mp hmem
  -- every leading row of the key comes to stand at its place in the selection
  have hlead : ∀ b ∈ leaders key k sources, priority b = p ∧
      ((select priority key cap sources.flatten).map view)[i]? = some (view b) := by
    intro b hb
    obtain ⟨before, l, after, hsources, hnone, hbl, hbk⟩ := mem_leaders hb
    obtain ⟨l', c, hperm, hreached, hhead, hlook⟩ := hmove before l after hsources b hbl
    rw [hbk] at hhead
    obtain ⟨⟨ranked', hranked', hrank⟩, hsame⟩ := hselect _ hreached
    have hflat : ∀ a, a ∈ (before ++ l' :: after).flatten ↔ a ∈ sources.flatten := fun a => by
      rw [hsources, List.flatten_append, List.flatten_append, List.flatten_cons,
        List.flatten_cons, List.mem_append, List.mem_append, List.mem_append, List.mem_append,
        hperm.mem_iff]
    rw [hranked'.unique hranked hflat] at hrank
    have hfirst : ((before ++ l' :: after).flatten.filter fun a => key a = k).head? = some c := by
      rw [leaders_filter, leaders_append hnone, leaders,
        if_neg fun hnil => by rw [hnil] at hhead; cases hhead]
      exact hhead
    rw [← hrank, List.getElem?_map, Option.map_eq_some_iff] at hi
    obtain ⟨d, hd, hr⟩ := hi
    obtain ⟨hdp, hdk⟩ := rankOf_inj.mp hr
    have hdc : d = c := by
      have hd' := mem_firsts.mp (mem_of_mem_select (List.mem_of_getElem? hd))
      rw [hdk, hfirst] at hd'
      exact (Option.some.inj hd').symm
    refine ⟨(hview _ _ hlook).symm.trans (hdc ▸ hdp), ?_⟩
    rw [← hsame, List.getElem?_map, hd, Option.map_some, hdc, hlook]
  intro a ha
  refine ⟨(hlead a ha).1, fun b hb => Option.some.inj ?_⟩
  rw [← (hlead a ha).2, ← (hlead b hb).2]

end
end Axe.BestFirst
