import Axe.Lib.OrderedMap
import Axe.Lib.StableSort

/-!
# Looking up a point among ranges by their starts

The rows are half-open ranges. An index keeps the first row of every start, and a lookup looks
only at the row of the greatest start that is not behind the point. When that finds a row for
every point that some row covers, and when the order of rows that do not meet does not count, is
told by the rows alone.
-/
namespace Axe

/-- The same rows in an order that differs only between rows that are related. -/
inductive Rearranged {α : Type} (free : α → α → Prop) : List α → List α → Prop
  | refl (l) : Rearranged free l l
  | cons (a) {l k} : Rearranged free l k → Rearranged free (a :: l) (a :: k)
  | swap {a b} (l) : free a b → Rearranged free (a :: b :: l) (b :: a :: l)
  | trans {l k m} : Rearranged free l k → Rearranged free k m → Rearranged free l m

namespace Rearranged
variable {α : Type} {free : α → α → Prop} {l k before after : List α} {a : α} {p : α → Bool}

theorem perm (h : Rearranged free l k) : l.Perm k := by
  induction h with
  | refl l => exact List.Perm.refl l
  | cons a _ ih => exact ih.cons a
  | swap l _ => exact List.Perm.swap _ _ l
  | trans _ _ ih ih' => exact ih.trans ih'

/-- Rows no two of which may change places keep their order. -/
theorem filter_eq (h : Rearranged free l k)
    (hp : ∀ a ∈ l, ∀ b ∈ l, p a = true → p b = true → ¬ free a b) :
    l.filter p = k.filter p := by
  induction h with
  | refl l => rfl
  | cons a _ ih =>
    have hrest := ih fun b hb c hc =>
      hp b (List.mem_cons_of_mem _ hb) c (List.mem_cons_of_mem _ hc)
    rw [List.filter_cons, List.filter_cons, hrest]
  | swap l hfree =>
    rename_i a b
    by_cases ha : p a = true
    · have hb : ¬ p b = true := fun hb =>
        hp a List.mem_cons_self b (List.mem_cons_of_mem _ List.mem_cons_self) ha hb hfree
      simp only [List.filter_cons, if_pos ha, if_neg hb]
    · simp only [List.filter_cons, if_neg ha]
  | trans h _ ih ih' =>
    exact (ih hp).trans (ih' fun a ha b hb =>
      hp a (h.perm.mem_iff.mpr ha) b (h.perm.mem_iff.mpr hb))

/-- A row that may change places with every other one can come first. -/
theorem to_front (h : ∀ b ∈ before, free b a) :
    Rearranged free (before ++ a :: after) (a :: (before ++ after)) := by
  induction before with
  | nil => exact .refl _
  | cons b before ih =>
    have ha := ih fun b hb => h b (List.mem_cons_of_mem _ hb)
    exact (ha.cons b).trans (.swap _ (h b List.mem_cons_self))

end Rearranged

/-- The first row of every start, with the starts in order. -/
structure RangeIndex (κ α : Type) [LinearOrder κ] where
  starts : List κ
  byStart : OrderedMap κ α
  starts_eq : starts = byStart.rows.map Prod.fst

namespace RangeIndex
variable {κ α : Type} [LinearOrder κ] {start stop : α → κ} {rows k : List α} {x : κ} {a f : α}

def insertFirst (start : α → κ) (m : OrderedMap κ α) (a : α) : OrderedMap κ α :=
  m.upsert (start a) fun v => v.getD a

def ofRows (start : α → κ) (rows : List α) : RangeIndex κ α :=
  let byStart := rows.foldl (insertFirst start) .empty
  ⟨byStart.rows.map Prod.fst, byStart, rfl⟩

/-- How many of the starts, which are in order, are not behind a point. -/
def partitionPoint (starts : List κ) (x : κ) : Nat := (starts.takeWhile (· ≤ x)).length

/-- The last start that is not behind a point. -/
def floor (starts : List κ) (x : κ) : Option κ :=
  let count := partitionPoint starts x
  if count = 0 then none else starts[count - 1]?

def lookup (start stop : α → κ) (index : RangeIndex κ α) (x : κ) : Option α := do
  let first ← floor index.starts x
  let row ← index.byStart.get first
  if start row ≤ x ∧ x < stop row then some row else none

def Covers (start stop : α → κ) (x : κ) (a : α) : Prop := start a ≤ x ∧ x < stop a

def Meet (start stop : α → κ) (a b : α) : Prop := ∃ x, Covers start stop x a ∧ Covers start stop x b

/-- A row that covers a point, with the greatest start of those that do. -/
structure Nearest (start stop : α → κ) (rows : List α) (x : κ) (a : α) : Prop where
  mem : a ∈ rows
  covers : Covers start stop x a
  greatest : ∀ b ∈ rows, Covers start stop x b → start b ≤ start a

/-- The first row of the greatest start that is not behind the point. -/
def First (start : α → κ) (rows : List α) (x : κ) (f : α) : Prop :=
  Foremost (fun a => OrderDual.toDual (start a)) (rows.filter fun a => start a ≤ x) f

/-- Either no row covers the point, or the row that the index looks at does, and no empty row
starts where it does. -/
def Plain (start stop : α → κ) (rows : List α) (x : κ) : Prop :=
  (∀ a ∈ rows, ¬ Covers start stop x a) ∨
    ∃ f, First start rows x f ∧ x < stop f ∧ ∀ a ∈ rows, start a = start f → start a < stop a

theorem floor_cons_of_le {s : κ} {starts : List κ} (h : s ≤ x) :
    floor (s :: starts) x = some ((floor starts x).getD s) := by
  have hlength : (starts.takeWhile (· ≤ x)).length ≤ starts.length :=
    (List.takeWhile_prefix _).length_le
  rw [floor, floor, partitionPoint, partitionPoint, List.takeWhile_cons,
    if_pos (decide_eq_true h), List.length_cons]
  generalize (starts.takeWhile (· ≤ x)).length = n at hlength
  cases n with
  | zero => simp
  | succ n => simp [List.getElem?_eq_getElem (show n < starts.length by omega)]

theorem floor_cons_of_lt {s : κ} {starts : List κ} (h : x < s) : floor (s :: starts) x = none := by
  rw [floor, partitionPoint, List.takeWhile_cons,
    if_neg fun hle => (of_decide_eq_true hle : s ≤ x).not_gt h]
  rfl

theorem floor_eq_none {starts : List κ} (hsorted : starts.Pairwise (· < ·)) :
    floor starts x = none ↔ ∀ s ∈ starts, x < s := by
  cases starts with
  | nil => simp [floor, partitionPoint]
  | cons s starts =>
    obtain ⟨hs, -⟩ := List.pairwise_cons.mp hsorted
    rcases lt_or_ge x s with h | h
    · rw [floor_cons_of_lt h]
      exact iff_of_true rfl (List.forall_mem_cons.mpr ⟨h, fun t ht => h.trans (hs t ht)⟩)
    · rw [floor_cons_of_le h]
      exact iff_of_false (by simp) fun hall => (hall s List.mem_cons_self).not_ge h

theorem floor_eq_some {starts : List κ} {s : κ} (hsorted : starts.Pairwise (· < ·))
    (h : floor starts x = some s) : s ∈ starts ∧ s ≤ x ∧ ∀ t ∈ starts, t ≤ x → t ≤ s := by
  induction starts with
  | nil => simp [floor, partitionPoint] at h
  | cons t starts ih =>
    obtain ⟨ht, hsorted⟩ := List.pairwise_cons.mp hsorted
    rcases lt_or_ge x t with hlt | hle
    · rw [floor_cons_of_lt hlt] at h
      cases h
    rw [floor_cons_of_le hle] at h
    cases hrest : floor starts x with
    | none =>
      rw [hrest, Option.getD_none, Option.some.injEq] at h
      subst h
      refine ⟨List.mem_cons_self, hle, List.forall_mem_cons.mpr ⟨fun _ => le_rfl, ?_⟩⟩
      exact fun u hu hux => absurd hux (((floor_eq_none hsorted).mp hrest u hu).not_ge)
    | some u =>
      rw [hrest, Option.getD_some, Option.some.injEq] at h
      subst h
      obtain ⟨hmem, hux, hgreatest⟩ := ih hsorted hrest
      refine ⟨List.mem_cons_of_mem _ hmem, hux, List.forall_mem_cons.mpr ⟨?_, hgreatest⟩⟩
      exact fun _ => (ht u hmem).le

/-- Of the rows of a start the index has the first. -/
theorem get_byStart (s : κ) :
    (ofRows start rows).byStart.get s = (rows.filter fun a => start a = s).head? := by
  have hfold : ∀ (rows : List α) (v : Option α),
      rows.foldl (fun v a => some (v.getD a)) v = v.or rows.head? := by
    intro rows
    induction rows with
    | nil => exact fun v => by cases v <;> rfl
    | cons a rows ih =>
      intro v
      rw [List.foldl_cons, ih]
      cases v <;> rfl
  have hget := OrderedMap.get_foldl_upsert (m := .empty) (k := s) start
    (fun a v => Option.getD v a) rows
  rw [hfold] at hget
  exact hget

theorem starts_sorted (index : RangeIndex κ α) : index.starts.Pairwise (· < ·) := by
  rw [index.starts_eq, List.pairwise_map]
  exact index.byStart.sorted

theorem mem_starts {s : κ} : s ∈ (ofRows start rows).starts ↔ ∃ a ∈ rows, start a = s := by
  rw [(ofRows start rows).starts_eq, OrderedMap.mem_keys]
  simp only [get_byStart]
  constructor
  · rintro ⟨a, ha⟩
    obtain ⟨hmem, hs⟩ := List.mem_filter.mp (List.mem_of_head? ha)
    exact ⟨a, hmem, of_decide_eq_true hs⟩
  · rintro ⟨a, hmem, rfl⟩
    cases hrows : rows.filter fun b => start b = start a with
    | nil =>
      exact absurd (decide_eq_true rfl) (List.filter_eq_nil_iff.mp hrows a hmem)
    | cons b rest => exact ⟨b, rfl⟩

theorem First.mem (h : First start rows x f) : f ∈ rows := (List.mem_filter.mp (Foremost.mem h)).1

theorem First.le (h : First start rows x f) : start f ≤ x :=
  of_decide_eq_true (List.mem_filter.mp (Foremost.mem h)).2

theorem First.greatest (h : First start rows x f) (ha : a ∈ rows) (hx : start a ≤ x) :
    start a ≤ start f := by
  unfold First at h
  exact h.le (List.mem_filter.mpr ⟨ha, decide_eq_true hx⟩)

theorem First.head?_filter (h : First start rows x f) :
    (rows.filter fun a => start a = start f).head? = some f := by
  have hhead := Foremost.head?_filter h
  rw [List.filter_filter] at hhead
  rw [← hhead]
  refine congrArg List.head? (List.filter_congr fun a _ => ?_)
  by_cases ha : start a = start f
  · simp only [ha, h.le, decide_true, Bool.and_self]
  · simp only [ha, OrderDual.toDual_inj, decide_false, Bool.false_and]

theorem exists_first (ha : a ∈ rows) (hx : start a ≤ x) : ∃ f, First start rows x f :=
  exists_foremost _ (List.mem_filter.mpr ⟨ha, decide_eq_true hx⟩)

/-- The row that a lookup looks at. -/
theorem lookup_of_first (h : First start rows x f) :
    lookup start stop (ofRows start rows) x = if x < stop f then some f else none := by
  have hfloor : floor (ofRows start rows).starts x = some (start f) := by
    cases hs : floor (ofRows start rows).starts x with
    | none =>
      have hlt := (floor_eq_none (starts_sorted _)).mp hs _ (mem_starts.mpr ⟨f, h.mem, rfl⟩)
      exact absurd h.le hlt.not_ge
    | some s =>
      obtain ⟨hmem, hsx, hgreatest⟩ := floor_eq_some (starts_sorted _) hs
      obtain ⟨a, ha, rfl⟩ := mem_starts.mp hmem
      refine congrArg some (le_antisymm (h.greatest ha hsx) ?_)
      exact hgreatest _ (mem_starts.mpr ⟨f, h.mem, rfl⟩) h.le
  rw [lookup, hfloor, Option.bind_eq_bind, Option.bind_some, get_byStart, h.head?_filter,
    Option.bind_eq_bind, Option.bind_some]
  simp only [h.le, true_and]

theorem lookup_of_behind (h : ∀ a ∈ rows, x < start a) :
    lookup start stop (ofRows start rows) x = none := by
  have hfloor : floor (ofRows start rows).starts x = none := by
    refine (floor_eq_none (starts_sorted _)).mpr fun s hs => ?_
    obtain ⟨a, ha, rfl⟩ := mem_starts.mp hs
    exact h a ha
  rw [lookup, hfloor, Option.bind_eq_bind, Option.bind_none]

/-- What a lookup finds is the nearest row that covers the point. -/
theorem lookup_eq_some (h : lookup start stop (ofRows start rows) x = some f) :
    First start rows x f ∧ x < stop f := by
  by_cases hbehind : ∀ a ∈ rows, x < start a
  · rw [lookup_of_behind hbehind] at h
    cases h
  push Not at hbehind
  obtain ⟨a, ha, hx⟩ := hbehind
  obtain ⟨g, hg⟩ := exists_first ha hx
  rw [lookup_of_first hg] at h
  split at h
  · rename_i hstop
    cases h
    exact ⟨hg, hstop⟩
  · cases h

theorem nearest_of_lookup (h : lookup start stop (ofRows start rows) x = some f) :
    Nearest start stop rows x f := by
  obtain ⟨hf, hstop⟩ := lookup_eq_some h
  exact ⟨hf.mem, ⟨hf.le, hstop⟩, fun b hb hcovers => hf.greatest hb hcovers.1⟩

theorem lookup_of_uncovered (h : ∀ a ∈ rows, ¬ Covers start stop x a) :
    lookup start stop (ofRows start rows) x = none := by
  refine Option.eq_none_iff_forall_ne_some.mpr fun f hf => ?_
  have hnear := nearest_of_lookup hf
  exact h f hnear.mem hnear.covers

theorem Plain.exists_lookup (h : Plain start stop rows x) (ha : a ∈ rows)
    (hcovers : Covers start stop x a) :
    ∃ f, lookup start stop (ofRows start rows) x = some f := by
  rcases h with h | ⟨f, hf, hstop, -⟩
  · exact absurd hcovers (h a ha)
  · exact ⟨f, by rw [lookup_of_first hf, if_pos hstop]⟩

/-- Rows that do not meet may change places without changing what is found. -/
theorem Plain.lookup_eq (h : Plain start stop rows x)
    (hk : Rearranged (fun a b => ¬ Meet start stop a b) rows k) :
    lookup start stop (ofRows start k) x = lookup start stop (ofRows start rows) x := by
  rcases h with h | ⟨f, hf, hstop, hplain⟩
  · rw [lookup_of_uncovered h, lookup_of_uncovered fun a ha => h a (hk.perm.mem_iff.mpr ha)]
  · obtain ⟨g, hg⟩ := exists_first (hk.perm.mem_iff.mp hf.mem) hf.le
    have hstart : start g = start f := le_antisymm
      (hf.greatest (hk.perm.mem_iff.mpr hg.mem) hg.le)
      (hg.greatest (hk.perm.mem_iff.mp hf.mem) hf.le)
    -- the rows of one start all cover it, so they keep their order
    have hcovers : ∀ a ∈ rows, decide (start a = start f) = true →
        Covers start stop (start f) a := fun a ha hs => by
      have hs := of_decide_eq_true hs
      exact ⟨hs.le, hs ▸ hplain a ha hs⟩
    have hsame : (rows.filter fun a => start a = start f) =
        k.filter fun a => start a = start f :=
      hk.filter_eq fun a ha b hb hsa hsb hfree =>
        hfree ⟨start f, hcovers a ha hsa, hcovers b hb hsb⟩
    have hgf : some g = some f := by rw [← hg.head?_filter, hstart, ← hsame, hf.head?_filter]
    rw [lookup_of_first hf, lookup_of_first hg, Option.some.inj hgf]

theorem isSome_lookup (h : (lookup start stop (ofRows start rows) x).isSome = true) :
    ∃ f, First start rows x f ∧ x < stop f := by
  obtain ⟨f, hf⟩ := Option.isSome_iff_exists.mp h
  exact ⟨f, lookup_eq_some hf⟩

/-- An empty row that comes first hides every row of its start. -/
theorem exists_hidden {e : α} (he : e ∈ rows) (hempty : stop e ≤ start e)
    (hf : First start rows x f) (hstart : start e = start f) :
    ∃ k, Rearranged (fun a b => ¬ Meet start stop a b) rows k ∧
      lookup start stop (ofRows start k) x = none := by
  obtain ⟨before, after, rfl⟩ := List.append_of_mem he
  have hfree : ∀ b ∈ before, ¬ Meet start stop b e := by
    rintro b - ⟨y, -, hle, hlt⟩
    exact (hlt.trans_le (hempty.trans hle)).false
  refine ⟨e :: (before ++ after), .to_front hfree, ?_⟩
  have hx : start e ≤ x := hstart ▸ hf.le
  have hfirst : First start (e :: (before ++ after)) x e := by
    refine ⟨[], (before ++ after).filter fun a => start a ≤ x, ?_, by simp, fun a ha => ?_⟩
    · rw [List.filter_cons, if_pos (decide_eq_true hx), List.nil_append]
    · obtain ⟨ha, hax⟩ := List.mem_filter.mp ha
      have hmem : a ∈ before ++ e :: after :=
        (List.mem_append.mp ha).elim (List.mem_append_left _)
          fun ha => List.mem_append_right _ (List.mem_cons_of_mem _ ha)
      exact OrderDual.toDual_le_toDual.mpr
        (hstart ▸ hf.greatest hmem (of_decide_eq_true hax))
  rw [lookup_of_first hfirst, if_neg (hempty.trans hx).not_gt]

/-- A lookup finds a row for a point that is covered, and in every order, only when the rows
are plain there. -/
theorem plain_of_isSome
    (hfound : (∃ a ∈ rows, Covers start stop x a) →
      (lookup start stop (ofRows start rows) x).isSome = true)
    (hstable : ∀ k, Rearranged (fun a b => ¬ Meet start stop a b) rows k →
      (lookup start stop (ofRows start k) x).isSome =
        (lookup start stop (ofRows start rows) x).isSome) :
    Plain start stop rows x := by
  by_cases hcovered : ∃ a ∈ rows, Covers start stop x a
  · have hsome := hfound hcovered
    obtain ⟨f, hf, hstop⟩ := isSome_lookup hsome
    refine .inr ⟨f, hf, hstop, fun e he hstart => lt_of_not_ge fun hempty => ?_⟩
    obtain ⟨k, hk, hnone⟩ := exists_hidden he hempty hf hstart
    have hsame := hstable k hk
    rw [hsome, hnone, Option.isSome_none] at hsame
    exact Bool.false_ne_true hsame
  · push Not at hcovered
    exact .inl hcovered

end RangeIndex
end Axe
