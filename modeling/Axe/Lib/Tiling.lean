import Mathlib.Algebra.Order.Ring.Nat
import Mathlib.Data.List.Basic

/-!
# Intervals that tile

Rows with a start and a stop cover the addresses between them. Rows that follow one another
without a break cover every address of the whole once, and the gaps of sorted parts cover what
the parts leave, up to a length each.
-/
namespace Tiling

section
variable {α : Type} {start stop : α → Nat} {rows more : List α} {x : α} {lo mid hi a : Nat}

def covers (start stop : α → Nat) (a : Nat) (x : α) : Bool := start x ≤ a && a < stop x

/-- Rows from an address up to another, one after another. -/
def Tiles (start stop : α → Nat) : Nat → Nat → List α → Prop
  | lo, hi, [] => lo = hi
  | lo, hi, x :: rows => start x = lo ∧ lo < stop x ∧ Tiles start stop (stop x) hi rows

@[simp] theorem covers_iff : covers start stop a x = true ↔ start x ≤ a ∧ a < stop x := by
  simp [covers]

@[simp] theorem tiles_nil : Tiles start stop lo hi [] ↔ lo = hi := Iff.rfl

@[simp] theorem tiles_cons : Tiles start stop lo hi (x :: rows) ↔
    start x = lo ∧ lo < stop x ∧ Tiles start stop (stop x) hi rows := Iff.rfl

theorem Tiles.le (h : Tiles start stop lo hi rows) : lo ≤ hi := by
  induction rows generalizing lo with
  | nil => exact Nat.le_of_eq h
  | cons x rows ih => exact Nat.le_trans (Nat.le_of_lt h.2.1) (ih h.2.2)

theorem Tiles.map {β : Type} {start' stop' : β → Nat} (f : α → β)
    (h : Tiles (fun x => start' (f x)) (fun x => stop' (f x)) lo hi rows) :
    Tiles start' stop' lo hi (rows.map f) := by
  induction rows generalizing lo with
  | nil => exact h
  | cons x rows ih => exact ⟨h.1, h.2.1, ih h.2.2⟩

theorem Tiles.bounds (h : Tiles start stop lo hi rows) (hx : x ∈ rows) :
    lo ≤ start x ∧ start x < stop x ∧ stop x ≤ hi := by
  induction rows generalizing lo with
  | nil => exact absurd hx List.not_mem_nil
  | cons y rows ih =>
    obtain ⟨hstart, hlt, hrest⟩ := h
    rcases List.mem_cons.mp hx with rfl | hx
    · exact ⟨Nat.le_of_eq hstart.symm, by omega, hrest.le⟩
    · obtain ⟨h₁, h₂, h₃⟩ := ih hrest hx
      exact ⟨by omega, h₂, h₃⟩

/-- Every address of the whole is in one row, and no other address is. -/
theorem Tiles.countP (h : Tiles start stop lo hi rows) (a : Nat) :
    rows.countP (covers start stop a) = if lo ≤ a ∧ a < hi then 1 else 0 := by
  induction rows generalizing lo with
  | nil =>
    have hlo := tiles_nil.mp h
    rw [List.countP_nil, if_neg (by omega)]
  | cons x rows ih =>
    obtain ⟨hstart, hlt, hrest⟩ := h
    have hle := hrest.le
    rw [List.countP_cons, ih hrest]
    by_cases hx : start x ≤ a ∧ a < stop x
    · rw [if_pos (covers_iff.mpr hx), if_neg (by omega), if_pos (by omega)]
    · rw [if_neg (fun hc => hx (covers_iff.mp hc)), Nat.add_zero]
      by_cases ha : stop x ≤ a ∧ a < hi
      · rw [if_pos ha, if_pos (by omega)]
      · rw [if_neg ha, if_neg (by omega)]

/-- Rows of which no address is in two have different starts. -/
theorem nodup_starts (hrows : ∀ x ∈ rows, start x < stop x)
    (hone : ∀ a, rows.countP (covers start stop a) ≤ 1) : (rows.map start).Nodup := by
  induction rows with
  | nil => exact List.nodup_nil
  | cons x rows ih =>
    have hx := hrows x List.mem_cons_self
    rw [List.map_cons, List.nodup_cons]
    constructor
    · intro hmem
      obtain ⟨y, hy, hstart⟩ := List.mem_map.mp hmem
      have hylt := hrows y (List.mem_cons_of_mem _ hy)
      have hcount := hone (start x)
      have hpos : 0 < rows.countP (covers start stop (start x)) :=
        List.countP_pos_iff.mpr ⟨y, hy, covers_iff.mpr ⟨by omega, by omega⟩⟩
      rw [List.countP_cons_of_pos (covers_iff.mpr ⟨Nat.le_refl _, hx⟩)] at hcount
      omega
    · refine ih (fun y hy => hrows y (List.mem_cons_of_mem _ hy)) fun a => ?_
      exact Nat.le_trans (List.sublist_cons_self x rows).countP_le (hone a)

theorem countP_le_one {p : α → Bool} (h : rows.Pairwise fun x y => p x = true → ¬ p y = true) :
    rows.countP p ≤ 1 := by
  induction rows with
  | nil => exact Nat.zero_le _
  | cons x rows ih =>
    obtain ⟨hx, hrest⟩ := List.pairwise_cons.mp h
    by_cases hp : p x = true
    · rw [List.countP_cons_of_pos hp, List.countP_eq_zero.mpr fun y hy => hx y hy hp]
    · rw [List.countP_cons_of_neg hp]
      exact ih hrest

/-- What the pieces of every row cover the row covers. -/
theorem countP_flatMap {β : Type} {p : β → Bool} {q : α → Bool} {pieces : α → List β}
    (h : ∀ x ∈ rows, (pieces x).countP p = if q x = true then 1 else 0) :
    (rows.flatMap pieces).countP p = rows.countP q := by
  induction rows with
  | nil => rfl
  | cons x rows ih =>
    rw [List.flatMap_cons, List.countP_append, h x List.mem_cons_self, List.countP_cons,
      ih fun y hy => h y (List.mem_cons_of_mem _ hy), Nat.add_comm]

end

section
variable {cap lo hi cursor a : Nat} {parts : List (Nat × Nat)}

def gap (cap lo hi : Nat) : List (Nat × Nat) := if lo < hi then [(lo, min hi (lo + cap))] else []

/-- What parts leave of an interval, each gap cut to a length. -/
def gaps (cap hi : Nat) : Nat → List (Nat × Nat) → List (Nat × Nat)
  | cursor, [] => gap cap cursor hi
  | cursor, part :: parts => gap cap cursor part.1 ++ gaps cap hi (max cursor part.2) parts

/-- How far the parts reach that start at an address or below. -/
def reach (a : Nat) (cursor : Nat) (parts : List (Nat × Nat)) : Nat :=
  (parts.filter fun part => part.1 ≤ a).foldl (fun cursor part => max cursor part.2) cursor

/-- The gap in which an address lies. -/
def InGap (cap hi a reach : Nat) : Prop := reach ≤ a ∧ a < hi ∧ a < reach + cap

instance {reach : Nat} : Decidable (InGap cap hi a reach) :=
  inferInstanceAs (Decidable (reach ≤ a ∧ a < hi ∧ a < reach + cap))

theorem countP_gap : (gap cap lo hi).countP (covers Prod.fst Prod.snd a) =
    if InGap cap hi a lo then 1 else 0 := by
  rw [gap]
  by_cases hlt : lo < hi
  · rw [if_pos hlt, List.countP_singleton]
    refine if_congr ?_ rfl rfl
    rw [covers_iff, InGap]
    dsimp only
    omega
  · rw [if_neg hlt, List.countP_nil, if_neg fun h => hlt (Nat.lt_of_le_of_lt h.1 h.2.1)]

theorem mem_gap {part : Nat × Nat} (hcap : 0 < cap) (h : part ∈ gap cap lo hi) :
    part.1 = lo ∧ part.1 < part.2 ∧ part.2 ≤ hi := by
  rw [gap] at h
  split at h
  · rename_i hlt
    obtain rfl := List.mem_singleton.mp h
    dsimp only
    omega
  · exact absurd h List.not_mem_nil

theorem reach_nil : reach a cursor [] = cursor := rfl

theorem reach_cons_of_le {part : Nat × Nat} (h : part.1 ≤ a) :
    reach a cursor (part :: parts) = reach a (max cursor part.2) parts := by
  rw [reach, List.filter_cons_of_pos (by simpa using h), List.foldl_cons, reach]

/-- Parts that all start later reach nowhere. -/
theorem reach_of_lt (h : ∀ part ∈ parts, a < part.1) : reach a cursor parts = cursor := by
  rw [reach, List.filter_eq_nil_iff.mpr fun part hp => by simpa using h part hp, List.foldl_nil]

theorem le_reach : cursor ≤ reach a cursor parts := by
  induction parts generalizing cursor with
  | nil => exact Nat.le_refl _
  | cons part parts ih =>
    by_cases h : part.1 ≤ a
    · rw [reach_cons_of_le h]
      exact Nat.le_trans (Nat.le_max_left ..) ih
    · rw [reach, List.filter_cons_of_neg (by simpa using h)]
      exact ih

/-- The parts reach beyond an address when one of them covers it. -/
theorem lt_reach_iff : a < reach a cursor parts ↔
    a < cursor ∨ ∃ part ∈ parts, covers Prod.fst Prod.snd a part = true := by
  induction parts generalizing cursor with
  | nil => simp [reach_nil]
  | cons part parts ih =>
    by_cases h : part.1 ≤ a
    · rw [reach_cons_of_le h, ih, List.exists_mem_cons_iff, covers_iff]
      have hmax : a < max cursor part.2 ↔ a < cursor ∨ part.1 ≤ a ∧ a < part.2 := by omega
      rw [hmax, or_assoc]
    · have hpart : ¬ covers Prod.fst Prod.snd a part = true := fun hc => h (covers_iff.mp hc).1
      rw [reach, List.filter_cons_of_neg (by simpa using h), List.exists_mem_cons_iff,
        or_iff_right hpart]
      exact ih

theorem countP_gaps_of_lt (hparts : ∀ part ∈ parts, part.1 < part.2) (h : a < cursor) :
    (gaps cap hi cursor parts).countP (covers Prod.fst Prod.snd a) = 0 := by
  induction parts generalizing cursor with
  | nil => rw [gaps, countP_gap, if_neg fun hin => Nat.not_le_of_lt h hin.1]
  | cons part parts ih =>
    rw [gaps, List.countP_append, countP_gap, if_neg fun hin => Nat.not_le_of_lt h hin.1,
      ih (fun part hp => hparts part (List.mem_cons_of_mem _ hp)) (by omega)]

/-- An address is in a gap of sorted parts when no part that starts before it reaches it, and the
farthest of them ends near enough. -/
theorem countP_gaps (hsorted : parts.Pairwise fun p q => p.1 ≤ q.1)
    (hparts : ∀ part ∈ parts, part.1 < part.2 ∧ part.2 ≤ hi) :
    (gaps cap hi cursor parts).countP (covers Prod.fst Prod.snd a) =
      if InGap cap hi a (reach a cursor parts) then 1 else 0 := by
  induction parts generalizing cursor with
  | nil => rw [gaps, countP_gap, reach_nil]
  | cons part parts ih =>
    obtain ⟨hfirst, hrest⟩ := List.pairwise_cons.mp hsorted
    have hpart := hparts part List.mem_cons_self
    have hparts' := fun p hp => hparts p (List.mem_cons_of_mem part hp)
    rw [gaps, List.countP_append, countP_gap]
    by_cases hle : part.1 ≤ a
    · rw [if_neg fun hin => Nat.not_lt_of_le hle hin.2.1, ih hrest hparts', Nat.zero_add,
        reach_cons_of_le hle]
    · have hlate : ∀ p ∈ part :: parts, a < p.1 := by
        intro p hp
        rcases List.mem_cons.mp hp with rfl | hp
        · exact Nat.not_le.mp hle
        · exact Nat.lt_of_lt_of_le (Nat.not_le.mp hle) (hfirst p hp)
      rw [reach_of_lt hlate, countP_gaps_of_lt (fun p hp => (hparts' p hp).1) (by omega),
        Nat.add_zero]
      refine if_congr ?_ rfl rfl
      rw [InGap, InGap]
      omega

theorem mem_gaps {part : Nat × Nat} (hcap : 0 < cap)
    (hparts : ∀ part ∈ parts, part.2 ≤ hi) (hstarts : ∀ part ∈ parts, part.1 ≤ hi)
    (h : part ∈ gaps cap hi cursor parts) : cursor ≤ part.1 ∧ part.1 < part.2 ∧ part.2 ≤ hi := by
  induction parts generalizing cursor with
  | nil =>
    obtain ⟨h₁, h₂, h₃⟩ := mem_gap hcap h
    exact ⟨Nat.le_of_eq h₁.symm, h₂, h₃⟩
  | cons first parts ih =>
    rw [gaps] at h
    rcases List.mem_append.mp h with h | h
    · obtain ⟨h₁, h₂, h₃⟩ := mem_gap hcap h
      exact ⟨Nat.le_of_eq h₁.symm, h₂, Nat.le_trans h₃ (hstarts first List.mem_cons_self)⟩
    · obtain ⟨h₁, h₂, h₃⟩ := ih (fun p hp => hparts p (List.mem_cons_of_mem _ hp))
        (fun p hp => hstarts p (List.mem_cons_of_mem _ hp)) h
      exact ⟨Nat.le_trans (Nat.le_max_left ..) h₁, h₂, h₃⟩

end
end Tiling
