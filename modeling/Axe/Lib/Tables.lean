import Axe.Lib.OrderedMap
import Axe.Lib.StableSort
import Mathlib.Data.List.Induction

/-!
# Tables of the best rows

A table keeps one row for each key: the last one, or the first of those with the highest rank.
-/
namespace Axe

section
variable {α κ ρ : Type} [LinearOrder κ] [LinearOrder ρ] {key : α → κ} {rank : α → ρ} {k : κ}
  {a f : α} {rows : List α}

/-- A row takes the place of one with a lower rank. -/
def keepBest (key : α → κ) (rank : α → ρ) (table : OrderedMap κ α) (a : α) : OrderedMap κ α :=
  if (table.get (key a)).any fun old => rank a ≤ rank old then table else table.insert (key a) a

def bestOf (key : α → κ) (rank : α → ρ) (rows : List α) : OrderedMap κ α :=
  rows.foldl (keepBest key rank) .empty

/-- The first of the rows with the highest rank. -/
def Best (rank : α → ρ) (rows : List α) (a : α) : Prop :=
  Foremost (fun a => OrderDual.toDual (rank a)) rows a

theorem Best.keep (h : Best rank rows f) (hle : rank a ≤ rank f) : Best rank (rows ++ [a]) f := by
  obtain ⟨before, after, rfl, hbefore, hafter⟩ := h
  refine ⟨before, after ++ [a], by simp, hbefore, fun b hb => ?_⟩
  rcases List.mem_append.mp hb with hb | hb
  · exact hafter b hb
  · obtain rfl := List.mem_singleton.mp hb
    exact hle

theorem Best.replace (h : ∀ b ∈ rows, rank b < rank a) : Best rank (rows ++ [a]) a :=
  ⟨rows, [], rfl, h, fun _ hb => absurd hb List.not_mem_nil⟩

theorem best_le (h : Best rank rows f) (ha : a ∈ rows) : rank a ≤ rank f := by
  have hle := @Foremost.le α ρᵒᵈ _ (fun a => OrderDual.toDual (rank a)) rows a f h ha
  exact OrderDual.toDual_le_toDual.mp hle

/-- A table holds a best row for each key that has one. -/
def Holds (key : α → κ) (rank : α → ρ) (table : OrderedMap κ α) (rows : List α) : Prop :=
  ∀ k, (table.get k = none → ∀ a ∈ rows, key a ≠ k) ∧
    ∀ a, table.get k = some a → Best rank (rows.filter fun a => key a = k) a

theorem filter_snoc_of_ne (h : key a ≠ k) :
    ((rows ++ [a]).filter fun a => key a = k) = rows.filter fun a => key a = k := by
  rw [List.filter_append, List.filter_cons_of_neg (by simpa using h), List.filter_nil,
    List.append_nil]

theorem filter_snoc_of_eq (h : key a = k) :
    ((rows ++ [a]).filter fun a => key a = k) = (rows.filter fun a => key a = k) ++ [a] := by
  rw [List.filter_append, List.filter_cons_of_pos (by simpa using h), List.filter_nil]

theorem Holds.keepBest {table : OrderedMap κ α} (h : Holds key rank table rows) (a : α) :
    Holds key rank (keepBest key rank table a) (rows ++ [a]) := by
  intro k
  obtain ⟨hnone, hsome⟩ := h k
  have hsnoc : ∀ b ∈ rows ++ [a], b ∈ rows ∨ b = a := fun b hb =>
    (List.mem_append.mp hb).imp_right List.mem_singleton.mp
  by_cases hk : key a = k
  · rw [Axe.keepBest, filter_snoc_of_eq hk, hk]
    cases hold : table.get k with
    | none =>
      -- no row of the key came before
      have hnil : (rows.filter fun a => key a = k) = [] :=
        List.filter_eq_nil_iff.mpr fun b hb hkey => hnone hold b hb (of_decide_eq_true hkey)
      rw [hnil, Option.any_none, if_neg Bool.false_ne_true, OrderedMap.get_insert_self]
      refine ⟨fun h => (Option.some_ne_none a h).elim, fun b hb => ?_⟩
      rw [← Option.some.inj hb]
      exact Best.replace fun _ hb => absurd hb List.not_mem_nil
    | some old =>
      rw [Option.any_some]
      by_cases hle : rank a ≤ rank old
      · rw [if_pos (decide_eq_true hle), hold]
        refine ⟨fun h => (Option.some_ne_none old h).elim, fun b hb => ?_⟩
        rw [← Option.some.inj hb]
        exact (hsome old hold).keep hle
      · rw [if_neg (by simpa using hle), OrderedMap.get_insert_self]
        refine ⟨fun h => (Option.some_ne_none a h).elim, fun b hb => ?_⟩
        rw [← Option.some.inj hb]
        exact Best.replace fun b hb =>
          lt_of_le_of_lt (best_le (hsome old hold) hb) (not_le.mp hle)
  · have hget : (Axe.keepBest key rank table a).get k = table.get k := by
      rw [Axe.keepBest]
      split
      · rfl
      · exact OrderedMap.get_insert_of_ne (Ne.symm hk)
    rw [hget, filter_snoc_of_ne hk]
    refine ⟨fun h b hb => ?_, hsome⟩
    rcases hsnoc b hb with hb | rfl
    · exact hnone h b hb
    · exact hk

theorem holds_bestOf (rows : List α) : Holds key rank (bestOf key rank rows) rows := by
  induction rows using List.reverseRecOn with
  | nil => exact fun k => ⟨fun _ a ha => absurd ha List.not_mem_nil, fun a ha => by cases ha⟩
  | append_singleton rows a ih =>
    rw [bestOf, List.foldl_append, List.foldl_cons, List.foldl_nil]
    exact ih.keepBest a

/-- The table has the first of the rows of a key with the highest rank. -/
theorem get_bestOf : (bestOf key rank rows).get k = some a ↔
    Best rank (rows.filter fun a => key a = k) a := by
  have hholds : Holds key rank (bestOf key rank rows) rows := holds_bestOf rows
  obtain ⟨hnone, hsome⟩ := hholds k
  refine ⟨hsome a, fun h => ?_⟩
  cases hget : (bestOf key rank rows).get k with
  | none =>
    obtain ⟨hmem, hkey⟩ := List.mem_filter.mp h.mem
    exact absurd (of_decide_eq_true hkey) (hnone hget a hmem)
  | some b => rw [Foremost.unique (hsome b hget) h]

/-- A map of a list has the last value that the list gives a key. -/
theorem get_ofList_eq_getLast {ν : Type} (rows : List (κ × ν)) (k : κ) :
    (OrderedMap.ofList rows).get k =
      ((rows.filter fun row => row.1 = k).getLast?).map Prod.snd := by
  induction rows using List.reverseRecOn with
  | nil => rfl
  | append_singleton rows row ih =>
    rw [OrderedMap.ofList, List.foldl_append, List.foldl_cons, List.foldl_nil,
      OrderedMap.get_insert]
    by_cases hk : k = row.1
    · rw [if_pos hk, filter_snoc_of_eq hk.symm, List.getLast?_concat, Option.map_some]
    · rw [if_neg hk, filter_snoc_of_ne (Ne.symm hk), ← ih]
      rfl

end
end Axe
