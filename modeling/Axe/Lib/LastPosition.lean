import Mathlib.Data.Nat.Basic

/-!
# The last position before another

A fold that replaces its result ends with what the last replacement gave.
-/
namespace Axe

/-- The last position before `c` that something holds at. -/
structure LastBefore (p : Nat → Prop) (c b : Nat) : Prop where
  lt : b < c
  holds : p b
  last : ∀ m, b < m → m < c → ¬ p m

section Positions
variable {p : Nat → Prop} {c b b' : Nat}

theorem LastBefore.unique (h : LastBefore p c b) (h' : LastBefore p c b') : b = b' := by
  rcases Nat.lt_trichotomy b b' with hlt | heq | hlt
  · exact absurd h'.holds (h.last b' hlt h'.lt)
  · exact heq
  · exact absurd h.holds (h'.last b hlt h.lt)

theorem lastBefore_zero : ¬ LastBefore p 0 b := fun h => Nat.not_lt_zero b h.lt

theorem lastBefore_succ :
    LastBefore p (c + 1) b ↔ p c ∧ b = c ∨ ¬ p c ∧ LastBefore p c b := by
  constructor
  · intro h
    rcases Nat.lt_succ_iff_lt_or_eq.mp h.lt with hlt | rfl
    · exact .inr ⟨h.last c hlt (Nat.lt_succ_self c),
        ⟨hlt, h.holds, fun m hbm hmc => h.last m hbm (Nat.lt_succ_of_lt hmc)⟩⟩
    · exact .inl ⟨h.holds, rfl⟩
  · rintro (⟨hc, rfl⟩ | ⟨hc, h⟩)
    · exact ⟨Nat.lt_succ_self b, hc, fun m hbm hmc => by omega⟩
    · refine ⟨Nat.lt_succ_of_lt h.lt, h.holds, fun m hbm hmc => ?_⟩
      rcases Nat.lt_succ_iff_lt_or_eq.mp hmc with hlt | rfl
      · exact h.last m hbm hlt
      · exact hc

theorem exists_lastBefore (h : ∃ m < c, p m) : ∃ b, LastBefore p c b := by
  induction c with
  | zero =>
    obtain ⟨m, hm, -⟩ := h
    exact absurd hm (Nat.not_lt_zero m)
  | succ c ih =>
    by_cases hc : p c
    · exact ⟨c, lastBefore_succ.mpr (.inl ⟨hc, rfl⟩)⟩
    · obtain ⟨m, hm, hp⟩ := h
      have hlt : m < c := Nat.lt_of_le_of_ne (Nat.le_of_lt_succ hm) fun heq => hc (heq ▸ hp)
      obtain ⟨b, hb⟩ := ih ⟨m, hlt, hp⟩
      exact ⟨b, lastBefore_succ.mpr (.inr ⟨hc, hb⟩)⟩

end Positions

section Fold
variable {α β : Type} (f : α → Option β) (xs : List α)

/-- The items from a position on that replace the result. -/
def ReplacesAt (s m : Nat) : Prop := s ≤ m ∧ ∃ x, xs[m]? = some x ∧ (f x).isSome = true

variable {f xs} {s n : Nat} {init v : β}

theorem replacesAt_of_get {x : α} (hx : xs[n]? = some x) :
    ReplacesAt f xs s n ↔ s ≤ n ∧ (f x).isSome = true := by
  refine and_congr_right fun _ => ⟨?_, fun h => ⟨x, hx, h⟩⟩
  rintro ⟨y, hy, h⟩
  rw [hx, Option.some.injEq] at hy
  rwa [hy]

/-- What a fold over the items from `s` up to `n` ends with. -/
theorem foldl_getD_iff :
    ((xs.take n).drop s).foldl (fun acc x => (f x).getD acc) init = v ↔
      (∃ b x, LastBefore (ReplacesAt f xs s) n b ∧ xs[b]? = some x ∧ f x = some v) ∨
      (∀ b < n, ¬ ReplacesAt f xs s b) ∧ init = v := by
  induction n generalizing v with
  | zero =>
    rw [List.take_zero, List.drop_nil, List.foldl_nil]
    constructor
    · exact fun h => .inr ⟨fun b hb => absurd hb (Nat.not_lt_zero b), h⟩
    · rintro (⟨b, x, hb, -⟩ | ⟨-, h⟩)
      · exact absurd hb lastBefore_zero
      · exact h
  | succ n ih =>
    have hkeep : ¬ ReplacesAt f xs s n →
        ((∃ b x, LastBefore (ReplacesAt f xs s) (n + 1) b ∧ xs[b]? = some x ∧ f x = some v) ∨
          (∀ b < n + 1, ¬ ReplacesAt f xs s b) ∧ init = v ↔
        (∃ b x, LastBefore (ReplacesAt f xs s) n b ∧ xs[b]? = some x ∧ f x = some v) ∨
          (∀ b < n, ¬ ReplacesAt f xs s b) ∧ init = v) := by
      intro hno
      have hall : (∀ b < n + 1, ¬ ReplacesAt f xs s b) ↔ ∀ b < n, ¬ ReplacesAt f xs s b := by
        refine ⟨fun h b hb => h b (Nat.lt_succ_of_lt hb), fun h b hb => ?_⟩
        rcases Nat.lt_succ_iff_lt_or_eq.mp hb with hlt | rfl
        · exact h b hlt
        · exact hno
      simp only [lastBefore_succ, hno, false_and, not_false_eq_true, true_and, false_or, hall]
    rw [List.take_add_one]
    cases hx : xs[n]? with
    | none =>
      have hno : ¬ ReplacesAt f xs s n := by
        rintro ⟨-, x, hget, -⟩
        rw [hx] at hget
        cases hget
      rw [Option.toList_none, List.append_nil, ih, hkeep hno]
    | some x =>
      have hlen : (xs.take n).length = n :=
        List.length_take_of_le (Nat.le_of_lt (List.getElem?_eq_some_iff.mp hx).1)
      rw [Option.toList_some, List.drop_append, hlen]
      by_cases hs : s ≤ n
      · rw [Nat.sub_eq_zero_of_le hs, List.drop_zero, List.foldl_append, List.foldl_cons,
          List.foldl_nil]
        cases hf : f x with
        | none =>
          have hno : ¬ ReplacesAt f xs s n := by
            rw [replacesAt_of_get hx, hf]
            exact fun h => Bool.false_ne_true h.2
          rw [Option.getD_none, ih, hkeep hno]
        | some w =>
          have hyes : ReplacesAt f xs s n := by
            rw [replacesAt_of_get hx, hf]
            exact ⟨hs, rfl⟩
          rw [Option.getD_some]
          constructor
          · rintro rfl
            exact .inl ⟨n, x, lastBefore_succ.mpr (.inl ⟨hyes, rfl⟩), hx, hf⟩
          · rintro (⟨b, y, hb, hy, hfy⟩ | ⟨hall, -⟩)
            · obtain rfl := (lastBefore_succ.mpr (.inl ⟨hyes, rfl⟩)).unique hb
              rw [hx, Option.some.injEq] at hy
              rw [← hy, hf] at hfy
              exact Option.some.inj hfy
            · exact absurd hyes (hall n (Nat.lt_succ_self n))
      · have hno : ¬ ReplacesAt f xs s n := fun h => hs h.1
        have hrest : [x].drop (s - n) = [] :=
          List.drop_eq_nil_of_le (by rw [List.length_singleton]; omega)
        rw [hrest, List.append_nil, ih, hkeep hno]

/-- What a fold that keeps the last result ends with. -/
theorem foldl_or_iff :
    ((xs.take n).drop s).foldl (fun acc x => (f x).or acc) none = some v ↔
      ∃ b x, LastBefore (ReplacesAt f xs s) n b ∧ xs[b]? = some x ∧ f x = some v := by
  have hor : (fun acc x => (f x).or acc) =
      fun (acc : Option β) x => ((f x).map some).getD acc := by
    funext acc x
    cases f x <;> rfl
  have hreplaces : ReplacesAt (fun x => (f x).map some) xs s = ReplacesAt f xs s := by
    funext m
    simp only [ReplacesAt, Option.isSome_map]
  rw [hor, foldl_getD_iff, hreplaces]
  simp only [Option.map_eq_some_iff, Option.some.injEq, exists_eq_right, reduceCtorEq, and_false,
    or_false]

end Fold

end Axe
