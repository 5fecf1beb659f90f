import Axe.Concolic.OperandGrammar

/-!
# Numbers that are read back

The digits of a number in a radix up to 16 are read as this number, and a number with a bounded
count of digits is bounded.
-/
namespace Axe.Concolic

section Digits
variable {radix : Nat}

theorem toDigit_digitChar {d : Nat} (hr : radix ≤ 16) (hd : d < radix) :
    toDigit radix d.digitChar = some d := by
  have h : ∀ radix ≤ 16, ∀ d < radix, toDigit radix d.digitChar = some d := by decide
  exact h radix hr d hd

theorem foldlM_toDigits (h2 : 2 ≤ radix) (hr : radix ≤ 16) (n a : Nat) :
    (Nat.toDigits radix n).foldlM (fun n c => (toDigit radix c).map fun d => n * radix + d) a =
      some (a * radix ^ (Nat.toDigits radix n).length + n) := by
  induction n using Nat.strongRecOn with
  | ind n ih =>
    rw [Nat.toDigits_eq_if h2]
    split
    · rename_i h
      simp [toDigit_digitChar hr h]
    · have hlt : n / radix < n := Nat.div_lt_self (by omega) h2
      have hd := toDigit_digitChar hr (Nat.mod_lt n (show 0 < radix by omega))
      have hn := Nat.div_add_mod n radix
      rw [List.foldlM_append, ih (n / radix) hlt]
      simp only [Option.bind_eq_bind, Option.bind_some, List.foldlM_cons, List.foldlM_nil, hd,
        Option.map_some, Option.pure_def, List.length_append, List.length_singleton,
        Nat.pow_succ, Option.some.injEq]
      rw [Nat.add_mul, Nat.mul_assoc, Nat.add_assoc, Nat.mul_comm (n / radix) radix, hn]

theorem foldlM_zeros (h2 : 2 ≤ radix) (k : Nat) :
    (List.replicate k '0').foldlM (fun n c => (toDigit radix c).map fun d => n * radix + d) 0 =
      some 0 := by
  have h0 : toDigit radix '0' = some 0 := by
    have : (0 : Nat) < radix := by omega
    simp [toDigit, this]
  induction k with
  | zero => rfl
  | succ k ih => simpa [List.replicate_succ, h0] using ih

theorem digits_padded (h2 : 2 ≤ radix) (hr : radix ≤ 16) (n k : Nat) :
    digits radix (List.replicate k '0' ++ Nat.toDigits radix n) = some n := by
  have hne : List.replicate k '0' ++ Nat.toDigits radix n ≠ [] := by
    simp [Nat.toDigits_ne_nil]
  simp [digits, hne, List.foldlM_append, foldlM_zeros h2, foldlM_toDigits h2 hr]

theorem digits_toDigits (h2 : 2 ≤ radix) (hr : radix ≤ 16) (n : Nat) :
    digits radix (Nat.toDigits radix n) = some n := digits_padded h2 hr n 0

theorem toDigit_lt {c : Char} {d : Nat} (h : toDigit radix c = some d) : d < radix := by
  unfold toDigit at h
  obtain ⟨hlt, hd⟩ := Option.ite_none_right_eq_some.mp h
  exact Option.some.inj hd ▸ hlt

theorem foldlM_bound {s : List Char} (hs : ∀ c ∈ s, (toDigit radix c).isSome = true) (a : Nat) :
    ∃ n < (a + 1) * radix ^ s.length,
      s.foldlM (fun n c => (toDigit radix c).map fun d => n * radix + d) a = some n := by
  induction s generalizing a with
  | nil => exact ⟨a, by simp, rfl⟩
  | cons c s ih =>
    obtain ⟨d, hd⟩ := Option.isSome_iff_exists.mp (hs c List.mem_cons_self)
    obtain ⟨n, hn, heq⟩ := ih (fun c hc => hs c (List.mem_cons_of_mem _ hc)) (a * radix + d)
    refine ⟨n, Nat.lt_of_lt_of_le hn ?_, by simp [List.foldlM_cons, hd, heq]⟩
    have hlt := toDigit_lt hd
    rw [List.length_cons, Nat.pow_succ', ← Nat.mul_assoc]
    refine Nat.mul_le_mul_right _ ?_
    rw [Nat.add_mul]
    omega

/-- A text of digits is a number below the power of its length. -/
theorem digits_bound {s : List Char} (hne : s ≠ [])
    (hs : ∀ c ∈ s, (toDigit radix c).isSome = true) :
    ∃ n < radix ^ s.length, digits radix s = some n := by
  obtain ⟨n, hn, heq⟩ := foldlM_bound hs 0
  exact ⟨n, by simpa using hn, by simp [digits, hne, heq]⟩

end Digits

end Axe.Concolic
