import Mathlib.Algebra.Order.Ring.Nat

/-!
# Loops that end

A turn of a loop goes on with a state or ends with a result. A measure that every turn lowers
bounds the turns, an invariant describes the result, and a stock that the turns of one sort
draw from bounds how many of them there are.
-/
namespace Loops

inductive Turn (σ ρ : Type)
  | next (state : σ)
  | ended (result : ρ)

variable {σ ρ : Type} {turn : σ → Turn σ ρ} {s s' : σ} {r : ρ} {m n : Nat}

def run (turn : σ → Turn σ ρ) : Nat → σ → Option ρ
  | 0, _ => none
  | n + 1, s =>
    match turn s with
    | .ended r => some r
    | .next s' => run turn n s'

/-- The states in which the first turns are taken. -/
def trail (turn : σ → Turn σ ρ) : Nat → σ → List σ
  | 0, _ => []
  | n + 1, s =>
    match turn s with
    | .ended _ => [s]
    | .next s' => s :: trail turn n s'

theorem run_ended (h : turn s = .ended r) : run turn (n + 1) s = some r := by rw [run, h]

theorem run_next (h : turn s = .next s') : run turn (n + 1) s = run turn n s' := by rw [run, h]

/-- With more turns than the measure the loop ends, where an invariant may support the
measure. -/
theorem run_ends_of {I : σ → Prop} (μ : σ → Nat)
    (hnext : ∀ s s', turn s = .next s' → I s → I s' ∧ μ s' < μ s) (hs : I s) (hn : μ s < n) :
    ∃ r, run turn n s = some r := by
  induction n generalizing s with
  | zero => exact absurd hn (Nat.not_lt_zero _)
  | succ n ih =>
    cases h : turn s with
    | ended r => exact ⟨r, run_ended h⟩
    | next s' =>
      rw [run_next h]
      obtain ⟨hs', hlt⟩ := hnext s s' h hs
      exact ih hs' (Nat.lt_of_lt_of_le hlt (Nat.lt_succ_iff.mp hn))

theorem run_ends (μ : σ → Nat) (hμ : ∀ s s', turn s = .next s' → μ s' < μ s) (hn : μ s < n) :
    ∃ r, run turn n s = some r :=
  run_ends_of (I := fun _ => True) μ (fun s s' h _ => ⟨trivial, hμ s s' h⟩) trivial hn

/-- A result stays the same with more turns. -/
theorem run_mono (h : run turn m s = some r) (hmn : m ≤ n) : run turn n s = some r := by
  induction m generalizing s n with
  | zero => cases h
  | succ m ih =>
    obtain ⟨k, rfl⟩ : ∃ k, n = k + 1 := ⟨n - 1, by omega⟩
    cases hturn : turn s with
    | ended r' => rwa [run_ended hturn] at h ⊢
    | next s' =>
      rw [run_next hturn] at h ⊢
      exact ih h (Nat.le_of_succ_le_succ hmn)

theorem run_keeps {I : σ → Prop} {Q : ρ → Prop} (hnext : ∀ s s', turn s = .next s' → I s → I s')
    (hended : ∀ s r, turn s = .ended r → I s → Q r) (h : run turn n s = some r) (hs : I s) :
    Q r := by
  induction n generalizing s with
  | zero => cases h
  | succ n ih =>
    cases hturn : turn s with
    | ended r' =>
      rw [run_ended hturn] at h
      cases h
      exact hended s r hturn hs
    | next s' =>
      rw [run_next hturn] at h
      exact ih h (hnext s s' hturn hs)

/-- The turns that draw from a stock are no more than the stock. -/
theorem countP_trail_le {p : σ → Bool} (stock : σ → Nat)
    (hdraw : ∀ s s', turn s = .next s' → stock s' + (if p s then 1 else 0) ≤ stock s)
    (hlast : ∀ s r, turn s = .ended r → p s = true → 0 < stock s) :
    (trail turn n s).countP p ≤ stock s := by
  induction n generalizing s with
  | zero => exact Nat.zero_le _
  | succ n ih =>
    rw [trail]
    cases hturn : turn s with
    | ended r =>
      have := hlast s r hturn
      rw [List.countP_singleton]
      split
      · rename_i hp
        exact this hp
      · exact Nat.zero_le _
    | next s' =>
      have := hdraw s s' hturn
      have hrest := ih (s := s')
      simp only [List.countP_cons]
      omega

end Loops
