import Mathlib.Algebra.Order.Ring.Nat
import Mathlib.Data.Finset.Card
import Mathlib.Logic.Function.Iterate
import Mathlib.Order.Iterate

/-!
# Rounds that apply rules until nothing changes

A state holds facts at a cost, and a rule takes one fact to another at a higher cost. A
round applies every rule at least once, in whatever order. Where no chain of rules needs to
meet more than `N` facts, `N` rounds reach the least costs, and one more changes nothing.
-/
namespace Saturation

variable {σ φ : Type*}

/-- A chain of rules of a given length. -/
def Steps (rule : φ → φ → Prop) : Nat → φ → φ → Prop
  | 0, f, f' => f = f'
  | n + 1, f, f' => ∃ g, rule f g ∧ Steps rule n g f'

/-- At most `n` rounds, which end with the first that changes nothing. -/
def run (round : σ → σ × Bool) : Nat → σ → σ
  | 0, s => s
  | n + 1, s => if (round s).2 then run round n (round s).1 else (round s).1

section Chains

variable {rule : φ → φ → Prop} {f f' g h : φ} {m n : Nat}

theorem Steps.trans (hfg : Steps rule m f g) (hgh : Steps rule n g h) :
    Steps rule (m + n) f h := by
  induction m generalizing f with
  | zero =>
    cases hfg
    rwa [Nat.zero_add]
  | succ m ih =>
    obtain ⟨x, hfx, hxg⟩ := hfg
    rw [Nat.succ_add]
    exact ⟨x, hfx, ih hxg⟩

theorem Steps.tail (hfg : Steps rule n f g) (hgh : rule g h) : Steps rule (n + 1) f h :=
  hfg.trans ⟨h, hgh, rfl⟩

/-- The facts that a chain meets, one after the other. -/
theorem Steps.path (hchain : Steps rule n f f') :
    ∃ p : Nat → φ, p 0 = f ∧ p n = f' ∧ ∀ i < n, rule (p i) (p (i + 1)) := by
  induction n generalizing f with
  | zero => exact ⟨fun _ => f, rfl, hchain, fun i hi => absurd hi (Nat.not_lt_zero i)⟩
  | succ n ih =>
    obtain ⟨x, hfx, hxf⟩ := hchain
    obtain ⟨p, hstart, hend, hrule⟩ := ih hxf
    refine ⟨fun i => if i = 0 then f else p (i - 1), rfl, hend, fun i hi => ?_⟩
    cases i with
    | zero => simpa [hstart] using hfx
    | succ i => simpa using hrule i (by omega)

theorem steps_of_path {p : Nat → φ} (hrule : ∀ i < n, rule (p i) (p (i + 1))) (i : Nat)
    (hle : i + m ≤ n) : Steps rule m (p i) (p (i + m)) := by
  induction m with
  | zero => rfl
  | succ m ih => exact (ih (by omega)).tail (hrule (i + m) (by omega))

/-- A chain that meets more facts than there are meets one twice, and can be cut. -/
theorem Steps.shorten {reached : Finset φ}
    (hreached : ∀ n g g', Steps rule n f g → rule g g' → g' ∈ reached)
    (hchain : Steps rule n f f') : ∃ k ≤ reached.card, k ≤ n ∧ Steps rule k f f' := by
  induction n using Nat.strong_induction_on with
  | _ n ih =>
    by_cases hn : n ≤ reached.card
    · exact ⟨n, hn, Nat.le_refl n, hchain⟩
    · obtain ⟨p, rfl, rfl, hrule⟩ := hchain.path
      have hmem : ∀ i ∈ Finset.range n, p (i + 1) ∈ reached := by
        intro i hi
        have hlt := Finset.mem_range.mp hi
        have hprefix : Steps rule i (p 0) (p i) := by
          simpa using steps_of_path hrule 0 (m := i) (by omega)
        exact hreached i _ _ hprefix (hrule i hlt)
      obtain ⟨i, hi, j, hj, hne, heq⟩ :=
        Finset.exists_ne_map_eq_of_card_lt_of_maps_to (by rw [Finset.card_range]; omega) hmem
      rw [Finset.mem_range] at hi hj
      -- the part between two meetings of one fact is left out
      have hcut : ∀ i j, i < j → j < n → p (i + 1) = p (j + 1) →
          ∃ k < n, Steps rule k (p 0) (p n) := by
        intro i j hij hjn heq
        have hfirst : Steps rule (i + 1) (p 0) (p (i + 1)) := by
          simpa using steps_of_path hrule 0 (m := i + 1) (by omega)
        have hlast : Steps rule (n - (j + 1)) (p (j + 1)) (p n) := by
          have hsteps := steps_of_path hrule (j + 1) (m := n - (j + 1)) (by omega)
          rwa [show j + 1 + (n - (j + 1)) = n by omega] at hsteps
        rw [heq] at hfirst
        exact ⟨_, by omega, hfirst.trans hlast⟩
      have hshort : ∃ k < n, Steps rule k (p 0) (p n) := by
        rcases Nat.lt_or_gt_of_ne hne with hlt | hlt
        · exact hcut i j hlt hj heq
        · exact hcut j i hlt hi heq.symm
      obtain ⟨k, hk, hsteps⟩ := hshort
      obtain ⟨l, hcard, hl, hshorter⟩ := ih k hk hsteps
      exact ⟨l, hcard, by omega, hshorter⟩

end Chains

/-- The facts that a state holds, and what a round does to them. -/
structure Scheme (σ φ : Type*) where
  round : σ → σ × Bool
  valid : σ → Prop
  within : σ → φ → Nat → Prop
  rule : φ → φ → Prop
  raise : Nat → Nat

namespace Scheme

variable (S : Scheme σ φ)

/-- A set of facts at their costs that no rule leaves. -/
structure Closed (J : φ → Nat → Prop) : Prop where
  weaken : ∀ f c c', J f c → c ≤ c' → J f c'
  step : ∀ f f' c, J f c → S.rule f f' → J f' (S.raise c)

structure Lawful : Prop where
  /-- A round keeps the facts of a valid state, and applies the rules to them. -/
  valid_round : ∀ s, S.valid s → S.valid (S.round s).1
  within_mono : ∀ s f c c', S.within s f c → c ≤ c' → S.within s f c'
  keeps : ∀ s f c, S.valid s → S.within s f c → S.within (S.round s).1 f c
  applies : ∀ s f f' c, S.valid s → S.within s f c → S.rule f f' →
    S.within (S.round s).1 f' (S.raise c)
  /-- What a round adds follows by rules. -/
  sound : ∀ s J, S.valid s → S.Closed J → (∀ f c, S.within s f c → J f c) →
    ∀ f c, S.within (S.round s).1 f c → J f c
  unchanged : ∀ s f c, S.valid s → (S.round s).2 = false → S.within (S.round s).1 f c →
    S.within s f c
  rests : ∀ s, S.valid s → S.Closed (S.within s) → (S.round s).2 = false
  raise_mono : Monotone S.raise
  le_raise : ∀ c, c ≤ S.raise c

/-- What follows from the facts of a state. -/
def Derived (s : σ) (f : φ) (c : Nat) : Prop :=
  ∃ g d n, S.within s g d ∧ Steps S.rule n g f ∧ S.raise^[n] d ≤ c

variable {S} {s : σ} {f f' : φ} {c : Nat} {n N : Nat}

theorem Derived.closed (hS : S.Lawful) : S.Closed (S.Derived s) where
  weaken := by
    rintro f c c' ⟨g, d, n, hwithin, hsteps, hle⟩ hc
    exact ⟨g, d, n, hwithin, hsteps, hle.trans hc⟩
  step := by
    rintro f f' c ⟨g, d, n, hwithin, hsteps, hle⟩ hrule
    refine ⟨g, d, n + 1, hwithin, hsteps.tail hrule, ?_⟩
    rw [Function.iterate_succ_apply']
    exact hS.raise_mono hle

theorem valid_run (hS : S.Lawful) (hs : S.valid s) : S.valid (run S.round n s) := by
  induction n generalizing s with
  | zero => exact hs
  | succ n ih =>
    rw [run]
    split
    · exact ih (hS.valid_round s hs)
    · exact hS.valid_round s hs

theorem sound_run (hS : S.Lawful) {J : φ → Nat → Prop} (hJ : S.Closed J) (hs : S.valid s)
    (h : ∀ f c, S.within s f c → J f c) :
    ∀ f c, S.within (run S.round n s) f c → J f c := by
  induction n generalizing s with
  | zero => exact h
  | succ n ih =>
    have hround := hS.sound s J hs hJ h
    rw [run]
    split
    · exact ih (hS.valid_round s hs) hround
    · exact hround

/-- A round that changes nothing leaves no rule to apply. -/
theorem closed_of_unchanged (hS : S.Lawful) (hs : S.valid s) (h : (S.round s).2 = false) :
    S.Closed (S.within s) where
  weaken := hS.within_mono s
  step := by
    intro f f' c hwithin hrule
    exact hS.unchanged s _ _ hs h (hS.applies s f f' c hs hwithin hrule)

theorem Closed.steps {J : φ → Nat → Prop} (hJ : S.Closed J) (h : J f c)
    (hsteps : Steps S.rule n f f') : J f' (S.raise^[n] c) := by
  induction n generalizing f c with
  | zero =>
    cases hsteps
    exact h
  | succ n ih =>
    obtain ⟨g, hrule, hrest⟩ := hsteps
    exact ih (hJ.step f g c h hrule) hrest

/-- `n` rounds make up for every chain of at most `n` rules. -/
theorem complete_run (hS : S.Lawful) (hs : S.valid s) (h : S.within s f c) {k : Nat}
    (hk : k ≤ n) (hsteps : Steps S.rule k f f') :
    S.within (run S.round n s) f' (S.raise^[k] c) := by
  induction n generalizing s f c k with
  | zero =>
    cases Nat.le_zero.mp hk
    cases hsteps
    exact h
  | succ n ih =>
    rw [run]
    split
    · cases k with
      | zero => exact ih (hS.valid_round s hs) (hS.keeps s f c hs h) (Nat.zero_le n) hsteps
      | succ k =>
        obtain ⟨g, hrule, hrest⟩ := hsteps
        exact ih (hS.valid_round s hs) (hS.applies s f g c hs h hrule) (by omega) hrest
    · rename_i hsame
      have hsame := Bool.eq_false_iff.mpr hsame
      exact hS.keeps s _ _ hs ((closed_of_unchanged hS hs hsame).steps h hsteps)

/-- From no fact of a state do chains of rules lead to more than `N` others. -/
def Bounded (S : Scheme σ φ) (s : σ) (N : Nat) : Prop :=
  ∀ f c, S.within s f c → ∃ reached : Finset φ, reached.card ≤ N ∧
    ∀ n g g', Steps S.rule n f g → S.rule g g' → g' ∈ reached

/-- The rounds end with what follows from the start, each fact at its least cost. -/
theorem within_run_iff (hS : S.Lawful) (hs : S.valid s) (hN : Bounded S s N) :
    S.within (run S.round N s) f c ↔ S.Derived s f c := by
  constructor
  · intro h
    refine sound_run hS (Derived.closed hS) hs (fun f c hf => ?_) f c h
    exact ⟨f, c, 0, hf, rfl, Nat.le_refl c⟩
  · rintro ⟨g, d, n, hwithin, hsteps, hle⟩
    obtain ⟨reached, hcard, hreached⟩ := hN g d hwithin
    obtain ⟨k, hk, hkn, hshort⟩ := hsteps.shorten hreached
    have hraise : S.raise^[k] d ≤ S.raise^[n] d :=
      Function.monotone_iterate_of_id_le hS.le_raise hkn d
    exact hS.within_mono _ _ _ _ (complete_run hS hs hwithin (hk.trans hcard) hshort)
      (hraise.trans hle)

/-- After these rounds one more changes nothing. -/
theorem run_rests (hS : S.Lawful) (hs : S.valid s) (hN : Bounded S s N) :
    (S.round (run S.round N s)).2 = false := by
  refine hS.rests _ (valid_run hS hs) ⟨hS.within_mono _, fun f f' c hwithin hrule => ?_⟩
  rw [within_run_iff hS hs hN] at hwithin ⊢
  exact (Derived.closed hS).step f f' c hwithin hrule

end Scheme

end Saturation
