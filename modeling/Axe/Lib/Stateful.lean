import Axe.Lib.Checked

/-!
# Programs with a state that may panic

A program takes a state and ends with a result and the next state, or with a fault. What it
ensures from every state of an invariant is put together from what its parts ensure.
-/
namespace Stateful

open Checked (Fault)

abbrev Prog (σ α : Type) := StateT σ (Except Fault) α

variable {σ α β : Type} {I : σ → Prop} {P Q : α → Prop} {R : β → Prop} {m : Prog σ α}
  {f : α → Prog σ β}

/-- From every state of the invariant the program ends without a fault, in such a state and with
a result that meets the condition. -/
def Ensures (I : σ → Prop) (m : Prog σ α) (P : α → Prop) : Prop :=
  ∀ s, I s → ∃ a s', m s = .ok (a, s') ∧ I s' ∧ P a

/-- A program that does not look at the state. -/
def lift (r : Except Fault α) : Prog σ α := fun s => r.map fun a => (a, s)

theorem bind_of_ok {s s' : σ} {a : α} (h : m s = .ok (a, s')) : (m >>= f) s = f a s' := by
  show (m s >>= fun p => f p.1 p.2) = f a s'
  rw [h]
  rfl

theorem ensures_pure {a : α} (h : P a) : Ensures I (pure a : Prog σ α) P :=
  fun s hs => ⟨a, s, rfl, hs, h⟩

theorem Ensures.bind (hm : Ensures I m P) (hf : ∀ a, P a → Ensures I (f a) R) :
    Ensures I (m >>= f) R := fun s hs => by
  obtain ⟨a, s', hrun, hs', ha⟩ := hm s hs
  obtain ⟨b, s'', hrun', hs'', hb⟩ := hf a ha s' hs'
  exact ⟨b, s'', (bind_of_ok hrun).trans hrun', hs'', hb⟩

theorem Ensures.mono (hm : Ensures I m P) (hPQ : ∀ a, P a → Q a) : Ensures I m Q := fun s hs => by
  obtain ⟨a, s', hrun, hs', ha⟩ := hm s hs
  exact ⟨a, s', hrun, hs', hPQ a ha⟩

theorem ensures_lift {a : α} {r : Except Fault α} (hr : r = .ok a) (h : P a) :
    Ensures I (lift r) P := fun s hs => by
  subst hr
  exact ⟨a, s, rfl, hs, h⟩

theorem ensures_ite {c : Prop} [Decidable c] {m n : Prog σ α} (hm : c → Ensures I m P)
    (hn : ¬ c → Ensures I n P) : Ensures I (if c then m else n) P := by
  split
  · next h => exact hm h
  · next h => exact hn h

/-- A round repeated so many times. -/
def repeatFor (body : (round : Nat) → α → Prog σ α) : (count round : Nat) → α → Prog σ α
  | 0, _, a => pure a
  | count + 1, round, a => do repeatFor body count (round + 1) (← body round a)

/-- What every round keeps holds after all of them. -/
theorem ensures_repeatFor {body : Nat → α → Prog σ α} {J : Nat → α → Prop}
    (hbody : ∀ round a, J round a → Ensures I (body round a) (J (round + 1))) (count round : Nat)
    {a : α} (ha : J round a) :
    Ensures I (repeatFor body count round a) (J (round + count)) := by
  induction count generalizing round a with
  | zero => exact ensures_pure ha
  | succ count ih =>
    refine (hbody round a ha).bind fun b hb => ?_
    rw [show round + (count + 1) = round + 1 + count by omega]
    exact ih (round + 1) hb

end Stateful
