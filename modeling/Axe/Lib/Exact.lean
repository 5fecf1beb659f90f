import Mathlib.Data.List.Forall2

/-!
# Programs that succeed exactly when a condition holds

A program over a state ends in an error or in a value, or crashes. `Decides` is
its total specification: it does not crash, keeps an invariant of the state
also when it fails, and succeeds exactly under a condition. `memo` is a program
that looks its value up before it computes it.
-/
namespace Exact

abbrev Prog (σ ε α : Type) := ExceptT ε (StateT σ Option) α

variable {σ ε α β : Type}

def Prog.exec (m : Prog σ ε α) (s : σ) : Option (Except ε α × σ) := m.run.run s

/-- A value that is not there crashes. -/
def Prog.ofOption (o : Option α) : Prog σ ε α := ExceptT.lift (StateT.lift o)

/-- From a state in `I` the program ends in one, and succeeds exactly when `C`
holds, with a value in `Q`. -/
def Decides (I : σ → Prop) (m : Prog σ ε α) (C : Prop) (Q : α → Prop) : Prop :=
  ∀ s, I s → ∃ r s', m.exec s = some (r, s') ∧ I s' ∧
    ((C ∧ ∃ a, r = .ok a ∧ Q a) ∨ (¬ C ∧ ∃ e, r = .error e))

/-- Look a value up, or compute it and keep it. -/
def memo (lookup : σ → Option α) (keep : α → σ → σ) (m : Prog σ ε α) : Prog σ ε α := do
  match lookup (← get) with
  | some a => return a
  | none =>
    let a ← m
    modify (keep a)
    return a

variable {I : σ → Prop} {C D : Prop} {Q : α → Prop} {R : β → Prop}

theorem exec_bind (m : Prog σ ε α) (k : α → Prog σ ε β) (s : σ) :
    (m >>= k).exec s = (m.exec s).bind fun
      | (.ok a, s') => (k a).exec s'
      | (.error e, s') => some (.error e, s') := by
  simp only [Prog.exec, ExceptT.run_bind, StateT.run_bind, Option.bind_eq_bind]
  congr 1
  funext p
  obtain ⟨r, s'⟩ := p
  cases r <;> rfl

theorem Decides.pure {a : α} (h : Q a) : Decides I (pure a : Prog σ ε α) True Q :=
  fun s hs => ⟨.ok a, s, rfl, hs, .inl ⟨trivial, a, rfl, h⟩⟩

theorem Decides.throw (e : ε) : Decides I (throw e : Prog σ ε α) False Q :=
  fun s hs => ⟨.error e, s, rfl, hs, .inr ⟨id, e, rfl⟩⟩

theorem Decides.ofOption {o : Option α} {a : α} (ho : o = some a) (h : Q a) :
    Decides I (Prog.ofOption o : Prog σ ε α) True Q := by
  subst ho
  exact fun s hs => ⟨.ok a, s, rfl, hs, .inl ⟨trivial, a, rfl, h⟩⟩

theorem Decides.bind {m : Prog σ ε α} {k : α → Prog σ ε β} (hm : Decides I m C Q)
    (hk : ∀ a, Q a → Decides I (k a) D R) : Decides I (m >>= k) (C ∧ D) R := by
  intro s hs
  obtain ⟨r, s', hr, hs', ⟨hC, a, rfl, ha⟩ | ⟨hC, e, rfl⟩⟩ := hm s hs
  · obtain ⟨r', s'', hr', hs'', hout⟩ := hk a ha s' hs'
    refine ⟨r', s'', by rw [exec_bind, hr]; exact hr', hs'', ?_⟩
    rcases hout with ⟨hD, h⟩ | ⟨hD, h⟩
    · exact .inl ⟨⟨hC, hD⟩, h⟩
    · exact .inr ⟨fun h' => hD h'.2, h⟩
  · exact ⟨.error e, s', by rw [exec_bind, hr]; rfl, hs', .inr ⟨fun h => hC h.1, e, rfl⟩⟩

theorem Decides.iff {m : Prog σ ε α} (h : Decides I m C Q) (hCD : C ↔ D) : Decides I m D Q :=
  propext hCD ▸ h

theorem Decides.mono {Q' : α → Prop} {m : Prog σ ε α} (h : Decides I m C Q)
    (hQ : ∀ a, Q a → Q' a) : Decides I m C Q' := by
  intro s hs
  obtain ⟨r, s', hr, hs', hout⟩ := h s hs
  exact ⟨r, s', hr, hs', hout.imp (fun ⟨hC, a, ha, hq⟩ => ⟨hC, a, ha, hQ a hq⟩) fun h => h⟩

/-- A last step that always succeeds. -/
theorem Decides.map {m : Prog σ ε α} {f : α → β} (hm : Decides I m C Q) (hf : ∀ a, Q a → R (f a)) :
    Decides I (m >>= fun a => Pure.pure (f a)) C R :=
  (hm.bind fun a ha => .pure (hf a ha)).iff (and_iff_left trivial)

theorem Decides.mapM {ι : Type} {l : List ι} {f : ι → Prog σ ε α} {C : ι → Prop} {Q : ι → α → Prop}
    (h : ∀ c ∈ l, Decides I (f c) (C c) (Q c)) :
    Decides I (l.mapM f) (∀ c ∈ l, C c) (List.Forall₂ Q l) := by
  induction l with
  | nil => exact (Decides.pure .nil).iff (by simp)
  | cons c l ih =>
    rw [List.mapM_cons]
    refine ((h c (by simp)).bind fun a ha =>
      (ih fun d hd => h d (by simp [hd])).map fun as has => ?_).iff (by simp)
    exact List.Forall₂.cons ha has

/-- A program with a memory decides what it decides without, if the memory only
holds values it would compute. -/
theorem Decides.memo {lookup : σ → Option α} {keep : α → σ → σ} {m : Prog σ ε α}
    (hlookup : ∀ s a, I s → lookup s = some a → C ∧ Q a)
    (hkeep : ∀ s a, I s → C → Q a → I (keep a s)) (hm : Decides I m C Q) :
    Decides I (memo lookup keep m) C Q := by
  intro s hs
  have hexec : (Exact.memo lookup keep m).exec s = match lookup s with
      | some a => some (.ok a, s)
      | none => (m.exec s).bind fun
        | (.ok a, s') => some (.ok a, keep a s')
        | (.error e, s') => some (.error e, s') := by
    unfold Exact.memo
    rw [exec_bind]
    change (match lookup s with | some a => _ | none => _ : Prog σ ε α).exec s = _
    cases lookup s with
    | some a => rfl
    | none =>
      dsimp only
      rw [exec_bind]
      congr 1
  cases hl : lookup s with
  | some a =>
    obtain ⟨hC, ha⟩ := hlookup s a hs hl
    exact ⟨.ok a, s, by rw [hexec, hl], hs, .inl ⟨hC, a, rfl, ha⟩⟩
  | none =>
    rw [hl] at hexec
    obtain ⟨r, s', hr, hs', ⟨hC, a, rfl, ha⟩ | ⟨hC, e, rfl⟩⟩ := hm s hs
    · exact ⟨.ok a, keep a s', by rw [hexec, hr]; rfl, hkeep s' a hs' hC ha,
        .inl ⟨hC, a, rfl, ha⟩⟩
    · exact ⟨.error e, s', by rw [hexec, hr]; rfl, hs', .inr ⟨hC, e, rfl⟩⟩

end Exact
