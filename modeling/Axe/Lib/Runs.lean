/-!
# Runs of a partial step function

A run takes the actions of a list one after another, as long as each is enabled. A property of
the state it ends in is traced back to a condition that every one of its steps meets.
-/
namespace Runs

variable {σ α : Type} {step : σ → α → Option σ} {s s' : σ} {actions : List α}

def run (step : σ → α → Option σ) : σ → List α → Option σ
  | s, [] => some s
  | s, a :: rest => (step s a).bind fun next => run step next rest

/-- Every action meets a condition on the state in which it is taken. -/
def Every (step : σ → α → Option σ) (P : σ → α → Prop) : σ → List α → Prop
  | _, [] => True
  | s, a :: rest => P s a ∧ ∀ next, step s a = some next → Every step P next rest

theorem run_cons_eq {a : α} {rest : List α} (h : run step s (a :: rest) = some s') :
    ∃ next, step s a = some next ∧ run step next rest = some s' :=
  Option.bind_eq_some_iff.mp h

/-- What holds of the state after a step held before it. -/
theorem run_live {Live : σ → Prop} (hlive : ∀ s a s', step s a = some s' → Live s' → Live s)
    (h : run step s actions = some s') (hs' : Live s') : Live s := by
  induction actions generalizing s with
  | nil =>
    cases h
    exact hs'
  | cons a rest ih =>
    obtain ⟨next, hnext, hrest⟩ := run_cons_eq h
    exact hlive s a next hnext (ih hrest)

theorem every_cons {P : σ → α → Prop} {a : α} {rest : List α} {next : σ}
    (h : step s a = some next) :
    Every step P s (a :: rest) ↔ P s a ∧ Every step P next rest := by
  refine and_congr_right fun _ => ⟨fun hall => hall next h, fun hall t ht => ?_⟩
  rw [h] at ht
  cases ht
  exact hall

/-- What steps under a condition keep holds at the end of a run whose steps all meet it. -/
theorem keeps_of_every {I Live : σ → Prop} {P : σ → α → Prop}
    (hlive : ∀ s a s', step s a = some s' → Live s' → Live s)
    (hI : ∀ s a s', step s a = some s' → P s a → Live s' → I s → I s')
    (h : run step s actions = some s') (hall : Every step P s actions) (hs' : Live s') (hs : I s) :
    I s' := by
  induction actions generalizing s with
  | nil =>
    cases h
    exact hs
  | cons a rest ih =>
    obtain ⟨next, hnext, hrest⟩ := run_cons_eq h
    obtain ⟨hP, hevery⟩ := (every_cons hnext).mp hall
    exact ih hrest hevery (hI s a next hnext hP (run_live hlive hrest hs') hs)

theorem every_true : Every step (fun _ _ => True) s actions := by
  induction actions generalizing s with
  | nil => trivial
  | cons a rest ih => exact ⟨trivial, fun _ _ => ih⟩

theorem run_keeps {I Live : σ → Prop} (hlive : ∀ s a s', step s a = some s' → Live s' → Live s)
    (hI : ∀ s a s', step s a = some s' → Live s' → I s → I s')
    (h : run step s actions = some s') (hs' : Live s') (hs : I s) : I s' :=
  keeps_of_every hlive (fun s a s' hstep _ => hI s a s' hstep) h every_true hs' hs

/-- A property that a step keeps just under a condition holds at the end just when every step
met the condition. Only live states count, those from which the end can be reached. -/
theorem holds_iff_every {I Live G : σ → Prop} {P : σ → α → Prop}
    (hlive : ∀ s a s', step s a = some s' → Live s' → Live s)
    (hI : ∀ s a s', step s a = some s' → Live s' → I s → I s')
    (hG : ∀ s a s', step s a = some s' → Live s' → I s → (G s' ↔ G s ∧ P s a))
    (h : run step s actions = some s') (hs' : Live s') (hs : I s) :
    G s' ↔ G s ∧ Every step P s actions := by
  induction actions generalizing s with
  | nil =>
    cases h
    exact (and_iff_left trivial).symm
  | cons a rest ih =>
    obtain ⟨next, hnext, hrest⟩ := run_cons_eq h
    have hl := run_live hlive hrest hs'
    rw [ih hrest (hI s a next hnext hl hs), hG s a next hnext hl hs, every_cons hnext, and_assoc]

/-- A measure that every step lowers bounds the length of the run. -/
theorem length_le {cost : σ → Nat} (hstep : ∀ s a s', step s a = some s' → cost s' < cost s)
    (h : run step s actions = some s') : actions.length ≤ cost s := by
  induction actions generalizing s with
  | nil => exact Nat.zero_le _
  | cons a rest ih =>
    obtain ⟨next, hnext, hrest⟩ := run_cons_eq h
    exact Nat.lt_of_le_of_lt (ih hrest) (hstep s a next hnext)

theorem every_and {P Q : σ → α → Prop} :
    Every step (fun s a => P s a ∧ Q s a) s actions ↔
      Every step P s actions ∧ Every step Q s actions := by
  induction actions generalizing s with
  | nil => simp [Every]
  | cons a rest ih =>
    simp only [Every, ih]
    constructor
    · rintro ⟨⟨hp, hq⟩, hall⟩
      exact ⟨⟨hp, fun t ht => (hall t ht).1⟩, hq, fun t ht => (hall t ht).2⟩
    · rintro ⟨⟨hp, hpall⟩, hq, hqall⟩
      exact ⟨⟨hp, hq⟩, fun t ht => ⟨hpall t ht, hqall t ht⟩⟩

end Runs
