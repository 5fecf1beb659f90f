import Mathlib.Algebra.Order.Ring.Nat

/-!
# Programs that may panic

A function ends with a result, with an error of its own, or with a panic: a range that leaves
its list, or a sum that leaves its type. A loop asks its body for one row an index and ends where
the body has none.
-/
namespace Checked

inductive Fault
  | error (text : String)
  | range (start stop length : Nat)
  | overflow (bits : Nat)
  deriving DecidableEq

def Fault.IsPanic : Fault → Prop
  | .error _ => False
  | .range _ _ _ | .overflow _ => True

variable {α β : Type}

def NoPanic (r : Except Fault α) : Prop := ∀ f, r = .error f → ¬ f.IsPanic

/-- The part of a list from one index up to another. -/
def slice (xs : List α) (start stop : Nat) : Except Fault (List α) :=
  if start ≤ stop ∧ stop ≤ xs.length then .ok ((xs.drop start).take (stop - start))
  else .error (.range start stop xs.length)

/-- The sum of two numbers of a width in bits. -/
def add (bits a b : Nat) : Except Fault Nat :=
  if a + b < 2 ^ bits then .ok (a + b) else .error (.overflow bits)

/-- The rows of at most `count` indices from `index` on. -/
def forRange (body : Nat → Except Fault (Option α)) : (count index : Nat) → Except Fault (List α)
  | 0, _ => .ok []
  | count + 1, index => do
    match ← body index with
    | none => return []
    | some row => return row :: (← forRange body count (index + 1))

section Outcomes
variable {x : Except Fault α} {f : α → Except Fault β}

theorem noPanic_ok (a : α) : NoPanic (.ok a) := fun _ h => nomatch h

theorem noPanic_pure (a : α) : NoPanic (pure a : Except Fault α) := noPanic_ok a

theorem noPanic_error (fault : Fault) : NoPanic (.error fault : Except Fault α) ↔
    ¬ fault.IsPanic := by
  refine ⟨fun h => h fault rfl, fun h fault' heq => ?_⟩
  cases heq
  exact h

theorem noPanic_text (text : String) : NoPanic (.error (.error text) : Except Fault α) :=
  (noPanic_error _).mpr id

theorem noPanic_bind : NoPanic (x >>= f) ↔ NoPanic x ∧ ∀ a, x = .ok a → NoPanic (f a) := by
  cases x with
  | error fault =>
    refine ⟨fun h => ⟨fun f' hf' => ?_, fun a ha => nomatch ha⟩, fun h f' hf' => ?_⟩
    · cases hf'
      exact h fault rfl
    · cases hf'
      exact h.1 fault rfl
  | ok a =>
    refine ⟨fun h => ⟨noPanic_ok a, fun a' ha' => ?_⟩, fun h => h.2 a rfl⟩
    cases ha'
    exact h

/-- What follows a program without errors of its own panics or not whatever the result. -/
theorem noPanic_bind_iff {P : Prop} (hok : NoPanic x → ∃ a, x = .ok a)
    (h : ∀ a, x = .ok a → (NoPanic (f a) ↔ P)) : NoPanic (x >>= f) ↔ NoPanic x ∧ P := by
  rw [noPanic_bind]
  refine and_congr_right fun hx => ⟨fun hf => ?_, fun hP a ha => (h a ha).mpr hP⟩
  obtain ⟨a, ha⟩ := hok hx
  exact (h a ha).mp (hf a ha)

theorem noPanic_ite {c : Prop} [Decidable c] {x y : Except Fault α} :
    NoPanic (if c then x else y) ↔ (c → NoPanic x) ∧ (¬ c → NoPanic y) := by
  by_cases hc : c
  · rw [if_pos hc]
    exact ⟨fun h => ⟨fun _ => h, fun hn => absurd hc hn⟩, fun h => h.1 hc⟩
  · rw [if_neg hc]
    exact ⟨fun h => ⟨fun hp => absurd hp hc, fun _ => h⟩, fun h => h.2 hc⟩

theorem bind_eq_ok {b : β} : (x >>= f) = .ok b ↔ ∃ a, x = .ok a ∧ f a = .ok b := by
  cases x with
  | error fault =>
    constructor
    · intro h
      cases h
    · rintro ⟨a, ha, _⟩
      cases ha
  | ok a =>
    constructor
    · intro h
      exact ⟨a, rfl, h⟩
    · rintro ⟨a', ha', h⟩
      cases ha'
      exact h

theorem mapM_isOk {g : α → Except Fault β} {xs : List α} :
    (∃ ys, xs.mapM g = .ok ys) ↔ ∀ a ∈ xs, ∃ b, g a = .ok b := by
  induction xs with
  | nil => exact ⟨fun _ _ h => absurd h List.not_mem_nil, fun _ => ⟨[], rfl⟩⟩
  | cons a xs ih =>
    simp only [List.mapM_cons, bind_eq_ok, List.forall_mem_cons, ← ih]
    constructor
    · rintro ⟨ys, b, hb, rest, hrest, -⟩
      exact ⟨⟨b, hb⟩, rest, hrest⟩
    · rintro ⟨⟨b, hb⟩, rest, hrest⟩
      exact ⟨_, b, hb, rest, hrest, rfl⟩

theorem length_mapM {g : α → Except Fault β} {xs : List α} {ys : List β}
    (h : xs.mapM g = .ok ys) : ys.length = xs.length := by
  induction xs generalizing ys with
  | nil =>
    cases h
    rfl
  | cons a xs ih =>
    simp only [List.mapM_cons, bind_eq_ok] at h
    obtain ⟨first, -, rest, hrest, h⟩ := h
    cases h
    rw [List.length_cons, List.length_cons, ih hrest]

theorem mapM_congr {g g' : α → Except Fault β} {xs : List α} (h : ∀ a ∈ xs, g a = g' a) :
    xs.mapM g = xs.mapM g' := by
  induction xs with
  | nil => rfl
  | cons a xs ih =>
    rw [List.mapM_cons, List.mapM_cons, h a List.mem_cons_self,
      ih fun a ha => h a (List.mem_cons_of_mem _ ha)]

theorem map_mapM {γ : Type} {g : α → Except Fault β} {xs : List α} {ys : List β} {f : β → γ}
    {e : α → γ} (h : xs.mapM g = .ok ys) (hmap : ∀ a ∈ xs, ∀ b, g a = .ok b → f b = e a) :
    ys.map f = xs.map e := by
  induction xs generalizing ys with
  | nil =>
    cases h
    rfl
  | cons a xs ih =>
    simp only [List.mapM_cons, bind_eq_ok] at h
    obtain ⟨first, hfirst, rest, hrest, h⟩ := h
    cases h
    rw [List.map_cons, List.map_cons, hmap a List.mem_cons_self first hfirst,
      ih hrest fun a ha => hmap a (List.mem_cons_of_mem _ ha)]

theorem mem_mapM {g : α → Except Fault β} {xs : List α} {ys : List β} {b : β}
    (h : xs.mapM g = .ok ys) (hb : b ∈ ys) : ∃ a ∈ xs, g a = .ok b := by
  induction xs generalizing ys with
  | nil =>
    cases h
    cases hb
  | cons a xs ih =>
    simp only [List.mapM_cons, bind_eq_ok] at h
    obtain ⟨first, hfirst, rest, hrest, h⟩ := h
    cases h
    rcases List.mem_cons.mp hb with rfl | hb
    · exact ⟨a, List.mem_cons_self, hfirst⟩
    · obtain ⟨x, hx, hgx⟩ := ih hrest hb
      exact ⟨x, List.mem_cons_of_mem _ hx, hgx⟩

end Outcomes

section Operations
variable {xs part : List α} {start stop bits a b c : Nat}

theorem slice_eq_ok (h : start ≤ stop ∧ stop ≤ xs.length) :
    slice xs start stop = .ok ((xs.drop start).take (stop - start)) := if_pos h

theorem noPanic_slice : NoPanic (slice xs start stop) ↔ start ≤ stop ∧ stop ≤ xs.length := by
  rw [slice]
  by_cases h : start ≤ stop ∧ stop ≤ xs.length
  · rw [if_pos h]
    exact ⟨fun _ => h, fun _ => noPanic_ok _⟩
  · rw [if_neg h, noPanic_error]
    exact ⟨fun hn => absurd trivial hn, fun h' => absurd h' h⟩

theorem add_eq_ok : add bits a b = .ok c ↔ a + b < 2 ^ bits ∧ c = a + b := by
  rw [add]
  by_cases h : a + b < 2 ^ bits
  · rw [if_pos h, Except.ok.injEq, eq_comm]
    exact ⟨fun heq => ⟨h, heq⟩, And.right⟩
  · rw [if_neg h]
    constructor
    · intro heq
      cases heq
    · exact fun hb => absurd hb.1 h

theorem noPanic_add : NoPanic (add bits a b) ↔ a + b < 2 ^ bits := by
  rw [add]
  by_cases h : a + b < 2 ^ bits
  · rw [if_pos h]
    exact ⟨fun _ => h, fun _ => noPanic_ok _⟩
  · rw [if_neg h, noPanic_error]
    exact ⟨fun hn => absurd trivial hn, fun h' => absurd h' h⟩

/-- A sum that is used: it fits, and what follows does not panic on it. -/
theorem noPanic_add_bind {f : Nat → Except Fault α} :
    NoPanic (add bits a b >>= f) ↔ a + b < 2 ^ bits ∧ NoPanic (f (a + b)) := by
  rw [noPanic_bind, noPanic_add]
  refine and_congr_right fun h => ⟨fun hf => hf _ (add_eq_ok.mpr ⟨h, rfl⟩), fun hf c hc => ?_⟩
  rw [(add_eq_ok.mp hc).2]
  exact hf

end Operations

section Loops
variable {body : Nat → Except Fault (Option α)} {rows : List α} {count index : Nat}

/-- An iteration that yields a row, so that the loop goes on. -/
def GoesOn (body : Nat → Except Fault (Option α)) (i : Nat) : Prop :=
  ∃ row, body i = .ok (some row)

/-- A loop panics where the body of an index that it reaches does. -/
theorem noPanic_forRange : NoPanic (forRange body count index) ↔
    ∀ i < count, (∀ j < i, GoesOn body (index + j)) → NoPanic (body (index + i)) := by
  induction count generalizing index with
  | zero => exact ⟨fun _ i hi => absurd hi (Nat.not_lt_zero i), fun _ => noPanic_ok _⟩
  | succ count ih =>
    rw [forRange, noPanic_bind]
    constructor
    · rintro ⟨hbody, hrest⟩ i hi hgo
      cases i with
      | zero => exact hbody
      | succ i =>
        obtain ⟨row, hrow⟩ := hgo 0 (Nat.succ_pos i)
        have htail := (noPanic_bind.mp (hrest (some row) hrow)).1
        have hnext := ih.mp htail i (Nat.lt_of_succ_lt_succ hi) fun j hj => by
          rw [Nat.add_assoc, Nat.add_comm 1 j]
          exact hgo (j + 1) (Nat.succ_lt_succ hj)
        rwa [Nat.add_assoc, Nat.add_comm 1 i] at hnext
    · intro h
      refine ⟨h 0 (Nat.succ_pos count) fun j hj => absurd hj (Nat.not_lt_zero j),
        fun result hresult => ?_⟩
      cases result with
      | none => exact noPanic_pure _
      | some row =>
        refine noPanic_bind.mpr ⟨ih.mpr fun i hi hgo => ?_, fun rest _ => noPanic_pure _⟩
        rw [Nat.add_assoc, Nat.add_comm 1 i]
        refine h (i + 1) (Nat.succ_lt_succ hi) fun j hj => ?_
        cases j with
        | zero => exact ⟨row, hresult⟩
        | succ j =>
          have hstep := hgo j (Nat.lt_of_succ_lt_succ hj)
          rwa [Nat.add_assoc, Nat.add_comm 1 j] at hstep

theorem mem_forRange {row : α} (h : forRange body count index = .ok rows) (hrow : row ∈ rows) :
    ∃ i, body i = .ok (some row) := by
  induction count generalizing index rows with
  | zero =>
    cases h
    cases hrow
  | succ count ih =>
    rw [forRange] at h
    obtain ⟨result, hresult, h⟩ := bind_eq_ok.mp h
    cases result with
    | none =>
      cases h
      cases hrow
    | some first =>
      obtain ⟨rest, hrest, h⟩ := bind_eq_ok.mp h
      cases h
      rcases List.mem_cons.mp hrow with heq | hmem
      · exact ⟨index, heq ▸ hresult⟩
      · exact ih hrest hmem

/-- What the body does, index by index: it ends the loop, yields a row, or panics. -/
structure Describes (body : Nat → Except Fault (Option α)) (present safe : Nat → Prop) :
    Prop where
  stop : ∀ i, ¬ present i → body i = .ok none
  go : ∀ i, present i → safe i → GoesOn body i
  panic : ∀ i, present i → ¬ safe i → ¬ NoPanic (body i)

variable {present safe : Nat → Prop}

theorem Describes.goesOn (h : Describes body present safe) {i : Nat} (hgo : GoesOn body i) :
    present i ∧ safe i := by
  obtain ⟨row, hrow⟩ := hgo
  have hp : present i := by
    by_contra hp
    rw [h.stop i hp] at hrow
    cases hrow
  refine ⟨hp, ?_⟩
  by_contra hs
  refine h.panic i hp hs ?_
  rw [hrow]
  exact noPanic_ok _

theorem Describes.noPanic_forRange (h : Describes body present safe) :
    NoPanic (forRange body count 0) ↔ ∀ i < count, (∀ j ≤ i, present j) → safe i := by
  rw [Checked.noPanic_forRange]
  constructor
  · intro hno i hi hpresent
    -- by strong induction every earlier index is safe, so the loop reaches this one
    induction i using Nat.strong_induction_on with
    | _ i ih =>
      by_contra hs
      refine h.panic i (hpresent i le_rfl) hs ?_
      have hreached := hno i hi fun j hj => by
        rw [Nat.zero_add]
        exact h.go j (hpresent j hj.le) (ih j hj (hj.trans hi) fun k hk => hpresent k (hk.trans hj.le))
      rwa [Nat.zero_add] at hreached
  · intro hsafe i hi hgo
    rw [Nat.zero_add]
    by_cases hp : present i
    · obtain ⟨row, hrow⟩ := h.go i hp (hsafe i hi fun j hj => by
        rcases Nat.lt_or_eq_of_le hj with hlt | heq
        · have hj := hgo j hlt
          rw [Nat.zero_add] at hj
          exact (h.goesOn hj).1
        · rwa [heq])
      rw [hrow]
      exact noPanic_ok _
    · rw [h.stop i hp]
      exact noPanic_ok _

/-- Such a loop has no errors of its own. -/
theorem Describes.exists_ok (h : Describes body present safe)
    (hno : NoPanic (forRange body count index)) : ∃ rows, forRange body count index = .ok rows := by
  induction count generalizing index with
  | zero => exact ⟨[], rfl⟩
  | succ count ih =>
    rw [forRange] at hno ⊢
    obtain ⟨hbody, hrest⟩ := noPanic_bind.mp hno
    by_cases hp : present index
    · have hs : safe index := by
        by_contra hs
        exact h.panic index hp hs hbody
      obtain ⟨row, hrow⟩ := h.go index hp hs
      obtain ⟨rest, hok⟩ := ih (noPanic_bind.mp (hrest (some row) hrow)).1
      exact ⟨_, bind_eq_ok.mpr ⟨_, hrow, bind_eq_ok.mpr ⟨_, hok, rfl⟩⟩⟩
    · exact ⟨_, bind_eq_ok.mpr ⟨_, h.stop index hp, rfl⟩⟩

/-- The rows of a loop that ends well: those of the indices before the first absent one. -/
theorem forRange_eq_ok (row : Nat → α) (present : Nat → Bool)
    (hstop : ∀ i, present i = false → body i = .ok none)
    (hgo : ∀ i r, present i = true → body i = .ok r → r = some (row i))
    (h : forRange body count index = .ok rows) :
    rows = ((List.range' index count).takeWhile present).map row := by
  induction count generalizing index rows with
  | zero =>
    cases h
    rfl
  | succ count ih =>
    rw [forRange] at h
    obtain ⟨result, hresult, h⟩ := bind_eq_ok.mp h
    rw [List.range'_succ]
    cases hp : present index with
    | false =>
      rw [hstop index hp] at hresult
      cases hresult
      cases h
      rw [List.takeWhile_cons_of_neg (by rw [hp]; exact Bool.false_ne_true)]
      rfl
    | true =>
      rw [hgo index result hp hresult] at h
      obtain ⟨rest, hrest, h⟩ := bind_eq_ok.mp h
      cases h
      rw [List.takeWhile_cons_of_pos hp, List.map_cons, ← ih hrest]

end Loops

end Checked
