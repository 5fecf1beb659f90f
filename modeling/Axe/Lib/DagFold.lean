import Mathlib.Data.List.Forall2
import Mathlib.Data.Finset.Card
import Mathlib.Data.Finset.Range
import Mathlib.Logic.Relation

/-!
# Recursion over a finite shared graph

Nodes are numbers, `get` reads the node stored under a number and `children`
lists the numbers a node refers to. Two ways of recursing over such a graph
are developed. A *fold* computes a value from the values of the children and
is read relationally: `Folds` holds when some finite depth computes it, so a
node on a cycle has no value and no bound on the graph is needed. An *unrolled*
recursion is a total function cut off at a given depth; on an acyclic graph a
depth beyond the number of nodes satisfies the recursion equation itself.
-/
namespace DagFold

variable {ν β γ : Type*}

theorem mapM_some_iff {α : Type*} (f : α → Option β) (l : List α) (bs : List β) :
    l.mapM f = some bs ↔ List.Forall₂ (fun c b => f c = some b) l bs := by
  induction l generalizing bs with
  | nil => cases bs <;> simp
  | cons c l ih =>
    rw [List.mapM_cons]
    cases h : f c with
    | none => cases bs <;> simp [h]
    | some b =>
      cases hl : l.mapM f with
      | none => cases bs <;> simp [h, ← ih, hl]
      | some ys => cases bs <;> simp [h, ← ih, hl]

/-- Two related lists have related members, in the order of the first. -/
theorem forall₂_mem_left {α δ : Type*} {R : α → δ → Prop} {l : List α} {bs : List δ}
    (h : List.Forall₂ R l bs) : ∀ c ∈ l, ∃ b ∈ bs, R c b := by
  induction h with
  | nil => simp
  | @cons c b l bs hcb _ ih =>
    intro x hx
    rcases List.mem_cons.mp hx with rfl | hx
    · exact ⟨b, by simp, hcb⟩
    · obtain ⟨y, hy, hxy⟩ := ih x hx
      exact ⟨y, by simp [hy], hxy⟩

theorem forall₂_of_mem {α δ : Type*} {R : α → δ → Prop} {l : List α}
    (h : ∀ c ∈ l, ∃ b, R c b) : ∃ bs, List.Forall₂ R l bs := by
  induction l with
  | nil => exact ⟨[], .nil⟩
  | cons c l ih =>
    obtain ⟨b, hb⟩ := h c (by simp)
    obtain ⟨bs, hbs⟩ := ih (fun x hx => h x (by simp [hx]))
    exact ⟨b :: bs, .cons hb hbs⟩

section Reach
variable (get : Nat → Option ν) (children : ν → List Nat)

/-- The edges of the graph; a number under which nothing is stored has none. -/
def succ (id : Nat) : List Nat := ((get id).map children).getD []

def Reaches (a b : Nat) : Prop :=
  Relation.ReflTransGen (fun p c => c ∈ succ get children p) a b

variable {get children}

theorem succ_of_get {id : Nat} {e : ν} (h : get id = some e) :
    succ get children id = children e := by simp [succ, h]

theorem Reaches.refl (a : Nat) : Reaches get children a a := Relation.ReflTransGen.refl

theorem Reaches.trans {a b c : Nat} (h : Reaches get children a b)
    (h' : Reaches get children b c) : Reaches get children a c :=
  Relation.ReflTransGen.trans h h'

theorem Reaches.child {a p c : Nat} {e : ν} (h : Reaches get children a p)
    (hp : get p = some e) (hc : c ∈ children e) : Reaches get children a c :=
  Relation.ReflTransGen.tail h (by simpa [succ_of_get hp] using hc)

theorem Reaches.of_child {p c b : Nat} {e : ν} (hp : get p = some e) (hc : c ∈ children e)
    (h : Reaches get children c b) : Reaches get children p b :=
  Reaches.trans (Reaches.child (.refl p) hp hc) h

/-- A set with the root in it that is closed under children holds all that is reached. -/
theorem Reaches.mem_closed {V : Set Nat} {a b : Nat} (h : Reaches get children a b)
    (ha : a ∈ V) (hV : ∀ p ∈ V, ∀ c ∈ succ get children p, c ∈ V) : b ∈ V := by
  induction h with
  | refl => exact ha
  | tail _ hc ih => exact hV _ ih _ hc

/-- What is reached from a node is the node itself or reached from a child. -/
theorem Reaches.cases_child {a b : Nat} (h : Reaches get children a b) :
    b = a ∨ ∃ e c, get a = some e ∧ c ∈ children e ∧ Reaches get children c b := by
  rcases Relation.ReflTransGen.cases_head h with h | ⟨c, hc, h⟩
  · exact .inl h.symm
  · cases ha : get a with
    | none => simp [succ, ha] at hc
    | some e => exact .inr ⟨e, c, rfl, by simpa [succ_of_get ha] using hc, h⟩

end Reach

section Fold
variable (get : Nat → Option ν) (children : ν → List Nat) (alg : ν → List β → Option β)

/-- The value of a node computed to a given depth. -/
def fold : Nat → Nat → Option β
  | 0, _ => none
  | n + 1, id => (get id).bind fun e => ((children e).mapM (fold n)).bind (alg e)

/-- A node has a value when some depth computes it. -/
def Folds (id : Nat) (b : β) : Prop := ∃ n, fold get children alg n id = some b

variable {get children alg}

theorem fold_succ_iff {n id : Nat} {b : β} :
    fold get children alg (n + 1) id = some b ↔
      ∃ e bs, get id = some e ∧
        List.Forall₂ (fun c b => fold get children alg n c = some b) (children e) bs ∧
        alg e bs = some b := by
  simp only [fold, Option.bind_eq_some_iff, ← mapM_some_iff]
  constructor
  · rintro ⟨e, he, bs, hbs, hb⟩; exact ⟨e, bs, he, hbs, hb⟩
  · rintro ⟨e, bs, he, hbs, hb⟩; exact ⟨e, he, bs, hbs, hb⟩

theorem fold_mono {n m id : Nat} {b : β} (hnm : n ≤ m)
    (h : fold get children alg n id = some b) : fold get children alg m id = some b := by
  induction n generalizing m id b with
  | zero => simp [fold] at h
  | succ n ih =>
    obtain ⟨m, rfl⟩ : ∃ k, m = k + 1 := ⟨m - 1, by omega⟩
    obtain ⟨e, bs, he, hbs, hb⟩ := fold_succ_iff.mp h
    exact fold_succ_iff.mpr ⟨e, bs, he, hbs.imp fun _ _ hc => ih (by omega) hc, hb⟩

theorem Folds.unique {id : Nat} {b c : β} (hb : Folds get children alg id b)
    (hc : Folds get children alg id c) : b = c := by
  obtain ⟨n, hn⟩ := hb
  obtain ⟨m, hm⟩ := hc
  have h₁ := fold_mono (Nat.le_max_left n m) hn
  have h₂ := fold_mono (Nat.le_max_right n m) hm
  exact Option.some.inj (h₁.symm.trans h₂)

/-- Finitely many children share one depth. -/
theorem Folds.common_depth {l : List Nat} {bs : List β}
    (h : List.Forall₂ (Folds get children alg) l bs) :
    ∃ n, List.Forall₂ (fun c b => fold get children alg n c = some b) l bs := by
  induction h with
  | nil => exact ⟨0, .nil⟩
  | cons hc _ ih =>
    obtain ⟨n, hn⟩ := hc
    obtain ⟨m, hm⟩ := ih
    refine ⟨max n m, .cons (fold_mono (Nat.le_max_left n m) hn) ?_⟩
    exact hm.imp fun _ _ h => fold_mono (Nat.le_max_right n m) h

theorem Folds.iff {id : Nat} {b : β} :
    Folds get children alg id b ↔
      ∃ e bs, get id = some e ∧ List.Forall₂ (Folds get children alg) (children e) bs ∧
        alg e bs = some b := by
  constructor
  · rintro ⟨_ | n, hn⟩
    · simp [fold] at hn
    · obtain ⟨e, bs, he, hbs, hb⟩ := fold_succ_iff.mp hn
      exact ⟨e, bs, he, hbs.imp fun _ _ hc => ⟨n, hc⟩, hb⟩
  · rintro ⟨e, bs, he, hbs, hb⟩
    obtain ⟨n, hn⟩ := Folds.common_depth hbs
    exact ⟨n + 1, fold_succ_iff.mpr ⟨e, bs, he, hn, hb⟩⟩

/-- Induction over the nodes that have a value, children first. -/
theorem Folds.induct {P : Nat → β → Prop}
    (step : ∀ id e bs b, get id = some e →
      List.Forall₂ (fun c b => Folds get children alg c b ∧ P c b) (children e) bs →
      alg e bs = some b → P id b)
    {id : Nat} {b : β} (h : Folds get children alg id b) : P id b := by
  obtain ⟨n, hn⟩ := h
  induction n generalizing id b with
  | zero => simp [fold] at hn
  | succ n ih =>
    obtain ⟨e, bs, he, hbs, hb⟩ := fold_succ_iff.mp hn
    exact step id e bs b he (hbs.imp fun _ _ hc => ⟨⟨n, hc⟩, ih hc⟩) hb

theorem Folds.of_reaches {a b : Nat} {x : β} (h : Folds get children alg a x)
    (hr : Reaches get children a b) : ∃ y, Folds get children alg b y := by
  induction hr with
  | refl => exact ⟨x, h⟩
  | tail _ hc ih =>
    obtain ⟨y, hy⟩ := ih
    obtain ⟨e, bs, he, hbs, -⟩ := Folds.iff.mp hy
    rw [succ_of_get he] at hc
    obtain ⟨z, -, hz⟩ := forall₂_mem_left hbs _ hc
    exact ⟨z, hz⟩

/-- Fusion: two folds whose algebras preserve a relation have related values. -/
theorem Folds.fuse {alg' : ν → List γ → Option γ} {R : β → γ → Prop}
    (step : ∀ id e bs cs b, get id = some e → List.Forall₂ R bs cs → alg e bs = some b →
      ∃ c, alg' e cs = some c ∧ R b c)
    {id : Nat} {b : β} (h : Folds get children alg id b) :
    ∃ c, Folds get children alg' id c ∧ R b c := by
  refine Folds.induct (P := fun id b => ∃ c, Folds get children alg' id c ∧ R b c) ?_ h
  intro id e bs b he hbs hb
  have hcs : ∃ cs, List.Forall₂ (Folds get children alg') (children e) cs ∧
      List.Forall₂ R bs cs := by
    clear hb he
    generalize children e = l at hbs
    induction hbs with
    | nil => exact ⟨[], .nil, .nil⟩
    | cons hc _ ih =>
      obtain ⟨-, c, hc, hr⟩ := hc
      obtain ⟨cs, hcs, hrs⟩ := ih
      exact ⟨c :: cs, .cons hc hcs, .cons hr hrs⟩
  obtain ⟨cs, hcs, hrs⟩ := hcs
  obtain ⟨c, hc, hr⟩ := step id e bs cs b he hrs hb
  exact ⟨c, Folds.iff.mpr ⟨e, cs, he, hcs, hc⟩, hr⟩

/-- A fold reads no more than the nodes it reaches: a second graph whose nodes have
there the same children and the same rules computes the same value. -/
theorem Folds.transport {get' : Nat → Option ν} {alg' : ν → List β → Option β} {id : Nat} {b : β}
    (h : Folds get children alg id b)
    (hsame : ∀ n e, Reaches get children id n → get n = some e →
      ∃ e', get' n = some e' ∧ children e' = children e ∧ ∀ bs, alg' e' bs = alg e bs) :
    Folds get' children alg' id b := by
  obtain ⟨n, hn⟩ := h
  induction n generalizing id b with
  | zero => simp [fold] at hn
  | succ n ih =>
    obtain ⟨e, bs, he, hbs, hb⟩ := fold_succ_iff.mp hn
    have hchild : List.Forall₂ (Folds get' children alg') (children e) bs := by
      have hmem : ∀ c ∈ children e, Reaches get children id c :=
        fun c hc => Reaches.child (.refl id) he hc
      generalize children e = l at hbs hmem
      clear hb
      induction hbs with
      | nil => exact .nil
      | @cons c b l bs hc _ ihl =>
        have hr := hmem c (by simp)
        refine .cons (ih (fun m e hm => hsame m e (hr.trans hm)) hc) (ihl ?_)
        exact fun x hx => hmem x (by simp [hx])
    obtain ⟨e', he', hc, halg⟩ := hsame id e (.refl id) he
    exact Folds.iff.mpr ⟨e', bs, he', hc ▸ hchild, (halg bs).trans hb⟩

/-- The same on a graph that keeps the nodes themselves. -/
theorem Folds.congr {get' : Nat → Option ν} {alg' : ν → List β → Option β} {id : Nat} {b : β}
    (h : Folds get children alg id b)
    (hget : ∀ n e, Reaches get children id n → get n = some e → get' n = some e)
    (halg : ∀ n e bs, Reaches get children id n → get n = some e → alg' e bs = alg e bs) :
    Folds get' children alg' id b :=
  h.transport fun n e hr he => ⟨e, hget n e hr he, rfl, fun bs => halg n e bs hr he⟩

end Fold

section Rank

/-- No infinite descent along the edges, witnessed by a rank. -/
def Acyclic (succ : Nat → List Nat) : Prop :=
  ∃ rank : Nat → Nat, ∀ id, ∀ c ∈ succ id, rank c < rank id

variable {succ : Nat → List Nat} {N : Nat}

theorem Acyclic.of_lt (h : ∀ id, ∀ c ∈ succ id, c < id) : Acyclic succ := ⟨fun id => id, h⟩

theorem Acyclic.induct {P : Nat → Prop} (h : Acyclic succ)
    (step : ∀ id, (∀ c ∈ succ id, P c) → P id) (id : Nat) : P id := by
  obtain ⟨rank, hrank⟩ := h
  induction hn : rank id using Nat.strong_induction_on generalizing id with
  | _ n ih => exact step id fun c hc => ih (rank c) (hn ▸ hrank id c hc) c rfl

/-- With finitely many inner nodes the rank can be taken no larger than their number. -/
theorem Acyclic.bounded_rank (hN : ∀ id, succ id ≠ [] → id < N) (h : Acyclic succ) :
    ∃ rank : Nat → Nat, (∀ id, ∀ c ∈ succ id, rank c < rank id) ∧ ∀ id, rank id ≤ N := by
  obtain ⟨rank, hrank⟩ := h
  let below (id : Nat) : Finset Nat := (Finset.range N).filter fun j => rank j < rank id
  refine ⟨fun id => if succ id = [] then 0 else 1 + (below id).card, ?_, ?_⟩
  · intro id c hc
    have hid : succ id ≠ [] := List.ne_nil_of_mem hc
    by_cases hcn : succ c = []
    · simp only [hid, hcn, if_true, if_false]
      omega
    · have hlt := hrank id c hc
      have hsub : below c ⊂ below id := by
        refine Finset.ssubset_iff_of_subset ?_ |>.mpr ⟨c, ?_, ?_⟩
        · intro j hj
          simp only [below, Finset.mem_filter] at hj ⊢
          exact ⟨hj.1, by omega⟩
        · simpa [below] using ⟨hN c hcn, hlt⟩
        · simp [below]
      have := Finset.card_lt_card hsub
      simp only [hid, hcn, if_false]
      omega
  · intro id
    by_cases hid : succ id = []
    · simp [hid]
    · have hsub : below id ⊂ Finset.range N := by
        refine Finset.ssubset_iff_of_subset (Finset.filter_subset _ _) |>.mpr ⟨id, ?_, ?_⟩
        · simpa using hN id hid
        · simp
      have := Finset.card_lt_card hsub
      simp only [hid, if_false, Finset.card_range] at this ⊢
      omega

end Rank

section Unroll
variable (step : (Nat → β) → Nat → β) (bot : β)

/-- A recursive function cut off at a given depth, where it answers `bot`. -/
def unroll : Nat → Nat → β
  | 0, _ => bot
  | n + 1, id => step (unroll n) id

/-- The body of the recursion calls itself on children only. -/
def Local (succ : Nat → List Nat) : Prop :=
  ∀ f g id, (∀ c ∈ succ id, f c = g c) → step f id = step g id

variable {step bot} {succ : Nat → List Nat} {N : Nat}

theorem unroll_stable (hloc : Local step succ) {rank : Nat → Nat}
    (hrank : ∀ id, ∀ c ∈ succ id, rank c < rank id) {n m id : Nat}
    (hn : rank id < n) (hm : rank id < m) :
    unroll step bot n id = unroll step bot m id := by
  induction n generalizing m id with
  | zero => omega
  | succ n ih =>
    obtain ⟨m, rfl⟩ : ∃ k, m = k + 1 := ⟨m - 1, by omega⟩
    refine hloc _ _ id fun c hc => ?_
    have := hrank id c hc
    exact ih (by omega) (by omega)

/-- On an acyclic graph with at most `N` inner nodes, depth `N + 1` is never
exhausted: the unrolled function satisfies its own recursion equation. -/
theorem unroll_fix (hloc : Local step succ) (hN : ∀ id, succ id ≠ [] → id < N)
    (h : Acyclic succ) (id : Nat) :
    unroll step bot (N + 1) id = step (unroll step bot (N + 1)) id := by
  obtain ⟨rank, hrank, hle⟩ := h.bounded_rank hN
  refine hloc _ _ id fun c hc => ?_
  have h₁ := hrank id c hc
  have h₂ := hle id
  exact unroll_stable hloc hrank (by omega) (by omega)

/-- One level of a fold, as the step of an unrolled recursion. -/
def foldStep (get : Nat → Option ν) (children : ν → List Nat) (alg : ν → List γ → Option γ)
    (f : Nat → Option γ) (id : Nat) : Option γ :=
  (get id).bind fun e => ((children e).mapM f).bind (alg e)

variable {get : Nat → Option ν} {children : ν → List Nat} {alg : ν → List γ → Option γ}

theorem fold_eq_unroll (n : Nat) :
    fold get children alg n = unroll (foldStep get children alg) none n := by
  induction n with
  | zero => rfl
  | succ n ih =>
    funext id
    rw [fold, unroll, ih, foldStep]

theorem mapM_congr_mem {m : Type _ → Type _} [Monad m] [LawfulMonad m] {α : Type*} {f g : α → m γ}
    {l : List α} (h : ∀ c ∈ l, f c = g c) : l.mapM f = l.mapM g := by
  induction l with
  | nil => rfl
  | cons c l ih =>
    rw [List.mapM_cons, List.mapM_cons, h c (by simp), ih fun d hd => h d (by simp [hd])]

theorem foldStep_local : Local (foldStep get children alg) (DagFold.succ get children) := by
  intro f g id h
  unfold foldStep
  cases he : get id with
  | none => rfl
  | some e => rw [Option.bind_some, Option.bind_some, mapM_congr_mem (succ_of_get he ▸ h)]

/-- On an acyclic graph a fold at depth `N + 1` satisfies its own equation. -/
theorem fold_fix (hN : ∀ id, DagFold.succ get children id ≠ [] → id < N)
    (h : Acyclic (DagFold.succ get children)) (id : Nat) :
    fold get children alg (N + 1) id =
      foldStep get children alg (fold get children alg (N + 1)) id := by
  rw [fold_eq_unroll]
  exact unroll_fix foldStep_local hN h id

/-- A value found at any depth is found at depth `N + 1`. -/
theorem Folds.fold_eq (hN : ∀ id, DagFold.succ get children id ≠ [] → id < N)
    (h : Acyclic (DagFold.succ get children)) {id : Nat} {b : γ}
    (hb : Folds get children alg id b) : fold get children alg (N + 1) id = some b := by
  refine Folds.induct (P := fun id b => fold get children alg (N + 1) id = some b) ?_ hb
  intro id e bs b he hbs hb
  rw [fold_fix hN h, foldStep, he, Option.bind_some,
    (mapM_some_iff _ _ bs).mpr (hbs.imp fun _ _ h => h.2), Option.bind_some, hb]

end Unroll

end DagFold
