import Axe.Lib.DagFold

/-!
# Maximal sharing

A table of nodes that refer to each other by number stands for trees. Where a node is determined
by its shape and its children, and no node is stored twice, two numbers stand for one tree only
when they are equal.
-/
namespace HashConsing

open DagFold

variable {ν σ : Type}

inductive Unfolding (σ : Type)
  | node (shape : σ) (children : List (Unfolding σ))

/-- The tree that a number stands for. -/
def Unfolds (get : Nat → Option ν) (children : ν → List Nat) (shape : ν → σ) :
    Nat → Unfolding σ → Prop :=
  Folds get children fun e trees => some (.node (shape e) trees)

variable {get : Nat → Option ν} {children : ν → List Nat} {shape : ν → σ}

/-- Lists that are related to one list are equal, where the relation is one to one. -/
theorem forall₂_left_unique {α β : Type} {R S : α → β → Prop} {l l' : List α} {bs : List β}
    (h : List.Forall₂ R l bs) (h' : List.Forall₂ S l' bs)
    (hRS : ∀ a a' b, R a b → S a' b → a = a') : l = l' := by
  induction h generalizing l' with
  | nil =>
    cases h'
    rfl
  | cons hab _ ih =>
    cases h' with
    | cons hab' hrest => rw [hRS _ _ _ hab hab', ih hrest]

/-- Where children come first every number of the table stands for a tree. -/
theorem exists_unfolds {len : Nat} (hget : ∀ id < len, ∃ e, get id = some e)
    (hlt : ∀ id e, get id = some e → ∀ c ∈ children e, c < id) {id : Nat} (h : id < len) :
    ∃ tree, Unfolds get children shape id tree := by
  induction id using Nat.strong_induction_on with
  | _ id ih =>
    obtain ⟨e, he⟩ := hget id h
    obtain ⟨trees, htrees⟩ := forall₂_of_mem fun c hc =>
      ih c (hlt id e he c hc) ((hlt id e he c hc).trans h)
    exact ⟨.node (shape e) trees, Folds.iff.mpr ⟨e, trees, he, htrees, rfl⟩⟩

theorem Unfolds.inj (hshape : ∀ e e', shape e = shape e' → children e = children e' → e = e')
    (hget : ∀ id id' e, get id = some e → get id' = some e → id = id') {id id' : Nat}
    {tree : Unfolding σ} (h : Unfolds get children shape id tree)
    (h' : Unfolds get children shape id' tree) : id = id' := by
  refine Folds.induct (P := fun id tree => ∀ id', Unfolds get children shape id' tree → id = id')
    ?_ h id' h'
  intro id e trees tree he htrees htree id' h'
  obtain ⟨e', trees', he', htrees', htree'⟩ := Folds.iff.mp h'
  rw [← htree, Option.some.injEq, Unfolding.node.injEq] at htree'
  obtain ⟨hsame, rfl⟩ := htree'
  have hchildren : children e = children e' :=
    forall₂_left_unique htrees htrees' fun c c' t hc hc' => hc.2 c' hc'
  have heq : e = e' := hshape e e' hsame.symm hchildren
  exact hget id id' e he (heq ▸ he')

end HashConsing
