import Axe.Concolic.Semantics

/-!
# Queries and reports

What the solving ladder hands to a backend and what a backend hands back. A
duration is a number of nanoseconds, an input model a list of bytes.
-/
namespace Axe.Concolic

open Smt (Assignment)

structure BranchQuery where
  inputBytes : Nat
  pathConstraints : List NodeId
  targetBranch : NodeId
  wantTaken : Bool
  timeout : Nat
  preferLogic : Option String
  deriving DecidableEq, Repr

inductive SolveStatus where
  | sat | unsat | unknown | timeout | loweringError
  deriving DecidableEq, Repr

structure SolveReport where
  status : SolveStatus
  timeMs : Nat
  inputModel : Option (List (BitVec 8))
  smt2 : String
  reason : Option String
  unsatCore : List NodeId
  unsatAssumptionsReturned : Bool
  backend : String
  deriving DecidableEq, Repr

def SolveReport.isAuthoritativeUnreachable (r : SolveReport) : Bool :=
  r.status = .unsat && r.unsatAssumptionsReturned && !r.unsatCore.isEmpty

/-- The nodes a query asserts or negates. -/
def BranchQuery.roots (q : BranchQuery) : List NodeId := q.pathConstraints ++ [q.targetBranch]

/-- The path constraints hold and the target goes the wanted way. -/
def BranchQuery.Holds (q : BranchQuery) (dag : ExprDag) (σ : Assignment SymbolId) : Prop :=
  (∀ p ∈ q.pathConstraints, dag.Gives σ p true) ∧ dag.Gives σ q.targetBranch q.wantTaken

section InputBytes

/-- The index `i` of a variable called `input_b<i>`. -/
def inputByteIndex (name : String) : Option Nat :=
  match "input_b".toList.isPrefixOf? name.toList with
  | some digits =>
    let i := Nat.ofDigitChars 10 digits 0
    if name = s!"input_b{i}" then some i else none
  | none => none

/-- The input bytes as a model gives them, missing ones read as 0; the other
variables as `base` does. -/
def byteAssignment (dag : ExprDag) (model : List (BitVec 8)) (base : Assignment SymbolId) :
    Assignment SymbolId := fun v s =>
  match s, (dag.symbolName v).bind inputByteIndex with
  | .bv w, some i => (model.getD i 0).setWidth w
  | s, _ => base v s

theorem inputByteIndex_eq_some {name : String} {i : Nat} :
    inputByteIndex name = some i ↔ name = s!"input_b{i}" := by
  constructor
  · intro h
    unfold inputByteIndex at h
    split at h
    · simp only [Option.ite_none_right_eq_some, Option.some.injEq] at h
      obtain ⟨h, rfl⟩ := h
      exact h
    · cases h
  · rintro rfl
    have hdigits : "input_b".toList.isPrefixOf? (s!"input_b{i}").toList =
        some (Nat.toDigits 10 i) := by
      rw [List.isPrefixOf?_eq_some_iff_append_eq]
      simp only [String.toList_append, Nat.toString_eq_ofList_toDigits, String.toList_ofList]
      rfl
    rw [inputByteIndex, hdigits]
    simp [Nat.ofDigitChars_ten_toDigits]

end InputBytes

end Axe.Concolic
