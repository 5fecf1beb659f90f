import Mathlib.Order.Basic
import Axe.Facts.Confidence

/-!
# Claims with their sources

A claim has a value, where it comes from, how sure it is and what it points back to.
-/
namespace Axe.Facts

inductive ClaimSource
  | pdb | dwarf | objectSymbol | rtti | exceptionHandling | ctorDtorPattern | fieldAccessInference
  | switchReconstruction | jumpTableHeuristic | naming | llmHeuristic
  deriving DecidableEq

/-- The sources in the order of their declaration. -/
instance : LinearOrder ClaimSource :=
  LinearOrder.lift' ClaimSource.ctorIdx fun a b h => by
    cases a <;> cases b <;> first | rfl | cases h

inductive EvidenceRef
  | instruction (va : Nat)
  | range (startVa endVa : Nat)
  | sectionAt (name : String) (va : Nat)
  | debugRecord (provider key : String)
  | artifact (entityKind id : String)
  | rawAddr (va : Nat)
  | traceEvent (eventId : String)
  deriving DecidableEq

structure Claim (α : Type) where
  value : α
  source : ClaimSource
  confidence : Confidence
  evidence : List EvidenceRef
  deriving DecidableEq

def Claim.score {α : Type} (claim : Claim α) : Rat := claim.confidence.score

end Axe.Facts
