import Mathlib.Algebra.Order.Ring.Nat
import Axe.Lib.SortedMap

/-!
# Images and their records

The records of sections, exports and unwind entries, and what the analyses ask of an image
whatever its format.
-/
namespace Axe.Static

structure SectionRecord where
  name : String
  rva : Nat
  va : Nat
  virtualSize : Nat
  rawStart : Nat
  rawSize : Nat
  dataSize : Nat
  executable : Bool
  /-- The file bytes of the section, from the first offset up to the second. -/
  dataRange : Nat × Nat
  deriving DecidableEq

structure ExportRecord where
  name : String
  ordinal : Nat
  va : Nat
  rva : Nat
  deriving DecidableEq

/-- An unwind entry covers at least one byte. -/
structure ExceptionRecord where
  beginRva : Nat
  endRva : Nat
  unwindRva : Nat
  begin : Nat
  stop : Nat
  unwind : Nat
  nonempty : begin < stop
  deriving DecidableEq

/-- The lookups that every format offers. -/
structure BinaryImage where
  entryVa : Nat
  sections : List SectionRecord
  sectionForVa : Nat → Option SectionRecord

def BinaryImage.executableAt (image : BinaryImage) (va : Nat) : Bool :=
  ((image.sectionForVa va).map SectionRecord.executable).getD false

/-- A sum of addresses that has to stay inside the address space. -/
def addVa (a b : Nat) : Option Nat := if a + b < 2 ^ 64 then some (a + b) else none

end Axe.Static
