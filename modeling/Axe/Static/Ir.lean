import Mathlib.Data.String.Basic
import Mathlib.Order.Fin.Basic
import Axe.Lib.OrderedMap
import Axe.Static.Cfg

/-!
# Lifted instructions

Addresses of code and of stack slots are numbers, what a program computes with are words
of 64 bits.
-/
namespace Axe.Static

abbrev Word := Fin (2 ^ 64)

instance wordNeZero : NeZero (2 ^ 64) := ⟨by decide⟩

namespace Word

def saturatingAdd (a b : Word) : Word := Fin.ofNat (2 ^ 64) (min (a.val + b.val) (2 ^ 64 - 1))

def saturatingSub (a b : Word) : Word := Fin.ofNat (2 ^ 64) (a.val - b.val)

def wrappingAddSigned (a : Word) (d : Int) : Word :=
  Fin.ofNat (2 ^ 64) ((a.val + d) % 2 ^ 64).toNat

theorem val_saturatingAdd (a b : Word) :
    (a.saturatingAdd b).val = min (a.val + b.val) (2 ^ 64 - 1) := by
  rw [saturatingAdd, Fin.val_ofNat, Nat.mod_eq_of_lt]
  omega

theorem val_saturatingSub (a b : Word) : (a.saturatingSub b).val = a.val - b.val := by
  rw [saturatingSub, Fin.val_ofNat, Nat.mod_eq_of_lt]
  have ha := a.isLt
  omega

end Word

structure IrInstruction where
  address : Nat
  size : Nat
  mnemonic : String
  writeReg : Option String
  readRegs : List String
  immediate : Option Word
  ripTarget : Option Word
  stackSlot : Option Int
  memoryBase : Option String
  memoryIndex : Option String
  memoryScale : Nat
  memoryDisplacement : Int
  memoryWrite : Bool
  memoryRead : Bool
  directTarget : Option Nat
  isJump : Bool
  deriving DecidableEq

/-- The number in upper-case hexadecimal digits, with zeros up to a width. -/
def upperHex (width n : Nat) : String :=
  let digits := (Nat.toDigits 16 n).map Char.toUpper
  String.ofList (List.replicate (width - digits.length) '0' ++ digits)

def signedDecimal (n : Int) : String := (if 0 ≤ n then "+" else "-") ++ toString n.natAbs

/-- The storage of a slot of the stack. -/
def stackStorage (slot : Int) : String := "stack[" ++ signedDecimal slot ++ "]"

/-- The first block that reaches over an address. -/
def blockForCfg (cfg : CfgRecord) (address : Nat) : Option Nat :=
  (cfg.blocks.find? fun block => block.start ≤ address && address < block.stop).map
    BasicBlockRecord.start

/-- The blocks that lead to each target. -/
def predecessorsByBlock (cfg : CfgRecord) : OrderedMap Nat (List Nat) :=
  cfg.edges.foldl (fun m edge => (blockForCfg cfg edge.source).elim m fun block =>
    m.insert edge.target (SortedMap.insert id block ((m.get edge.target).getD []))) .empty

end Axe.Static
