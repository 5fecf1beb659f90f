import Axe.Static.Ir

/-!
# Abstract values

An abstract value stands for the words a register or a stack slot may hold. A constant and a
set list their members, an interval lists only some of them.
-/
namespace Axe.Static

inductive Kind
  | constant | stringPointer | pointerExpression | interval | constantSet | cap
  deriving DecidableEq

inductive Confidence
  | low | medium | high
  deriving DecidableEq

inductive Region
  | integer | string | data | unknown
  deriving DecidableEq

structure StringRecord where
  va : Word
  text : String
  deriving DecidableEq

structure AbstractValue where
  kind : Kind
  lo : Option Word
  hi : Option Word
  stride : Word
  value : Option String
  targetVa : Option Word
  evidence : List Nat
  confidence : Confidence
  region : Region
  expression : Option String
  base : Option String
  index : Option String
  scale : Nat
  displacement : Int
  possibleValues : List Word
  deriving DecidableEq

abbrev Strings := OrderedMap Word StringRecord
abbrev Registers := OrderedMap String AbstractValue
abbrev StackSlots := OrderedMap Int AbstractValue

/-- The members of a list in order, each of them once. -/
def sortDedup {α : Type} [LinearOrder α] (xs : List α) : List α := SortedMap.ofList id xs

def valueText (value : Word) : String := "0x" ++ upperHex 0 value.val

def constant (value : Word) (confidence : Confidence) (evidence : List Nat) : AbstractValue :=
  { kind := .constant, lo := some value, hi := some value, stride := 1
    value := some (valueText value), targetVa := none, evidence := evidence
    confidence := confidence, region := .integer, expression := none, base := none
    index := none, scale := 0, displacement := 0, possibleValues := [value] }

def stringPointer (target : Word) (string : StringRecord) : AbstractValue :=
  { kind := .stringPointer, lo := some target, hi := some target, stride := 1
    value := some string.text, targetVa := some string.va, evidence := [], confidence := .high
    region := .string, expression := none, base := none, index := none, scale := 0
    displacement := 0, possibleValues := [target] }

def pointerOrConstant (target : Option Word) (strings : Strings) : Option AbstractValue :=
  target.map fun target =>
    match strings.get target with
    | some string => stringPointer target string
    | none => constant target .medium []

/-- The mask of an `and` is taken as the greatest result. -/
def masked (imm : Word) : AbstractValue :=
  { kind := .interval, lo := some 0, hi := some imm, stride := 1, value := none
    targetVa := none, evidence := [], confidence := .low, region := .integer
    expression := none, base := none, index := none, scale := 0, displacement := 0
    possibleValues := [0, imm] }

def pointerText (ins : IrInstruction) : String :=
  ins.memoryBase.getD "0" ++ " + " ++ ins.memoryIndex.getD "0" ++ "*" ++
    toString (max ins.memoryScale 1) ++ " +0x" ++
    String.ofList (Nat.toDigits 16 (ins.memoryDisplacement % 2 ^ 64).toNat)

/-- A register of unknown value counts as zero. -/
def pointerTarget (ins : IrInstruction) (regs : Registers) : Word :=
  let base := (ins.memoryBase.bind regs.get).bind (·.lo)
  let index := (ins.memoryIndex.bind regs.get).bind (·.lo)
  let scale : Word := Fin.ofNat _ (max ins.memoryScale 1)
  let target := index.elim (base.getD 0) fun index => base.getD 0 + index * scale
  target.wrappingAddSigned ins.memoryDisplacement

def pointerExpression (ins : IrInstruction) (regs : Registers) (strings : Strings) :
    Option AbstractValue :=
  let known := ((ins.memoryBase.bind regs.get).bind (·.lo)).isSome ||
    ((ins.memoryIndex.bind regs.get).bind (·.lo)).isSome
  let target := pointerTarget ins regs
  let string := strings.get target
  if ins.memoryBase.isNone && ins.memoryIndex.isNone && ins.memoryDisplacement = 0 then none
  else if target = 0 then none
  else some
    { kind := .pointerExpression, lo := some target, hi := some target, stride := 1
      value := some ((string.map StringRecord.text).getD (valueText target))
      targetVa := some target, evidence := []
      confidence := if known then .medium else .low
      region := if string.isSome then .string else .data
      expression := some (pointerText ins), base := ins.memoryBase, index := ins.memoryIndex
      scale := max ins.memoryScale 1, displacement := ins.memoryDisplacement
      possibleValues := [target] }

/-- Both ends move, each of them modulo the width. -/
def arithmetic (source : AbstractValue) (op : String) (imm : Word) : Option AbstractValue :=
  source.lo.bind fun lo => source.hi.map fun hi =>
    let nextLo := if op = "sub" then lo - imm else lo + imm
    let nextHi := if op = "sub" then hi - imm else hi + imm
    { source with
      lo := some nextLo
      hi := some nextHi
      value := if nextLo = nextHi then some (valueText nextLo) else none
      kind := if nextLo = nextHi then .constant else .interval
      confidence := .medium
      possibleValues := [nextLo, nextHi] }

def shift (source : AbstractValue) (op : String) (imm : Word) : Option AbstractValue :=
  source.lo.bind fun lo => source.hi.bind fun hi =>
    if 64 ≤ imm then none
    else
      let nextLo := if op = "shl" then lo <<< imm else lo >>> imm
      let nextHi := if op = "shl" then hi <<< imm else hi >>> imm
      some { source with
        lo := some (min nextLo nextHi)
        hi := some (max nextLo nextHi)
        value := if min nextLo nextHi = max nextLo nextHi then
          some (valueText (min nextLo nextHi)) else none
        kind := if min nextLo nextHi = max nextLo nextHi then .constant else .interval
        confidence := .medium
        possibleValues := [nextLo, nextHi] }

def withEvidence (value : AbstractValue) (address : Nat) : AbstractValue :=
  if value.evidence.contains address then value
  else { value with evidence := value.evidence ++ [address] }

def firstRead (ins : IrInstruction) (regs : Registers) : Option AbstractValue :=
  ins.readRegs.head?.bind regs.get

/-- What is computed from constants and from the first register that is read. An operation that
is understood may still give no value. -/
def computedValue (ins : IrInstruction) (regs : Registers) : Option (Option AbstractValue) :=
  if ins.mnemonic = "xor" && ins.writeReg.isSome && ins.writeReg = ins.readRegs.head? then
    some (some (constant 0 .medium []))
  else if ["add", "sub"].contains ins.mnemonic then
    (firstRead ins regs).bind fun source =>
      ins.immediate.map fun imm => arithmetic source ins.mnemonic imm
  else if ["shl", "shr", "sar"].contains ins.mnemonic then
    (firstRead ins regs).bind fun source =>
      ins.immediate.map fun imm => shift source ins.mnemonic imm
  else if ins.mnemonic = "and" then ins.immediate.map fun imm => some (masked imm)
  else none

def valueForInstruction (ins : IrInstruction) (strings : Strings) (regs : Registers)
    (stack : StackSlots) : Option AbstractValue :=
  (computedValue ins regs).getD <|
    (if ins.mnemonic = "lea" && ins.ripTarget.isNone then pointerExpression ins regs strings
      else none).or <|
    (pointerOrConstant ins.ripTarget strings).or <|
    (if ["mov", "movabs", "movzx", "movsxd", "lea"].contains ins.mnemonic then
      pointerOrConstant ins.immediate strings else none).or <|
    (if ins.memoryRead then ins.stackSlot.bind stack.get else none).or <|
    firstRead ins regs

/-- The upper bound and the missing lower bound, which is zero. -/
def AbstractValue.refineUpperBound (value : AbstractValue) (hi : Word) (evidenceVa : Nat) :
    AbstractValue :=
  let lo := value.lo.getD 0
  let newHi := (value.hi.map fun old => min old hi).getD hi
  { value with
    kind := if lo = newHi then .constant else .interval
    lo := some (min lo newHi)
    hi := some newHi
    possibleValues := if lo = newHi then [lo] else [lo, newHi]
    value := none
    confidence := .medium
    region := if value.region = .unknown then .integer else value.region
    evidence := sortDedup (value.evidence ++ [evidenceVa]) }

/-- The lower bound and the missing upper bound, which is the same bound. -/
def AbstractValue.refineLowerBound (value : AbstractValue) (lo : Word) (evidenceVa : Nat) :
    AbstractValue :=
  let hi := value.hi.getD lo
  let newLo := (value.lo.map fun old => max old lo).getD lo
  { value with
    kind := if newLo = hi then .constant else .interval
    lo := some (min newLo hi)
    hi := some (max hi newLo)
    possibleValues := if newLo = hi then [newLo] else [newLo, hi]
    value := none
    confidence := .medium
    evidence := sortDedup (value.evidence ++ [evidenceVa]) }

def AbstractValue.refineExactValue (existing : AbstractValue) (value : Word) (evidenceVa : Nat) :
    AbstractValue :=
  { existing with
    kind := .constant
    lo := some value
    hi := some value
    possibleValues := [value]
    value := some (valueText value)
    targetVa := none
    confidence := .medium
    region := .integer
    evidence := sortDedup (existing.evidence ++ [evidenceVa]) }

end Axe.Static
