import Axe.Concolic.OperandParser
import Mathlib.Logic.Function.Basic

/-!
# The bounded native emulator

It walks the instructions of a function with registers, stack slots and four flags.
Texts of operands are lists of characters; the logs that the emulation only writes are
left out. The table of the API prototypes is a parameter.
-/
namespace Axe.Native

open Concolic (trim splitOnce toAsciiLowercase u64FromStrRadix)

abbrev Word := BitVec 64

section Text

def lowercase (s : String) : String := String.ofList (toAsciiLowercase s.toList)

def startsWith (pat s : List Char) : Bool := (pat.isPrefixOf? s).isSome

/-- `str::trim_start_matches`, which cuts off the pattern as often as it stands there. -/
def trimStartMatches (pat s : List Char) : List Char :=
  go s.length s
where
  go : Nat → List Char → List Char
    | 0, s => s
    | n + 1, s =>
      match pat.isPrefixOf? s with
      | some rest => go n rest
      | none => s

def parseInt (value : List Char) : Option Word :=
  let trimmed := ((trim value).reverse.dropWhile (· = 'h')).reverse
  match "0x".toList.isPrefixOf? trimmed with
  | some hex => u64FromStrRadix hex 16
  | none =>
    if value.getLast? = some 'h' then u64FromStrRadix trimmed 16 else u64FromStrRadix trimmed 10

def splitOperands (opStr : String) : List (List Char) :=
  ((opStr.toList.splitOn ',').map trim).filter (· ≠ [])

def normalizeOperand (value : List Char) : List Char :=
  toAsciiLowercase (trim (trimStartMatches "byte ptr".toList (trimStartMatches "word ptr".toList
    (trimStartMatches "dword ptr".toList (trimStartMatches "qword ptr".toList (trim value))))))

def registers : List String :=
  ["rax", "eax", "ax", "al", "rbx", "ebx", "bx", "bl", "rcx", "ecx", "cx", "cl", "rdx", "edx",
    "dx", "dl", "rsi", "esi", "si", "rdi", "edi", "di", "rsp", "esp", "sp", "rbp", "ebp", "bp",
    "r8", "r8d", "r8w", "r8b", "r9", "r9d", "r9w", "r9b", "r10", "r10d", "r10w", "r10b", "r11",
    "r11d", "r11w", "r11b", "r12", "r12d", "r12w", "r12b", "r13", "r13d", "r13w", "r13b",
    "r14", "r14d", "r14w", "r14b", "r15", "r15d", "r15w", "r15b"]

def registerName (value : List Char) : Option String := registers.find? (·.toList = value)

/-- The text between brackets. -/
def bracketed (value : List Char) : Option (List Char) :=
  match value with
  | '[' :: rest => if rest.getLast? = some ']' then some rest.dropLast else none
  | _ => none

/-- The offset of a stack slot, an `i64` in two's complement. -/
def stackSlot (value : List Char) : Option Word :=
  (bracketed value).bind fun inner =>
    if !(startsWith "rsp".toList inner || startsWith "rbp".toList inner) then none
    else if inner = "rsp".toList ∨ inner = "rbp".toList then some 0
    else match splitOnce '+' inner with
      | some (_, amount) => parseInt amount
      | none =>
        match splitOnce '-' inner.tail with
        | some (_, amount) => (parseInt amount).map fun n => -n
        | none => none

def parseEffectiveAddress (value : List Char) : Option Word :=
  (bracketed value).bind fun inner =>
    match "rip+".toList.isPrefixOf? inner with
    | some rest => parseInt rest
    | none =>
      match "rip-".toList.isPrefixOf? inner with
      | some rest => (parseInt rest).map fun amount => 0 - amount
      | none => parseInt inner

end Text

structure InstructionRecord where
  address : Nat
  mnemonic : String
  opStr : String
  isRet : Bool
  branchTarget : Option Nat

/-- The operands of the last compare, as texts and as values. -/
structure LastCompare where
  left : List Char
  right : List Char
  leftValue : Option Word
  rightValue : Option Word

structure NativeState where
  registers : String → Option Word
  stack : Word → Option Word
  lastCompare : Option LastCompare
  flagsZf : Bool
  flagsSf : Bool
  flagsCf : Bool
  flagsOf : Bool

structure BranchPredicate where
  siteVa : Nat
  mnemonic : String
  left : List Char
  right : List Char
  leftValue : Option Word
  rightValue : Option Word
  deriving DecidableEq

inductive StepOutcome where
  | supported
  | apiStub (api : String)
  | branch (predicate : BranchPredicate)
  | unsupported (reason : String)

section Instructions

def valueOf (value : List Char) (s : NativeState) : Option Word :=
  let normalized := normalizeOperand value
  parseInt normalized <|> (registerName normalized).bind s.registers <|>
    (stackSlot normalized).bind s.stack

def NativeState.setRegister (s : NativeState) (reg : String) (value : Word) : NativeState :=
  { s with registers := Function.update s.registers reg (some value) }

/-- A result in a register, which sets the zero and the sign flag. -/
def NativeState.setResult (s : NativeState) (reg : String) (value : Word) : NativeState :=
  { s.setRegister reg value with flagsZf := value = 0, flagsSf := value.msb }

def emulateMov (operands : List (List Char)) (s : NativeState) : StepOutcome × NativeState :=
  match operands with
  | op₀ :: op₁ :: _ =>
    let dst := normalizeOperand op₀
    let src := normalizeOperand op₁
    if dst.head? = some '[' then
      match stackSlot dst, valueOf src s with
      | some slot, some value =>
        (.supported, { s with stack := Function.update s.stack slot (some value) })
      | _, _ => (.supported, s)
    else match registerName dst with
      | some reg =>
        match valueOf src s <|> (stackSlot src).bind s.stack with
        | some value => (.supported, s.setRegister reg value)
        | none => (.supported, s)
      | none => (.unsupported "unsupported mov operand form", s)
  | _ => (.unsupported "missing mov operands", s)

def emulateLea (operands : List (List Char)) (s : NativeState) : StepOutcome × NativeState :=
  match operands with
  | op₀ :: op₁ :: _ =>
    match registerName (normalizeOperand op₀) with
    | some reg =>
      match parseEffectiveAddress (normalizeOperand op₁) with
      | some value => (.supported, s.setRegister reg value)
      | none => (.supported, s)
    | none => (.unsupported "lea destination is not a register", s)
  | _ => (.unsupported "missing lea operands", s)

def binaryMnemonics : List String :=
  ["xor", "add", "sub", "and", "or", "shl", "shr", "sar", "sal", "rol", "ror"]

def binaryValue (mnemonic : String) (same : Bool) (lhs rhs : Word) : Word :=
  let count := (rhs &&& 63).toNat
  match mnemonic with
  | "xor" => if same then 0 else lhs ^^^ rhs
  | "and" => lhs &&& rhs
  | "or" => lhs ||| rhs
  | "add" => lhs + rhs
  | "sub" => lhs - rhs
  | "shl" | "sal" => lhs <<< count
  | "shr" => lhs >>> count
  | "sar" => lhs.sshiftRight count
  | "rol" => lhs.rotateLeft count
  | "ror" => lhs.rotateRight count
  | _ => lhs

def emulateBinary (mnemonic : String) (operands : List (List Char)) (s : NativeState) :
    StepOutcome × NativeState :=
  match operands with
  | op₀ :: op₁ :: _ =>
    let dst := normalizeOperand op₀
    let src := normalizeOperand op₁
    match registerName dst with
    | some reg =>
      let lhs := (s.registers reg).getD 0
      let rhs := (valueOf src s).getD 0
      (.supported, s.setResult reg (binaryValue mnemonic (dst = src) lhs rhs))
    | none => (.unsupported "binary destination is not a register", s)
  | _ => (.unsupported "missing binary operands", s)

def unaryMnemonics : List String := ["inc", "dec", "neg", "not", "bswap"]

def swapBytes (v : Word) : Word :=
  (List.range 8).foldl (fun acc i => acc <<< 8 ||| (v >>> (8 * i)) &&& 0xFF) 0

def unaryValue (mnemonic : String) (cur : Word) : Word :=
  match mnemonic with
  | "inc" => cur + 1
  | "dec" => cur - 1
  | "neg" => ~~~cur + 1
  | "not" => ~~~cur
  | "bswap" => swapBytes cur
  | _ => cur

def emulateUnary (mnemonic : String) (operands : List (List Char)) (s : NativeState) :
    StepOutcome × NativeState :=
  match operands with
  | op₀ :: _ =>
    match registerName (normalizeOperand op₀) with
    | some reg => (.supported, s.setResult reg (unaryValue mnemonic ((s.registers reg).getD 0)))
    | none => (.unsupported "unary destination is not a register", s)
  | [] => (.unsupported "missing unary operand", s)

/-- The flags of `cmp` or `test` on two known values. -/
def NativeState.compare (s : NativeState) (isTest : Bool) (l r : Word) : NativeState :=
  let diff := if isTest then l &&& r else l - r
  { s with
    flagsZf := diff = 0
    flagsSf := diff.msb
    flagsCf := if isTest then false else l.ult r
    flagsOf := if isTest then false else ((l ^^^ r) &&& (l ^^^ (l - r))).msb }

def emulateCompare (isTest : Bool) (operands : List (List Char)) (s : NativeState) :
    StepOutcome × NativeState :=
  match operands with
  | op₀ :: op₁ :: _ =>
    let left := valueOf op₀ s
    let right := valueOf op₁ s
    let s := { s with
      lastCompare := some ⟨normalizeOperand op₀, normalizeOperand op₁, left, right⟩ }
    match left, right with
    | some l, some r => (.supported, s.compare isTest l r)
    | _, _ => (.supported, s)
  | _ => (.unsupported "missing comparison operands", s)

def conditionalHolds (suffix : String) (s : NativeState) : Bool :=
  match suffix with
  | "z" | "e" => s.flagsZf
  | "nz" | "ne" => !s.flagsZf
  | "s" => s.flagsSf
  | "ns" => !s.flagsSf
  | "c" | "b" | "nae" => s.flagsCf
  | "nc" | "ae" | "nb" => !s.flagsCf
  | "be" | "na" => s.flagsCf || s.flagsZf
  | "a" | "nbe" => !s.flagsCf && !s.flagsZf
  | "l" | "nge" => s.flagsSf != s.flagsOf
  | "ge" | "nl" => s.flagsSf == s.flagsOf
  | "le" | "ng" => s.flagsZf || (s.flagsSf != s.flagsOf)
  | "g" | "nle" => !s.flagsZf && (s.flagsSf == s.flagsOf)
  | "o" => s.flagsOf
  | "no" => !s.flagsOf
  | _ => false

def cmovMnemonics : List String :=
  ["cmovz", "cmove", "cmovnz", "cmovne", "cmovg", "cmovl", "cmovge", "cmovle", "cmova", "cmovae",
    "cmovb", "cmovbe", "cmovs", "cmovns"]

def dropText (n : Nat) (s : String) : String := String.ofList (s.toList.drop n)

def emulateSet (mnemonic : String) (operand : List Char) (s : NativeState) :
    StepOutcome × NativeState :=
  match registerName (normalizeOperand operand) with
  | some reg =>
    (.supported, s.setRegister reg (if conditionalHolds (dropText 3 mnemonic) s then 1 else 0))
  | none => (.supported, s)

def NativeState.branchPredicate (s : NativeState) (siteVa : Nat) (mnemonic : String) :
    BranchPredicate :=
  match s.lastCompare with
  | some c => ⟨siteVa, mnemonic, c.left, c.right, c.leftValue, c.rightValue⟩
  | none => ⟨siteVa, mnemonic, "unknown".toList, "unknown".toList, none, none⟩

def emulateInstruction (row : InstructionRecord) (s : NativeState) : StepOutcome × NativeState :=
  let mnemonic := lowercase row.mnemonic
  let operands := splitOperands row.opStr
  if mnemonic ∈ ["mov", "movzx", "movsx", "movsxd"] then emulateMov operands s
  else if mnemonic = "lea" then emulateLea operands s
  else if mnemonic ∈ binaryMnemonics then emulateBinary mnemonic operands s
  else if mnemonic ∈ unaryMnemonics then emulateUnary mnemonic operands s
  else if mnemonic = "cmp" ∨ mnemonic = "test" then
    emulateCompare (mnemonic = "test") operands s
  else if mnemonic = "call" then (.apiStub (String.ofList (trim row.opStr.toList)), s)
  else if mnemonic ∈ ["ret", "nop", "push", "pop", "leave", "endbr64", "endbr32", "cdq", "cqo"] then
    (.supported, s)
  else if mnemonic ∈ cmovMnemonics then
    if conditionalHolds (dropText 4 mnemonic) s then emulateMov operands s else (.supported, s)
  else if startsWith "set".toList mnemonic.toList ∧ operands.length = 1 then
    emulateSet mnemonic (operands.headD []) s
  else if startsWith "j".toList mnemonic.toList ∧ row.branchTarget.isSome then
    (.branch (s.branchPredicate row.address mnemonic), s)
  else (.unsupported "unsupported mnemonic in native bounded emulator", s)

def branchIsSatisfied (p : BranchPredicate) (s : NativeState) : Bool :=
  if p.mnemonic = "jmp" then true
  else if s.lastCompare.isSome then
    conditionalHolds (if startsWith "j".toList p.mnemonic.toList then dropText 1 p.mnemonic
      else p.mnemonic) s
  else
    match p.leftValue <|> valueOf p.left s, p.rightValue <|> valueOf p.right s with
    | some left, some right =>
      if p.mnemonic ∈ ["je", "jz"] then left == right
      else if p.mnemonic ∈ ["jne", "jnz"] then left != right
      else if p.mnemonic ∈ ["ja", "jnbe", "jg", "jnle"] then right.ult left
      else if p.mnemonic ∈ ["jae", "jnb", "jge", "jnl"] then right.ule left
      else if p.mnemonic ∈ ["jb", "jnae", "jl", "jnge"] then left.ult right
      else if p.mnemonic ∈ ["jbe", "jna", "jle", "jng"] then left.ule right
      else false
    | _, _ => false

/-- The guess at what an API call returns, from the return type of its prototype. -/
def applyApiReturnHeuristic (prototype : String → Option String) (api : String)
    (s : NativeState) : NativeState :=
  if api.toList = [] then s
  else
    let value : Word :=
      match prototype api with
      | some returnType =>
        if returnType = "HANDLE" then 0x12340000
        else if returnType ∈ ["LPVOID", "PVOID", "LPCWSTR", "LPWSTR", "LPCSTR", "LPSTR"] then
          0x20000000
        else if returnType = "BOOL" then 1
        else 0
      | none => 0
    (s.setRegister "rax" value).setRegister "eax" (value &&& 0xFFFFFFFF)

end Instructions

section Loop

/-- The instructions of a function, in the order of the listing. -/
structure Program where
  rows : List InstructionRecord
  start : Nat
  stop : Nat
  prototype : String → Option String

/-- The predicates of a run, and the instructions it visited with the states it met them in. -/
structure Emulation where
  capHit : Bool
  supportedSteps : Nat
  predicates : List BranchPredicate
  visited : List (InstructionRecord × NativeState)

namespace Program

/-- A later record of an address replaces an earlier one. -/
def byVa (p : Program) (pc : Nat) : Option InstructionRecord :=
  p.rows.reverse.find? (·.address = pc)

def nextAddress (p : Program) (current : Nat) : Option Nat :=
  (p.rows.map InstructionRecord.address).find? (current < ·)

/-- The state after an instruction. -/
def after (p : Program) (row : InstructionRecord) (s : NativeState) : NativeState :=
  match emulateInstruction row s with
  | (.apiStub api, s) => applyApiReturnHeuristic p.prototype api s
  | (_, s) => s

/-- Where the emulation goes after an instruction, unless it ends there. -/
def nextPc (p : Program) (row : InstructionRecord) (s : NativeState)
    (edges : List (Nat × Nat)) : Option (Nat × List (Nat × Nat)) :=
  match emulateInstruction row s with
  | (.supported, _) =>
    if row.isRet ∨ lowercase row.mnemonic = "ret" then none
    else some ((p.nextAddress row.address).getD p.stop, edges)
  | (.branch predicate, s) =>
    let chosen := if branchIsSatisfied predicate s then some (row.branchTarget.getD 0)
      else p.nextAddress row.address
    chosen.bind fun chosen =>
      if (row.address, chosen) ∈ edges then none
      else some (chosen, (row.address, chosen) :: edges)
  | _ => some ((p.nextAddress row.address).getD p.stop, edges)

/-- The result with one more instruction in front. -/
def visit (row : InstructionRecord) (s : NativeState) (rest : Emulation) : Emulation :=
  { rest with
    supportedSteps := rest.supportedSteps + match (emulateInstruction row s).1 with
      | .unsupported _ => 0
      | _ => 1
    predicates := match (emulateInstruction row s).1 with
      | .branch predicate => predicate :: rest.predicates
      | _ => rest.predicates
    visited := (row, s) :: rest.visited }

def loop (p : Program) : Nat → Nat → NativeState → List (Nat × Nat) → Emulation
  | budget, pc, s, edges =>
    match p.byVa pc with
    | none => ⟨false, 0, [], []⟩
    | some row =>
      match budget with
      | 0 => ⟨true, 0, [], []⟩
      | budget + 1 =>
        visit row s <| match p.nextPc row s edges with
          | none => ⟨false, 0, [], []⟩
          | some (pc, edges) =>
            if p.stop ≤ pc then ⟨false, 0, [], []⟩ else p.loop budget pc (p.after row s) edges

end Program

/-- The instructions between the bounds of a function. -/
def emulateFunction (instructions : List InstructionRecord) (start stop : Nat)
    (prototype : String → Option String) (initialRegs : String → Option Word) (cap : Nat) :
    Option Emulation :=
  let rows := instructions.filter fun row => start ≤ row.address && row.address < stop
  let p : Program := ⟨rows, start, stop, prototype⟩
  match rows with
  | [] => none
  | first :: _ =>
    let pc := if (p.byVa start).isSome then start else first.address
    let e := p.loop cap pc ⟨initialRegs, fun _ => none, none, false, false, false, false⟩ []
    if e.supportedSteps = 0 then none else some e

end Loop

end Axe.Native
