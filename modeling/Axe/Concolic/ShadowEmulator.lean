import Axe.Concolic.ShadowState
import Axe.Concolic.OperandParser

/-!
# The shadow emulator

One handler for each family of instructions, over the DAG and the shadow state.
Addresses are `u64` with checked additions; an overflow panics, and a panic ends
the run.
-/
namespace Axe.Concolic

open Smt (SmtSort)
open X86 (Reg)

structure LastCompare where
  lhs : NodeId
  rhs : NodeId
  width : Nat
  isTest : Bool
  deriving DecidableEq, Repr

structure BranchEventWithNodeIds where
  siteVa : BitVec 64
  mnemonic : List Char
  predicate : NodeId
  width : Nat
  lastCmp : LastCompare
  deriving DecidableEq, Repr

/-- The fields of an instruction that the emulator reads. -/
structure InstructionRecord where
  address : BitVec 64
  mnemonic : String
  opStr : String
  deriving DecidableEq, Repr

structure ShadowEmulator where
  dag : ExprDag
  state : ShadowState
  inputBase : BitVec 64
  inputLen : BitVec 32
  lastCmp : Option LastCompare

def ShadowEmulator.new (dag : ExprDag) (inputBase : BitVec 64) (inputLen : BitVec 32) :
    ShadowEmulator := ⟨dag, .new, inputBase, inputLen, none⟩

/-- A computation on the emulator; `none` is a panic. -/
abbrev Shadow := StateT ShadowEmulator Option

namespace Shadow

def intern (e : Expr) : Shadow NodeId := fun em =>
  some ((em.dag.intern e).1, { em with dag := (em.dag.intern e).2 })

def internSymbol (name : String) : Shadow SymbolId := fun em =>
  some ((em.dag.internSymbol name).1, { em with dag := (em.dag.internSymbol name).2 })

def checked {α : Type} (o : Option α) : Shadow α := fun em => o.map fun a => (a, em)

end Shadow

open Shadow (intern internSymbol checked)

/-- Addition that must not overflow. -/
def checkedAdd {w : Nat} (a b : BitVec w) : Option (BitVec w) :=
  if a.toNat + b.toNat < 2 ^ w then some (a + b) else none

section Reads

def inputByteVar (index : BitVec 32) : Shadow NodeId := do
  let sym ← internSymbol s!"input_b{index.toNat}"
  intern (.var sym (.bv 8))

/-- The bytes of a region put together, each above the ones before it. A byte without
a node ends the loop. -/
def concatBytes (byte : Nat → Shadow (Option NodeId)) : List Nat → Option NodeId →
    Shadow (Option NodeId)
  | [], acc => return acc
  | i :: is, acc => do
    match ← byte i, acc with
    | none, _ => return none
    | some b, none => concatBytes byte is (some b)
    | some b, some low => concatBytes byte is (some (← intern (.concat b low)))

def concatInputBytes (start : BitVec 32) (count : Nat) : Shadow (Option NodeId) :=
  concatBytes (fun i => do
    let index ← checked (checkedAdd start (BitVec.ofNat 32 i))
    some <$> inputByteVar index) (List.range count) none

def concatShadowBytes (addr : BitVec 64) (count : Nat) : Shadow (Option NodeId) :=
  concatBytes (fun i => do
    let addr ← checked (checkedAdd addr (BitVec.ofNat 64 i))
    return (← get).state.memory addr) (List.range count) none

namespace ShadowEmulator

/-- A base register counts as concrete when it has no shadow. -/
def baseConcrete (em : ShadowEmulator) (base : Option (List Char)) : Bool :=
  match base with
  | none => true
  | some b => ((canonicalReg b).filter fun c => (em.state.regs c).isNone).isSome

/-- With a base register, addresses are relative to the input. -/
def effectiveAddr (em : ShadowEmulator) (base : Option (List Char)) (disp : BitVec 64) :
    BitVec 64 :=
  if base.isNone then disp else em.inputBase + disp

/-- Whether an access lies in the input region. -/
def inInput (em : ShadowEmulator) (addr : BitVec 64) (count : Nat) : Option Bool :=
  if em.inputBase ≤ addr then do
    let stop ← checkedAdd addr (BitVec.ofNat 64 count)
    let inputStop ← checkedAdd em.inputBase (em.inputLen.setWidth 64)
    return stop ≤ inputStop
  else some false

end ShadowEmulator

def readMemoryRegion (base : Option (List Char)) (disp : BitVec 64) (widthBits : Nat) :
    Shadow (Option NodeId) := do
  if widthBits = 0 ∨ widthBits % 8 ≠ 0 then return none
  let em ← get
  let addr := em.effectiveAddr base disp
  if ¬ em.baseConcrete base then return none
  if ← checked (em.inInput addr (widthBits / 8)) then
    concatInputBytes ((addr - em.inputBase).setWidth 32) (widthBits / 8)
  else concatShadowBytes addr (widthBits / 8)

/-- The view of a register; `ah` is its second byte. -/
def narrowTo (full wantWidth : Nat) (isAh : Bool) : Shadow NodeId :=
  if isAh then intern (.extract 15 8 full)
  else if 64 ≤ wantWidth then return full
  else intern (.extract (wantWidth - 1) 0 full)

/-- The bits of an immediate that are kept. -/
def immMask (width : Nat) : BitVec 128 :=
  if 1#128 <<< width - 1 = 0 then 1 else 1#128 <<< width - 1

def readOperand (op : Operand) (wantWidth : Nat) : Shadow (Option NodeId) := do
  match op with
  | .imm v =>
    some <$> intern (.bvConst (v.setWidth 128 &&& immMask (min wantWidth 127)) wantWidth)
  | .reg name _ =>
    match (canonicalReg name).bind (← get).state.regs with
    | none => return none
    | some full => some <$> narrowTo full wantWidth (name = "ah".toList)
  | .mem base disp width =>
    match ← readMemoryRegion base disp (min width wantWidth) with
    | none => return none
    | some load => some <$> narrowTo load wantWidth false

end Reads

section Writes

def writeReg64 (nameAlias : List Char) (full : Option NodeId) : Shadow Unit :=
  match canonicalReg nameAlias with
  | some c => modify fun em => { em with state := em.state.writeReg c full }
  | none => return ()

def widenTo64 (n : Option NodeId) (width : Nat) : Shadow (Option NodeId) := do
  match n with
  | none => return none
  | some n => if 64 ≤ width then return some n else some <$> intern (.zeroExt (64 - width) n)

/-- Byte by byte, also over the input region. -/
def writeMemoryRegion (base : Option (List Char)) (disp : BitVec 64) (widthBits : Nat)
    (value : Option NodeId) : Shadow Unit := do
  if widthBits = 0 ∨ widthBits % 8 ≠ 0 then return ()
  let addr := (← get).effectiveAddr base disp
  (List.range (widthBits / 8)).forM fun i => do
    let byte ← value.mapM fun v => intern (.extract (i * 8 + 7) (i * 8) v)
    let addr ← checked (checkedAdd addr (BitVec.ofNat 64 i))
    modify fun em => { em with state := em.state.writeByte addr byte }

end Writes

section Handlers

inductive Binop where
  | add | sub | mul | and | or | xor
  deriving DecidableEq, Repr

def Binop.toExpr (l r : NodeId) : Binop → Expr
  | .add => .bvAdd l r
  | .sub => .bvSub l r
  | .mul => .bvMul l r
  | .and => .bvAnd l r
  | .or => .bvOr l r
  | .xor => .bvXor l r

inductive Shift where
  | shl | lshr | ashr
  deriving DecidableEq, Repr

def Shift.toExpr (l r : NodeId) : Shift → Expr
  | .shl => .bvShl l r
  | .lshr => .bvLShr l r
  | .ashr => .bvAShr l r

def stepMov (ops : List Operand) : Shadow Unit := do
  match ops with
  | [.reg name width, src] =>
    let srcNode ← readOperand src width
    writeReg64 name (← widenTo64 srcNode width)
  | [.mem base disp width, src] =>
    let srcNode ← readOperand src width
    writeMemoryRegion base disp width srcNode
  | _ => return ()

def extendBy (extra : Nat) (signed : Bool) (n : Option NodeId) : Shadow (Option NodeId) :=
  match n with
  | none => return none
  | some n =>
    if extra > 0 then some <$> intern (if signed then .signExt extra n else .zeroExt extra n)
    else return some n

def stepMovzxOrSx (ops : List Operand) (signed : Bool) : Shadow Unit := do
  match ops with
  | [.reg dstName dw, src] =>
    let srcW := src.width.getD 8
    let srcNode ← readOperand src srcW
    let extended ← extendBy (dw - srcW) signed srcNode
    writeReg64 dstName (← widenTo64 extended dw)
  | _ => return ()

/-- With one operand concrete, an immediate source is used in its place. -/
def binopResult (op : Binop) (src : Operand) (width : Nat) (lhs rhs : Option NodeId) :
    Shadow (Option NodeId) := do
  match lhs, rhs with
  | some l, some r => some <$> intern (op.toExpr l r)
  | some l, none | none, some l =>
    match src with
    | .imm v =>
      let cv ← intern (.bvConst (v.setWidth 128) width)
      some <$> intern (op.toExpr l cv)
    | _ => return none
  | none, none => return none

def stepBinop (ops : List Operand) (op : Binop) : Shadow Unit := do
  match ops with
  | [.reg name width, src] =>
    let lhs ← readOperand (.reg name width) width
    let rhs ← readOperand src width
    let result ← binopResult op src width lhs rhs
    writeReg64 name (← widenTo64 result width)
  | _ => return ()

def shiftAmount (src : Operand) (width : Nat) : Shadow (Option NodeId) :=
  match src with
  | .imm v => some <$> intern (.bvConst (v.setWidth 128 &&& immMask width) width)
  | .reg name w => readOperand (.reg name w) width
  | .mem _ _ _ => return none

def shiftResult (shift : Shift) (lhs amount : Option NodeId) : Shadow (Option NodeId) :=
  match lhs, amount with
  | some l, some a => some <$> intern (shift.toExpr l a)
  | _, _ => return none

def stepShift (ops : List Operand) (shift : Shift) : Shadow Unit := do
  match ops with
  | [.reg name width, src] =>
    let lhs ← readOperand (.reg name width) width
    let amount ← shiftAmount src width
    let result ← shiftResult shift lhs amount
    writeReg64 name (← widenTo64 result width)
  | _ => return ()

def cmpWidth (a b : Operand) : Nat :=
  match a.width, b.width with
  | some wa, some wb => max (min wa wb) 8
  | some wa, none => wa
  | none, some wb => wb
  | none, none => 32

def Operand.isLocation : Operand → Bool
  | .imm _ => false
  | _ => true

/-- A side of a comparison without a shadow is taken to be a literal. -/
def sideOrLiteral (op : Operand) (node : Option NodeId) (w : Nat) : Shadow NodeId :=
  match node with
  | some n => return n
  | none => intern (.bvConst (((literalValue op).getD 0).setWidth 128) w)

def stepCmp (ops : List Operand) (isTest : Bool) : Shadow Unit := do
  match ops with
  | [a, b] =>
    let w := cmpWidth a b
    let lhs ← readOperand a w
    let rhs ← readOperand b w
    if ¬ (a.isLocation ∧ lhs.isSome) ∧ ¬ (b.isLocation ∧ rhs.isSome) then
      modify fun em => { em with lastCmp := none }
    else
      let l ← sideOrLiteral a lhs w
      let r ← sideOrLiteral b rhs w
      if isTest then
        let anded ← intern (.bvAnd l r)
        let zeroNode ← intern (.bvConst 0 w)
        modify fun em => { em with lastCmp := some ⟨anded, zeroNode, w, isTest⟩ }
      else modify fun em => { em with lastCmp := some ⟨l, r, w, isTest⟩ }
  | _ => return ()

def stepLea (ops : List Operand) : Shadow Unit := do
  match ops with
  | [.reg name _, .mem base disp _] =>
    match ((base.bind canonicalReg).bind (← get).state.regs) with
    | some b =>
      let d ← intern (.bvConst (disp.signExtend 128 &&& (1#128 <<< 64 - 1)) 64)
      writeReg64 name (some (← intern (.bvAdd b d)))
    | none => writeReg64 name none
  | _ => return ()

/-- Any other family clears the register it names first. -/
def stepUnsupported (ops : List Operand) : Shadow Unit :=
  match ops with
  | .reg dst _ :: _ =>
    match canonicalReg dst with
    | some c => modify fun em =>
      if (em.state.regs c).isSome then { em with state := em.state.writeReg c none } else em
    | none => return ()
  | _ => return ()

end Handlers

section Branches

inductive BranchRel where
  | eq | ne | ugt | uge | ult | ule | sgt | sge | slt | sle
  deriving DecidableEq, Repr

def relationForBranch (mnemonic : List Char) : Option BranchRel :=
  match String.ofList mnemonic with
  | "je" | "jz" => some .eq
  | "jne" | "jnz" => some .ne
  | "ja" | "jnbe" => some .ugt
  | "jae" | "jnb" | "jnc" => some .uge
  | "jb" | "jc" | "jnae" => some .ult
  | "jbe" | "jna" => some .ule
  | "jg" | "jnle" => some .sgt
  | "jge" | "jnl" => some .sge
  | "jl" | "jnge" => some .slt
  | "jle" | "jng" => some .sle
  | _ => none

def buildPredicate (rel : BranchRel) (lhs rhs : NodeId) : Shadow NodeId := do
  match rel with
  | .eq => intern (.eq lhs rhs)
  | .ne => intern (.not (← intern (.eq lhs rhs)))
  | .ugt => intern (.not (← intern (.ule lhs rhs)))
  | .uge => intern (.not (← intern (.ult lhs rhs)))
  | .ult => intern (.ult lhs rhs)
  | .ule => intern (.ule lhs rhs)
  | .sgt => intern (.not (← intern (.sle lhs rhs)))
  | .sge => intern (.not (← intern (.slt lhs rhs)))
  | .slt => intern (.slt lhs rhs)
  | .sle => intern (.sle lhs rhs)

def emitBranchEvent (siteVa : BitVec 64) (mnemonic : List Char) (rel : BranchRel) :
    Shadow (Option BranchEventWithNodeIds) := do
  match (← get).lastCmp with
  | none => return none
  | some cmp =>
    let predicate ← buildPredicate rel cmp.lhs cmp.rhs
    return some ⟨siteVa, mnemonic, predicate, cmp.width, cmp⟩

end Branches

section Dispatch

/-- The families of the emulator's table. -/
inductive Family where
  | mov
  | movx (signed : Bool)
  | binop (op : Binop)
  | shift (shift : Shift)
  | cmp (isTest : Bool)
  | lea
  | unsupported
  deriving DecidableEq, Repr

def familyOf (mnemonic : List Char) : Family :=
  match String.ofList mnemonic with
  | "mov" => .mov
  | "movzx" => .movx false
  | "movsx" => .movx true
  | "add" => .binop .add
  | "sub" => .binop .sub
  | "imul" => .binop .mul
  | "and" => .binop .and
  | "or" => .binop .or
  | "xor" => .binop .xor
  | "shl" | "sal" => .shift .shl
  | "shr" => .shift .lshr
  | "sar" => .shift .ashr
  | "cmp" => .cmp false
  | "test" => .cmp true
  | "lea" => .lea
  | _ => .unsupported

theorem mov_dispatch :
    relationForBranch "mov".toList = none ∧ familyOf "mov".toList = .mov := by
  simp [relationForBranch, familyOf]

def stepFamily (family : Family) (operands : List Operand) : Shadow Unit :=
  match family with
  | .mov => stepMov operands
  | .movx signed => stepMovzxOrSx operands signed
  | .binop op => stepBinop operands op
  | .shift shift => stepShift operands shift
  | .cmp isTest => stepCmp operands isTest
  | .lea => stepLea operands
  | .unsupported => stepUnsupported operands

def InstructionRecord.lowerMnemonic (ir : InstructionRecord) : List Char :=
  toAsciiLowercase ir.mnemonic.toList

def stepInstruction (ir : InstructionRecord) : Shadow (Option BranchEventWithNodeIds) := do
  let operands ← checked (parseOperands ir.opStr)
  match relationForBranch ir.lowerMnemonic with
  | some rel => emitBranchEvent ir.address ir.lowerMnemonic rel
  | none =>
    stepFamily (familyOf ir.lowerMnemonic) operands
    return none

/-- The instructions of a run, from first to last. -/
def stepAll : List InstructionRecord → Shadow (List (Option BranchEventWithNodeIds))
  | [] => return []
  | ir :: irs => do
    let event ← stepInstruction ir
    return event :: (← stepAll irs)

end Dispatch

end Axe.Concolic
