import Axe.Lib.SortedSlices
import Axe.Lib.X86
import Axe.Static.Ir

/-!
# Lifting decoded instructions

The lifter keeps the family of a register and forgets which part of it an operand names. It
takes the first operand for written by the name of the instruction alone.
-/
namespace Axe.Static

/-- The part of a general register that an operand names. -/
inductive Part
  | low | high | word | dword | qword
  deriving DecidableEq

namespace Part

def offset : Part → Nat
  | .high => 8
  | .low | .word | .dword | .qword => 0

def width : Part → Nat
  | .low | .high => 8
  | .word => 16
  | .dword => 32
  | .qword => 64

end Part

/-- The name of the whole register. -/
def generalName : X86.Reg → String
  | .rax => "rax" | .rbx => "rbx" | .rcx => "rcx" | .rdx => "rdx"
  | .rsi => "rsi" | .rdi => "rdi" | .rsp => "rsp" | .rbp => "rbp"
  | .r8 => "r8" | .r9 => "r9" | .r10 => "r10" | .r11 => "r11"
  | .r12 => "r12" | .r13 => "r13" | .r14 => "r14" | .r15 => "r15"

/-- The decoder spells the low bytes of the newer registers `r8l` to `r15l`, not `r8b` to `r15b`
as the table of the lifter has them, so that they go by names of their own. -/
def lowName : X86.Reg → Option String
  | .r8 => some "r8l" | .r9 => some "r9l" | .r10 => some "r10l" | .r11 => some "r11l"
  | .r12 => some "r12l" | .r13 => some "r13l" | .r14 => some "r14l" | .r15 => some "r15l"
  | .rax | .rbx | .rcx | .rdx | .rsi | .rdi | .rsp | .rbp => none

def generalNames : List String :=
  ["rax", "rbx", "rcx", "rdx", "rsi", "rdi", "rsp", "rbp", "r8", "r9", "r10", "r11", "r12", "r13",
    "r14", "r15"]

def lowNames : List String := ["r8l", "r9l", "r10l", "r11l", "r12l", "r13l", "r14l", "r15l"]

/-- A part of a general register, or a register that has no parts and goes by its own name. -/
inductive Register
  | general (reg : X86.Reg) (part : Part)
  | other (name : String) (own : name ∉ generalNames ++ lowNames)
  deriving DecidableEq

def normalizeRegister : Register → String
  | .general reg .low => (lowName reg).getD (generalName reg)
  | .general reg _ => generalName reg
  | .other name _ => name

theorem normalizeRegister_general (r : X86.Reg) (p : Part) :
    normalizeRegister (.general r p) = generalName r ∨
      p = .low ∧ lowName r = some (normalizeRegister (.general r p)) := by
  cases p with
  | low =>
    rw [normalizeRegister]
    cases hlow : lowName r with
    | none => exact .inl rfl
    | some name => exact .inr ⟨rfl, rfl⟩
  | high | word | dword | qword => exact .inl rfl

/-- An immediate as it is encoded, to be extended by its sign or by zeros. -/
structure Immediate where
  width : Nat
  raw : BitVec width
  signed : Bool
  deriving DecidableEq

def Immediate.bits (i : Immediate) : BitVec 64 :=
  if i.signed then i.raw.signExtend 64 else i.raw.setWidth 64

def Immediate.value (i : Immediate) : Word := i.bits.toFin

inductive Operand
  | register (r : Register)
  | memory
  | immediate (i : Immediate)
  | other
  deriving DecidableEq

/-- What the decoder tells of an instruction. There is one memory operand at most. -/
structure Instruction where
  ip : Nat
  len : Nat
  operands : List Operand
  memoryBase : Option Register
  memoryIndex : Option Register
  memoryIndexScale : Nat
  memoryDisplacement64 : Word
  memorySize : Nat
  nearBranchTarget : Nat
  ipRelMemoryAddress : Option Word
  deriving DecidableEq

/-- A decoded instruction with its name and its kind of control flow. -/
structure Decoded where
  instr : Instruction
  mnemonic : String
  isCall : Bool
  isJump : Bool
  deriving DecidableEq

structure LiftedInstruction extends IrInstruction where
  operandWidth : Nat
  indirectTargetRegister : Option String
  indirectTargetMemory : Bool
  isCall : Bool
  deriving DecidableEq

def writesFirstOperand (mnemonic : String) : Bool :=
  ["mov", "movzx", "movsxd", "lea", "xor", "add", "sub", "and", "or", "shl", "shr", "sar", "rol",
    "ror"].contains mnemonic

/-- The displacement as a signed number. -/
def asI64 (w : Word) : Int := (BitVec.ofFin w).toInt

def stackSlotFor (instr : Instruction) : Option Int :=
  ((instr.memoryBase.map normalizeRegister).filter fun base => base = "rsp" || base = "rbp").map
    fun _ => asI64 instr.memoryDisplacement64

def branchTarget (instr : Instruction) : Option Nat :=
  if instr.nearBranchTarget ≠ 0 then some instr.nearBranchTarget else none

def indirectTargetOperand (instr : Instruction) (isControlFlow lacksDirectTarget : Bool) :
    Option String × Bool :=
  if isControlFlow && lacksDirectTarget then
    match instr.operands.head? with
    | some (.register r) => (some (normalizeRegister r), false)
    | some .memory => (none, true)
    | _ => (none, false)
  else (none, false)

def pushUnique (values : List String) (value : String) : List String :=
  if values.contains value then values else values ++ [value]

def pushRegister (values : List String) (r : Option Register) : List String :=
  (r.map normalizeRegister).elim values (pushUnique values)

/-- One operand, with its number. -/
def liftOperand (instr : Instruction) (mnemonic : String) (ir : LiftedInstruction)
    (operand : Operand × Nat) : LiftedInstruction :=
  let written := operand.2 = 0 && writesFirstOperand mnemonic
  match operand.1 with
  | .register r =>
    if written then { ir with writeReg := some (normalizeRegister r) }
    else { ir with readRegs := pushUnique ir.readRegs (normalizeRegister r) }
  | .memory =>
    { ir with
      memoryBase := instr.memoryBase.map normalizeRegister
      memoryIndex := instr.memoryIndex.map normalizeRegister
      memoryScale := instr.memoryIndexScale
      memoryDisplacement := asI64 instr.memoryDisplacement64
      operandWidth := instr.memorySize
      memoryWrite := ir.memoryWrite || written
      memoryRead := ir.memoryRead || !written
      readRegs := pushRegister (pushRegister ir.readRegs instr.memoryBase) instr.memoryIndex
      stackSlot := (stackSlotFor instr).or ir.stackSlot }
  | .immediate i => { ir with immediate := some i.value }
  | .other => ir

/-- The record before the operands are looked at. -/
def liftHead (d : Decoded) : LiftedInstruction where
  address := d.instr.ip
  size := d.instr.len
  mnemonic := d.mnemonic
  writeReg := none
  readRegs := []
  immediate := none
  ripTarget := d.instr.ipRelMemoryAddress
  stackSlot := none
  memoryBase := none
  memoryIndex := none
  memoryScale := 0
  memoryDisplacement := 0
  memoryWrite := false
  memoryRead := false
  directTarget := branchTarget d.instr
  isJump := d.isJump
  operandWidth := 0
  indirectTargetRegister := (indirectTargetOperand d.instr (d.isCall || d.isJump)
    (branchTarget d.instr).isNone).1
  indirectTargetMemory := (indirectTargetOperand d.instr (d.isCall || d.isJump)
    (branchTarget d.instr).isNone).2
  isCall := d.isCall

def fromIced (d : Decoded) : LiftedInstruction :=
  d.instr.operands.zipIdx.foldl (liftOperand d.instr d.mnemonic) (liftHead d)

section Fields
variable {d : Decoded} {instr : Instruction} {mnemonic : String} {ir : LiftedInstruction}

/-- The fields that no operand changes. -/
def LiftedInstruction.head (ir : LiftedInstruction) :
    String × Nat × Nat × Option Word × Option Nat × Bool × Bool :=
  (ir.mnemonic, ir.address, ir.size, ir.ripTarget, ir.directTarget, ir.isJump, ir.isCall)

theorem liftOperand_head (operand : Operand × Nat) :
    (liftOperand instr mnemonic ir operand).head = ir.head := by
  obtain ⟨kind, i⟩ := operand
  cases kind with
  | register r =>
    simp only [liftOperand]
    split <;> rfl
  | memory => rfl
  | immediate i => rfl
  | other => rfl

theorem foldl_liftOperand_head (operands : List (Operand × Nat)) :
    (operands.foldl (liftOperand instr mnemonic) ir).head = ir.head := by
  induction operands generalizing ir with
  | nil => rfl
  | cons operand rest ih => rw [List.foldl_cons, ih, liftOperand_head]

theorem fromIced_head : (fromIced d).head = (liftHead d).head := foldl_liftOperand_head _

@[simp] theorem fromIced_mnemonic : (fromIced d).mnemonic = d.mnemonic :=
  congrArg (·.1) (fromIced_head (d := d))

@[simp] theorem fromIced_address : (fromIced d).address = d.instr.ip :=
  congrArg (·.2.1) (fromIced_head (d := d))

@[simp] theorem fromIced_directTarget : (fromIced d).directTarget = branchTarget d.instr :=
  congrArg (·.2.2.2.2.1) (fromIced_head (d := d))

@[simp] theorem fromIced_isCall : (fromIced d).isCall = d.isCall :=
  congrArg (·.2.2.2.2.2.2) (fromIced_head (d := d))

theorem foldl_liftOperand_indirect (operands : List (Operand × Nat)) :
    (operands.foldl (liftOperand instr mnemonic) ir).indirectTargetMemory =
      ir.indirectTargetMemory := by
  induction operands generalizing ir with
  | nil => rfl
  | cons operand rest ih =>
    obtain ⟨kind, i⟩ := operand
    rw [List.foldl_cons, ih]
    cases kind with
    | register r =>
      simp only [liftOperand]
      split <;> rfl
    | memory => rfl
    | immediate i => rfl
    | other => rfl

/-- A target in memory is the first operand. -/
theorem head?_of_indirectTargetMemory (h : (fromIced d).indirectTargetMemory = true) :
    d.instr.operands.head? = some .memory := by
  rw [fromIced, foldl_liftOperand_indirect, liftHead, indirectTargetOperand] at h
  split at h
  · cases hhead : d.instr.operands.head? with
    | none =>
      rw [hhead] at h
      cases h
    | some operand =>
      rw [hhead] at h
      cases operand with
      | memory => rfl
      | register r => cases h
      | immediate i => cases h
      | other => cases h
  · cases h

/-- The parts of a memory operand, once one was lifted. -/
theorem foldl_liftOperand_memory {operands : List (Operand × Nat)}
    (h : (ir.memoryBase = instr.memoryBase.map normalizeRegister ∧
        ir.memoryDisplacement = asI64 instr.memoryDisplacement64) ∨
      ∃ i, (Operand.memory, i) ∈ operands) :
    (operands.foldl (liftOperand instr mnemonic) ir).memoryBase =
        instr.memoryBase.map normalizeRegister ∧
      (operands.foldl (liftOperand instr mnemonic) ir).memoryDisplacement =
        asI64 instr.memoryDisplacement64 := by
  induction operands generalizing ir with
  | nil =>
    rcases h with h | ⟨i, hmem⟩
    · exact h
    · cases hmem
  | cons operand rest ih =>
    obtain ⟨kind, i⟩ := operand
    rw [List.foldl_cons]
    refine ih ?_
    rcases h with h | ⟨j, hmem⟩
    · refine .inl ?_
      cases kind with
      | register r =>
        simp only [liftOperand]
        split <;> exact h
      | memory => exact ⟨rfl, rfl⟩
      | immediate i => exact h
      | other => exact h
    · rcases List.mem_cons.mp hmem with heq | hmem
      · obtain ⟨rfl, rfl⟩ := Prod.mk.inj heq
        exact .inl ⟨rfl, rfl⟩
      · exact .inr ⟨j, hmem⟩

/-- Operands other than the first are not written. -/
theorem foldl_liftOperand_writeReg (operands : List Operand) {i : Nat} (hi : 0 < i) :
    ((operands.zipIdx i).foldl (liftOperand instr mnemonic) ir).writeReg = ir.writeReg := by
  induction operands generalizing ir i with
  | nil => rfl
  | cons operand rest ih =>
    have hread : decide (i = 0) = false := decide_eq_false (by omega)
    rw [List.zipIdx_cons, List.foldl_cons, ih (Nat.succ_pos i)]
    cases operand with
    | register r => simp only [liftOperand, hread, Bool.false_and, Bool.false_eq_true, if_false]
    | memory => rfl
    | immediate i => rfl
    | other => rfl

/-- The register that an operand names. -/
def Operand.register? : Operand → Option Register
  | .register r => some r
  | _ => none

/-- A listed instruction writes the register that its first operand is. -/
theorem fromIced_writeReg :
    (fromIced d).writeReg =
      if writesFirstOperand d.mnemonic then
        (d.instr.operands.head?.bind Operand.register?).map normalizeRegister
      else none := by
  rw [fromIced]
  cases d.instr.operands with
  | nil => exact (ite_self _).symm
  | cons operand rest =>
    rw [List.zipIdx_cons, List.foldl_cons, foldl_liftOperand_writeReg rest (Nat.succ_pos 0),
      List.head?_cons, Option.bind_some]
    cases hwrites : writesFirstOperand d.mnemonic with
    | false => cases operand <;> simp [liftOperand, hwrites, liftHead]
    | true => cases operand <;> simp [liftOperand, hwrites, liftHead, Operand.register?]

theorem head?_pushUnique {values : List String} {x y : String} (h : values.head? = some x) :
    (pushUnique values y).head? = some x := by
  rw [pushUnique]
  split
  · exact h
  · rw [List.head?_append, h, Option.some_or]

theorem head?_pushRegister {values : List String} {x : String} (r : Option Register)
    (h : values.head? = some x) : (pushRegister values r).head? = some x := by
  cases r with
  | none => exact h
  | some r => exact head?_pushUnique h

/-- What is read first stays first. -/
theorem foldl_liftOperand_head? {x : String} (operands : List (Operand × Nat))
    (h : ir.readRegs.head? = some x) :
    (operands.foldl (liftOperand instr mnemonic) ir).readRegs.head? = some x := by
  induction operands generalizing ir with
  | nil => exact h
  | cons operand rest ih =>
    obtain ⟨kind, i⟩ := operand
    refine ih ?_
    cases kind with
    | register r =>
      simp only [liftOperand]
      split
      · exact h
      · exact head?_pushUnique h
    | memory => exact head?_pushRegister _ (head?_pushRegister _ h)
    | immediate i => exact h
    | other => exact h

/-- The register that an instruction off the list reads first, where its first operand is one. -/
theorem fromIced_head? {r : Register} (hwrites : writesFirstOperand d.mnemonic = false)
    (h : d.instr.operands.head? = some (.register r)) :
    (fromIced d).readRegs.head? = some (normalizeRegister r) := by
  obtain ⟨rest, hops⟩ : ∃ rest, d.instr.operands = .register r :: rest := by
    cases hops : d.instr.operands with
    | nil =>
      rw [hops] at h
      cases h
    | cons operand rest =>
      rw [hops, List.head?_cons, Option.some.injEq] at h
      exact ⟨rest, by rw [h]⟩
  rw [fromIced, hops, List.zipIdx_cons, List.foldl_cons]
  refine foldl_liftOperand_head? _ ?_
  simp [liftOperand, hwrites, liftHead, pushUnique]

end Fields

/-- The names tell the general registers apart. -/
theorem generalName_inj {r r' : X86.Reg} (h : generalName r = generalName r') : r = r' := by
  revert h
  cases r <;> cases r' <;> decide

theorem generalName_mem (r : X86.Reg) : generalName r ∈ generalNames := by
  cases r <;> decide

/-- Where the rows of a function lie among the sorted rows of the program. -/
structure FunctionSemanticSlice where
  functionIndex : Nat
  functionStart : Nat
  functionEnd : Nat
  instructionRange : Nat × Nat
  irRange : Nat × Nat
  xrefRange : Nat × Nat
  cfgIndex : Option Nat
  hasReturn : Bool
  overlapsKnownFunction : Bool
  deriving DecidableEq

namespace FunctionSemanticSlice
variable {α β : Type} (slice : FunctionSemanticSlice)

/-- The part of the lifted code that belongs to the function. -/
def part (ir : List α) : List α := SortedSlices.part ir slice.irRange

theorem part_map (f : α → β) (ir : List α) : slice.part (ir.map f) = (slice.part ir).map f := by
  rw [part, part, SortedSlices.part, SortedSlices.part, List.map_take, List.map_drop]

theorem mem_of_mem_part {a : α} {ir : List α} (h : a ∈ slice.part ir) : a ∈ ir :=
  List.mem_of_mem_drop (List.mem_of_mem_take h)

end FunctionSemanticSlice

end Axe.Static
