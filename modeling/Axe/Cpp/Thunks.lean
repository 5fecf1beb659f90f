import Axe.Lib.Conditions
import Axe.Lib.OrderedMap
import Axe.Static.Lifting

/-!
# Adjustor thunks

A short function that subtracts a constant from `rcx` and then has a direct jump is taken for a
thunk. What the processor does with instructions of other kinds, and which jumps the decoder
calls conditional, are parameters.
-/
namespace Axe.Cpp.Thunks

open Axe.Static

structure AdjustorInfo where
  realTargetVa : Nat
  offset : Int
  deriving DecidableEq

/-- What an instruction at the head of a thunk takes from `rcx`. -/
def adjustment (adjust : LiftedInstruction) : Option Int :=
  if adjust.mnemonic = "sub" then
    if adjust.writeReg = some "rcx" then adjust.immediate.map asI64 else none
  else if adjust.mnemonic = "lea" then
    if adjust.writeReg = some "rcx" ∧ adjust.memoryBase = some "rcx" then
      some (-adjust.memoryDisplacement)
    else none
  else none

def matchThunkPattern (slice : List LiftedInstruction) : Option AdjustorInfo :=
  if slice.length < 2 ∨ 4 < slice.length then none
  else
    slice.head?.bind fun adjust =>
      (slice.tail.find? fun i => i.isJump && i.directTarget.isSome).bind fun branch =>
        (adjustment adjust).bind fun offset =>
          if offset ≤ 0 ∨ 4096 < offset then none
          else branch.directTarget.map fun target => ⟨target, offset⟩

def thunkOf (functions : List FunctionRecord) (ir : List LiftedInstruction)
    (slice : FunctionSemanticSlice) : Option (Nat × AdjustorInfo) :=
  functions[slice.functionIndex]?.bind fun function =>
    if 16 < function.stop - function.start then none
    else (matchThunkPattern (slice.part ir)).map fun info => (function.start, info)

def detectAdjustorThunks (functions : List FunctionRecord) (slices : List FunctionSemanticSlice)
    (ir : List LiftedInstruction) : OrderedMap Nat AdjustorInfo :=
  .ofList (slices.filterMap (thunkOf functions ir))

/-- The general registers, the memory, the flags, and registers of other kinds. -/
structure Machine (ρ : Type) where
  regs : X86.Reg → BitVec 64
  mem : X86.Memory
  flags : X86.Flags
  others : ρ

inductive Exit (ρ : Type)
  | next (σ : Machine ρ)
  | jump (target : Nat) (σ : Machine ρ)

section Execution
variable {ρ : Type}

def Machine.setPart (σ : Machine ρ) (r : X86.Reg) (p : Part) (x : BitVec p.width) : Machine ρ :=
  { σ with regs := Function.update σ.regs r (X86.writePart p.offset (σ.regs r) x) }

def Machine.value (σ : Machine ρ) : Register → Option (BitVec 64)
  | .general r p => some ((X86.readPart p.offset p.width (σ.regs r)).setWidth 64)
  | .other _ _ => none

/-- Addresses are of 32 bits where a part of this width takes part. -/
def addressWidth (instr : Instruction) : Nat :=
  let isDword : Register → Bool := fun
    | .general _ .dword => true
    | _ => false
  if instr.memoryBase.any isDword || instr.memoryIndex.any isDword then 32 else 64

/-- The address of a memory operand whose registers are general ones. -/
def Machine.effectiveAddress (σ : Machine ρ) (instr : Instruction) : Option (BitVec 64) :=
  (instr.memoryBase.elim (some 0#64) σ.value).bind fun base =>
    (instr.memoryIndex.elim (some 0#64) σ.value).map fun index =>
      ((base + index * BitVec.ofNat 64 instr.memoryIndexScale +
        BitVec.ofFin instr.memoryDisplacement64).setWidth (addressWidth instr)).setWidth 64

def isDirectJump (d : Decoded) : Bool := d.isJump && d.instr.nearBranchTarget ≠ 0

section Step
variable (conditional : Decoded → Bool) (other : Decoded → Machine ρ → Exit ρ) (d : Decoded)
  (σ : Machine ρ)

/-- A subtraction of an immediate from a register. -/
def stepSub : Exit ρ :=
  match d.instr.operands with
  | [.register (.general r p), .immediate i] =>
    let x := X86.readPart p.offset p.width (σ.regs r)
    let y := i.bits.setWidth p.width
    .next { σ.setPart r p (x - y) with flags := X86.comparedFlags x y }
  | _ => other d σ

/-- An address put into a register. -/
def stepLea : Exit ρ :=
  match d.instr.operands, σ.effectiveAddress d.instr with
  | [.register (.general r p), .memory], some address =>
    .next (σ.setPart r p (address.setWidth p.width))
  | _, _ => other d σ

def step : Exit ρ :=
  if isDirectJump d && !conditional d then .jump d.instr.nearBranchTarget σ
  else if d.mnemonic = "sub" then stepSub other d σ
  else if d.mnemonic = "lea" then stepLea other d σ
  else other d σ

end Step

/-- Nothing but the flags is changed. -/
structure Keeps (σ σ' : Machine ρ) : Prop where
  regs : σ'.regs = σ.regs
  mem : σ'.mem = σ.mem
  others : σ'.others = σ.others

/-- The instructions lead to a target, and nothing but the flags is changed on the way. -/
def Leads (exec : Decoded → Machine ρ → Exit ρ) (target : Nat) : Machine ρ → List Decoded → Prop
  | _, [] => False
  | σ, d :: rest => (∃ σ', exec d σ = .jump target σ' ∧ Keeps σ σ') ∨
      ∃ σ', exec d σ = .next σ' ∧ Keeps σ σ' ∧ Leads exec target σ' rest

/-- Nothing but the flags is ever changed, and the next instruction follows. -/
def Idle (exec : Decoded → Machine ρ → Exit ρ) (d : Decoded) : Prop :=
  ∀ σ, ∃ σ', exec d σ = .next σ' ∧ Keeps σ σ'

/-- What a thunk does: from every state `rcx` is adjusted in full, and the jump is reached and
taken with nothing else changed. -/
structure Forwards (exec : Decoded → Machine ρ → Exit ρ) (info : AdjustorInfo)
    (adjust : Decoded) (between : List Decoded) (branch : Decoded) (rest : List Decoded) :
    Prop where
  reaches : ∀ σ, ∃ σ', exec adjust σ = .next σ' ∧
    σ'.regs = Function.update σ.regs .rcx (σ.regs .rcx - BitVec.ofInt 64 info.offset) ∧
    σ'.mem = σ.mem ∧ σ'.others = σ.others ∧
    Leads exec info.realTargetVa σ' (between ++ branch :: rest)
  unconditional : ∀ σ, exec branch σ = .jump info.realTargetVa σ
  idle : ∀ d ∈ between, Idle exec d
  noIndex : .memory ∈ adjust.instr.operands → adjust.instr.memoryIndex = none
  full : adjust.instr.operands.head? = some (.register (.general .rcx .qword))

end Execution

/-- A subtraction from the whole of `rcx`, or an address relative to the whole of it. -/
def Adjusts (d : Decoded) : Prop :=
  (∃ i, d.instr.operands = [.register (.general .rcx .qword), .immediate i]) ∨
    d.instr.operands = [.register (.general .rcx .qword), .memory] ∧
      d.instr.memoryBase = some (.general .rcx .qword) ∧ d.instr.memoryIndex = none

/-- A thunk as it should be: an adjustment of the whole of `rcx`, instructions that do nothing, and
an unconditional jump. -/
structure Plain {ρ : Type} (conditional : Decoded → Bool) (exec : Decoded → Machine ρ → Exit ρ)
    (adjust : Decoded) (between : List Decoded) (branch : Decoded) : Prop where
  adjust : Adjusts adjust
  idle : ∀ d ∈ between, Idle exec d
  unconditional : conditional branch = false

/-- The forms of a subtraction of an immediate and of an address put into a register. -/
structure ValidForm (d : Decoded) : Prop where
  sub : d.mnemonic = "sub" → (fromIced d).immediate.isSome →
    d.isJump = false ∧ ∃ o i, d.instr.operands = [o, .immediate i]
  lea : d.mnemonic = "lea" → d.isJump = false ∧
    ∃ r p, d.instr.operands = [.register (.general r p), .memory]
  index : ∀ r p x, d.instr.memoryBase = some (.general r p) → d.instr.memoryIndex = some x →
    ∃ r', x = .general r' p ∧ d.instr.memoryIndexScale ∈ [1, 2, 4, 8]
  address : ∀ r p, d.instr.memoryBase = some (.general r p) → p = .dword ∨ p = .qword

section Parts
variable {p : Part} {n : Int}

theorem writePart_small {lo w : Nat} (h : w + lo < 32) (x : BitVec w) :
    (X86.writePart lo 0#64 x).toNat < 2 ^ 32 := by
  have hx := x.isLt
  have hpow : x.toNat * 2 ^ lo < 2 ^ (w + lo) := by
    rw [Nat.pow_add]
    exact Nat.mul_lt_mul_of_pos_right hx (Nat.two_pow_pos lo)
  have hle : 2 ^ (w + lo) ≤ 2 ^ 32 := Nat.pow_le_pow_right (by decide) h.le
  rw [X86.writePart, if_neg (by omega), BitVec.zero_and, BitVec.zero_or, BitVec.toNat_shiftLeft,
    BitVec.toNat_setWidth, Nat.shiftLeft_eq, Nat.mod_eq_of_lt (a := x.toNat)
      (lt_of_lt_of_le hx (Nat.pow_le_pow_right (by decide) (by omega)))]
  exact lt_of_le_of_lt (Nat.mod_le _ _) (lt_of_lt_of_le hpow hle)

/-- A write of a part of a register that was zero leaves it small. -/
theorem writePart_zero_lt (hp : p ≠ .qword) (x : BitVec p.width) :
    (X86.writePart p.offset 0#64 x).toNat < 2 ^ 32 := by
  have hx := x.isLt
  cases p with
  | qword => exact absurd rfl hp
  | dword =>
    rw [X86.writePart_wide (by decide), BitVec.toNat_setWidth]
    exact lt_of_le_of_lt (Nat.mod_le _ _) hx
  | low => exact @writePart_small 0 8 (by decide) x
  | high => exact @writePart_small 8 8 (by decide) x
  | word => exact @writePart_small 0 16 (by decide) x

/-- What is subtracted from zero is large. -/
theorem large_of_offset (hn : 0 < n ∧ n ≤ 4096) :
    2 ^ 32 ≤ (0#64 - BitVec.ofInt 64 n).toNat := by
  rw [BitVec.toNat_sub, BitVec.toNat_ofInt, BitVec.toNat_zero]
  omega

end Parts

section Adjustments
variable {ρ : Type} {conditional : Decoded → Bool} {other : Decoded → Machine ρ → Exit ρ}
  {d : Decoded} {σ : Machine ρ} {n : Int}

theorem step_sub (hname : d.mnemonic = "sub") (hjump : d.isJump = false) :
    step conditional other d σ = stepSub other d σ := by
  rw [step, isDirectJump, hjump, if_neg (by simp), if_pos hname]

theorem step_lea (hname : d.mnemonic = "lea") (hjump : d.isJump = false) :
    step conditional other d σ = stepLea other d σ := by
  rw [step, isDirectJump, hjump, if_neg (by simp), if_neg (by rw [hname]; decide), if_pos hname]

/-- The registers that the lifter calls `rcx` are its parts. -/
theorem eq_rcx_of_normalize {r : Register} (h : normalizeRegister r = "rcx") :
    ∃ p, r = .general .rcx p := by
  cases r with
  | general r p =>
    rcases normalizeRegister_general r p with hname | ⟨-, hlow⟩
    · obtain rfl := @generalName_inj r .rcx (hname.symm.trans h)
      exact ⟨p, rfl⟩
    · rw [h] at hlow
      cases r <;> exact absurd hlow (by decide)
  | other name own =>
    rw [show name = "rcx" from h] at own
    exact absurd (List.mem_append_left _ (generalName_mem .rcx)) own

/-- An instruction that writes `rcx` has a part of it as first operand. -/
theorem rcx_of_writeReg (h : (fromIced d).writeReg = some "rcx") :
    ∃ p rest, d.instr.operands = .register (.general .rcx p) :: rest := by
  rw [fromIced_writeReg] at h
  split at h
  · obtain ⟨r, hr, hname⟩ := Option.map_eq_some_iff.mp h
    obtain ⟨p, rfl⟩ := eq_rcx_of_normalize hname
    obtain ⟨o, ho, hr⟩ := Option.bind_eq_some_iff.mp hr
    obtain ⟨rest, hops⟩ := List.head?_eq_some_iff.mp ho
    cases o with
    | register r' =>
      obtain rfl := Option.some.inj hr
      exact ⟨p, rest, hops⟩
    | memory => cases hr
    | immediate i => cases hr
    | other => cases hr
  · cases h

theorem fromIced_memory {r : Register} (h : d.instr.operands = [.register r, .memory]) :
    (fromIced d).memoryBase = d.instr.memoryBase.map normalizeRegister ∧
      (fromIced d).memoryDisplacement = asI64 d.instr.memoryDisplacement64 := by
  rw [fromIced, h]
  exact ⟨rfl, rfl⟩

theorem readPart_qword (v : BitVec 64) : X86.readPart 0 64 v = v := by
  rw [X86.readPart, BitVec.extractLsb'_eq_self]

/-- A state whose general registers all have one value. -/
def Machine.all [Inhabited ρ] (v : BitVec 64) : Machine ρ where
  regs := fun _ => v
  mem := fun _ => 0
  flags := X86.comparedFlags v v
  others := default

/-- The first instruction takes the offset from the whole of `rcx`. -/
def TakesOffset (exec : Decoded → Machine ρ → Exit ρ) (adjust : Decoded) (n : Int) : Prop :=
  ∀ σ, ∃ σ', exec adjust σ = .next σ' ∧
    σ'.regs = Function.update σ.regs .rcx (σ.regs .rcx - BitVec.ofInt 64 n) ∧
    σ'.mem = σ.mem ∧ σ'.others = σ.others

/-- A subtraction takes its immediate from the whole of `rcx` when it is one of the whole. -/
theorem takesOffset_sub [Inhabited ρ] {p : Part} {i : Immediate} (hname : d.mnemonic = "sub")
    (hjump : d.isJump = false)
    (hops : d.instr.operands = [.register (.general .rcx p), .immediate i])
    (hvalue : i.bits.toInt = n) (hn : 0 < n ∧ n ≤ 4096) :
    TakesOffset (step conditional other) d n ↔ p = .qword := by
  have hstep : ∀ σ : Machine ρ, ∃ flags, step conditional other d σ =
      .next { σ.setPart .rcx p (X86.readPart p.offset p.width (σ.regs .rcx) -
        i.bits.setWidth p.width) with flags := flags } := fun σ => by
    rw [step_sub hname hjump, stepSub, hops]
    exact ⟨_, rfl⟩
  constructor
  · intro h
    by_contra hp
    obtain ⟨σ', hnext, hregs, -, -⟩ := h (.all 0#64)
    obtain ⟨flags, hstep⟩ := hstep (.all 0#64)
    rw [hstep] at hnext
    obtain rfl := Exit.next.inj hnext
    have hrcx := congrFun hregs .rcx
    simp only [Machine.setPart, Machine.all, Function.update_self] at hrcx
    have hsmall := writePart_zero_lt hp (X86.readPart p.offset p.width 0#64 -
      i.bits.setWidth p.width)
    rw [hrcx] at hsmall
    exact absurd (large_of_offset hn) (Nat.not_le.mpr hsmall)
  · rintro rfl σ
    obtain ⟨flags, hstep⟩ := hstep σ
    refine ⟨_, hstep, ?_, rfl, rfl⟩
    simp only [Machine.setPart, Part.offset, Part.width, readPart_qword, BitVec.setWidth_eq,
      X86.writePart_wide (show 32 ≤ 64 by decide), ← hvalue, BitVec.ofInt_toInt]
    rfl

/-- The address relative to a value of a part of `rcx`, when an index has this value too. -/
def addressAt (instr : Instruction) (p : Part) (v : BitVec 64) : BitVec 64 :=
  let x := (X86.readPart p.offset p.width v).setWidth 64
  ((x + (if instr.memoryIndex.isSome then x * BitVec.ofNat 64 instr.memoryIndexScale else 0#64) +
    BitVec.ofFin instr.memoryDisplacement64).setWidth (if p = .dword then 32 else 64)).setWidth 64

theorem effectiveAddress_rcx {p : Part} {v : BitVec 64} [Inhabited ρ]
    (hbase : d.instr.memoryBase = some (.general .rcx p))
    (hindex : ∀ x, d.instr.memoryIndex = some x → ∃ r', x = .general r' p) :
    (Machine.all v : Machine ρ).effectiveAddress d.instr = some (addressAt d.instr p v) := by
  have hwidth : addressWidth d.instr = if p = .dword then 32 else 64 := by
    rw [addressWidth, hbase]
    cases hx : d.instr.memoryIndex with
    | none => cases p <;> rfl
    | some x =>
      obtain ⟨r', rfl⟩ := hindex x hx
      cases p <;> rfl
  rw [Machine.effectiveAddress, hwidth, hbase, addressAt]
  cases hx : d.instr.memoryIndex with
  | none =>
    simp only [Option.elim_some, Machine.value, Machine.all, Option.elim_none, Option.bind_some,
      Option.map_some, BitVec.zero_mul, Option.isSome_none, Bool.false_eq_true, if_false]
  | some x =>
    obtain ⟨r', rfl⟩ := hindex x hx
    simp only [Option.elim_some, Machine.value, Machine.all, Option.bind_some, Option.map_some,
      Option.isSome_some, if_true]

theorem addressAt_dword_lt (instr : Instruction) (v : BitVec 64) :
    (addressAt instr .dword v).toNat < 2 ^ 32 := by
  rw [addressAt, BitVec.toNat_setWidth]
  exact lt_of_le_of_lt (Nat.mod_le _ _) (BitVec.isLt _)

theorem addressAt_qword (instr : Instruction) (v : BitVec 64) : addressAt instr .qword v =
    v + (if instr.memoryIndex.isSome then v * BitVec.ofNat 64 instr.memoryIndexScale else 0#64) +
      BitVec.ofFin instr.memoryDisplacement64 := by
  rw [addressAt]
  simp only [Part.offset, Part.width, readPart_qword, BitVec.setWidth_eq]
  change BitVec.setWidth 64 (BitVec.setWidth 64 _) = _
  rw [BitVec.setWidth_eq, BitVec.setWidth_eq]

/-- An address takes an offset from the whole of `rcx` when it is relative to the whole of it
alone. -/
theorem takesOffset_lea [Inhabited ρ] {p q : Part} (hname : d.mnemonic = "lea")
    (hjump : d.isJump = false)
    (hops : d.instr.operands = [.register (.general .rcx p), .memory])
    (hbase : d.instr.memoryBase = some (.general .rcx q)) (hq : q = .dword ∨ q = .qword)
    (hindex : ∀ x, d.instr.memoryIndex = some x →
      ∃ r', x = .general r' q ∧ d.instr.memoryIndexScale ∈ [1, 2, 4, 8])
    (hvalue : -asI64 d.instr.memoryDisplacement64 = n) (hn : 0 < n ∧ n ≤ 4096) :
    TakesOffset (step conditional other) d n ↔
      p = .qword ∧ q = .qword ∧ d.instr.memoryIndex = none := by
  have hdisp : BitVec.ofFin d.instr.memoryDisplacement64 = -BitVec.ofInt 64 n := by
    rw [← BitVec.ofInt_neg, ← hvalue, neg_neg, asI64, BitVec.ofInt_toInt]
  have hstep : ∀ (σ : Machine ρ) (a : BitVec 64), σ.effectiveAddress d.instr = some a →
      step conditional other d σ = .next (σ.setPart .rcx p (a.setWidth p.width)) := by
    intro σ a ha
    rw [step_lea hname hjump, stepLea, hops, ha]
  constructor
  · intro h
    have hrcx : ∀ v, X86.writePart p.offset v ((addressAt d.instr q v).setWidth p.width) =
        v - BitVec.ofInt 64 n := by
      intro v
      obtain ⟨σ', hnext, hregs, -, -⟩ := h (.all v)
      rw [hstep _ _ (effectiveAddress_rcx hbase fun x hx => (hindex x hx).imp fun _ => And.left)]
        at hnext
      obtain rfl := Exit.next.inj hnext
      have hrcx := congrFun hregs .rcx
      simp only [Machine.setPart, Machine.all, Function.update_self] at hrcx
      exact hrcx
    have hlarge := large_of_offset hn
    have hp : p = .qword := by
      by_contra hp
      have hsmall := writePart_zero_lt hp ((addressAt d.instr q 0#64).setWidth p.width)
      rw [hrcx] at hsmall
      exact absurd hlarge (Nat.not_le.mpr hsmall)
    subst hp
    have haddress : ∀ v, addressAt d.instr q v = v - BitVec.ofInt 64 n := by
      intro v
      have hv := hrcx v
      rw [X86.writePart_wide (by decide), BitVec.setWidth_setWidth_of_le _ (by decide)] at hv
      exact (BitVec.setWidth_eq _).symm.trans hv
    rcases hq with rfl | rfl
    · have hsmall := addressAt_dword_lt d.instr 0#64
      rw [haddress] at hsmall
      exact absurd hlarge (Nat.not_le.mpr hsmall)
    · refine ⟨rfl, rfl, ?_⟩
      cases hx : d.instr.memoryIndex with
      | none => rfl
      | some x =>
        have hone := haddress 1#64
        obtain ⟨-, -, hscale⟩ := hindex x hx
        rw [addressAt_qword, hx, Option.isSome_some, if_pos rfl, hdisp] at hone
        generalize BitVec.ofInt 64 n = offset at hone
        simp only [List.mem_cons, List.not_mem_nil, or_false] at hscale
        rcases hscale with h1 | h1 | h1 | h1 <;> rw [h1] at hone <;> bv_omega
  · rintro ⟨rfl, rfl, hnone⟩ σ
    have haddress : σ.effectiveAddress d.instr =
        some (σ.regs .rcx - BitVec.ofInt 64 n) := by
      have hwidth : addressWidth d.instr = 64 := by
        rw [addressWidth, hbase, hnone]
        rfl
      rw [Machine.effectiveAddress, hwidth, hbase, hnone, hdisp]
      simp only [Option.elim_some, Machine.value, Option.elim_none, Option.bind_some,
        Option.map_some, BitVec.zero_mul, BitVec.add_zero, BitVec.setWidth_eq, Part.offset,
        Part.width, readPart_qword, BitVec.sub_eq_add_neg]
    refine ⟨_, hstep σ _ haddress, ?_, rfl, rfl⟩
    simp only [Machine.setPart, Part.offset, Part.width, BitVec.setWidth_eq,
      X86.writePart_wide (show 32 ≤ 64 by decide)]

theorem takesOffset_iff [Inhabited ρ] (hvalid : ValidForm d)
    (hadjust : adjustment (fromIced d) = some n) (hn : 0 < n ∧ n ≤ 4096) :
    TakesOffset (step conditional other) d n ↔ Adjusts d := by
  rw [adjustment, fromIced_mnemonic] at hadjust
  split at hadjust
  · rename_i hname
    obtain ⟨hreg, hadjust⟩ := Option.ite_none_right_eq_some.mp hadjust
    obtain ⟨value, himm, hvalue⟩ := Option.map_eq_some_iff.mp hadjust
    obtain ⟨hjump, o, i, hops⟩ := hvalid.sub hname (by rw [himm]; rfl)
    obtain ⟨p, rest, hhead⟩ := rcx_of_writeReg hreg
    obtain ⟨rfl, rfl⟩ := List.cons.inj (hops.symm.trans hhead)
    have hbits : i.bits.toInt = n := by
      rw [fromIced, hops] at himm
      obtain rfl := Option.some.inj himm
      exact hvalue
    rw [takesOffset_sub hname hjump hops hbits hn, Adjusts, hops]
    simp
  · obtain ⟨hname, hadjust⟩ := Option.ite_none_right_eq_some.mp hadjust
    obtain ⟨⟨hreg, hbase⟩, hadjust⟩ := Option.ite_none_right_eq_some.mp hadjust
    obtain ⟨hjump, r, p, hops⟩ := hvalid.lea hname
    obtain ⟨p', rest, hhead⟩ := rcx_of_writeReg hreg
    obtain ⟨heq, rfl⟩ := List.cons.inj (hops.symm.trans hhead)
    cases heq
    obtain ⟨hmembase, hdisp⟩ := fromIced_memory hops
    rw [hmembase] at hbase
    obtain ⟨b, hb, hname'⟩ := Option.map_eq_some_iff.mp hbase
    obtain ⟨q, rfl⟩ := eq_rcx_of_normalize hname'
    rw [hdisp] at hadjust
    rw [takesOffset_lea hname hjump hops hb (hvalid.address _ _ hb) (hvalid.index _ _ · hb)
      (Option.some.inj hadjust) hn, Adjusts, hops, hb]
    simp

end Adjustments

section Thunks
variable {ρ : Type} {conditional : Decoded → Bool} {other : Decoded → Machine ρ → Exit ρ}
  {exec : Decoded → Machine ρ → Exit ρ} {d branch : Decoded} {σ σ' : Machine ρ}
  {between rest code : List Decoded} {info : AdjustorInfo} {target : Nat}

theorem leads_of_idle (hidle : ∀ d ∈ between, Idle exec d)
    (hjump : ∀ σ, exec branch σ = .jump target σ) :
    Leads exec target σ (between ++ branch :: rest) := by
  induction between generalizing σ with
  | nil => exact .inl ⟨σ, hjump σ, rfl, rfl, rfl⟩
  | cons d between ih =>
    obtain ⟨σ', hnext, hkeeps⟩ := hidle d List.mem_cons_self σ
    exact .inr ⟨σ', hnext, hkeeps, ih fun d hd => hidle d (List.mem_cons_of_mem _ hd)⟩

theorem step_jump (hdirect : isDirectJump d = true) (h : conditional d = false) :
    step conditional other d σ = .jump d.instr.nearBranchTarget σ := by
  rw [step, hdirect, h]
  rfl

/-- A jump that is not an unconditional direct one is an instruction of another kind. -/
theorem other_of_jump (h : conditional d = true) (hjump : step conditional other d σ =
    .jump target σ') : other d σ = .jump target σ' := by
  rw [step, h, Bool.not_true, Bool.and_false, if_neg Bool.false_ne_true] at hjump
  split at hjump
  · unfold stepSub at hjump
    split at hjump
    · cases hjump
    · exact hjump
  · split at hjump
    · unfold stepLea at hjump
      split at hjump
      · cases hjump
      · exact hjump
    · exact hjump

theorem fromIced_isDirectJump :
    ((fromIced d).isJump && (fromIced d).directTarget.isSome) = isDirectJump d := by
  have hjump : (fromIced d).isJump = d.isJump := congrArg (·.2.2.2.2.2.1) (fromIced_head (d := d))
  rw [hjump, fromIced_directTarget, branchTarget, isDirectJump]
  split <;> simp_all

/-- A slice that matches is an adjustment, instructions without direct jumps, and one with. -/
theorem matchThunkPattern_eq_some (h : matchThunkPattern (code.map fromIced) = some info) :
    ∃ adjust between branch rest, code = adjust :: (between ++ branch :: rest) ∧
      (∀ d ∈ between, isDirectJump d = false) ∧ isDirectJump branch = true ∧
      branch.instr.nearBranchTarget = info.realTargetVa ∧
      adjustment (fromIced adjust) = some info.offset ∧ 0 < info.offset ∧
      info.offset ≤ 4096 := by
  rw [matchThunkPattern] at h
  obtain ⟨-, h⟩ := Option.ite_none_left_eq_some.mp h
  obtain ⟨ins, hhead, h⟩ := Option.bind_eq_some_iff.mp h
  obtain ⟨jump, hjump, h⟩ := Option.bind_eq_some_iff.mp h
  obtain ⟨offset, hoffset, h⟩ := Option.bind_eq_some_iff.mp h
  obtain ⟨hbound, h⟩ := Option.ite_none_left_eq_some.mp h
  obtain ⟨target, htarget, rfl⟩ := Option.map_eq_some_iff.mp h
  cases code with
  | nil => cases hhead
  | cons adjust tail =>
    obtain rfl := Option.some.inj hhead
    rw [List.map_cons, List.tail_cons, List.find?_map, Option.map_eq_some_iff] at hjump
    obtain ⟨branch, hbranch, rfl⟩ := hjump
    obtain ⟨hdirect, between, rest, rfl, hno⟩ := List.find?_eq_some_iff_append.mp hbranch
    simp only [Function.comp_apply, fromIced_isDirectJump] at hdirect hno
    refine ⟨adjust, between, branch, rest, rfl, fun d hd => ?_, hdirect, ?_, hoffset, ?_⟩
    · simpa using hno d hd
    · rw [fromIced_directTarget, branchTarget] at htarget
      split at htarget
      · exact Option.some.inj htarget
      · cases htarget
    · push Not at hbound
      exact hbound

/-- What a slice that matches does, when a conditional jump may fall through. -/
theorem forwards_iff [Inhabited ρ] {adjust : Decoded} (hvalid : ValidForm adjust)
    (hfalls : ∀ d, conditional d = true → ∃ σ σ', other d σ = .next σ')
    (hbranch : isDirectJump branch = true)
    (htarget : branch.instr.nearBranchTarget = info.realTargetVa)
    (hadjust : adjustment (fromIced adjust) = some info.offset)
    (hoffset : 0 < info.offset ∧ info.offset ≤ 4096) :
    Forwards (step conditional other) info adjust between branch rest ↔
      Plain conditional (step conditional other) adjust between branch := by
  have htakes : TakesOffset (step conditional other) adjust info.offset ↔ Adjusts adjust :=
    takesOffset_iff hvalid hadjust hoffset
  constructor
  · intro h
    refine ⟨htakes.mp fun σ => ?_, h.idle, ?_⟩
    · obtain ⟨σ', hnext, hregs, hmem, hothers, -⟩ := h.reaches σ
      exact ⟨σ', hnext, hregs, hmem, hothers⟩
    · cases hcond : conditional branch with
      | false => rfl
      | true =>
        obtain ⟨σ, σ', hnext⟩ := hfalls branch hcond
        have hjump := other_of_jump hcond (h.unconditional σ)
        rw [hnext] at hjump
        cases hjump
  · intro h
    have hjump : ∀ σ, step conditional other branch σ = .jump info.realTargetVa σ := fun σ => by
      rw [step_jump hbranch h.unconditional, htarget]
    refine ⟨fun σ => ?_, hjump, h.idle, fun hmem => ?_, ?_⟩
    · obtain ⟨σ', hnext, hregs, hmem, hothers⟩ := htakes.mpr h.adjust σ
      exact ⟨σ', hnext, hregs, hmem, hothers, leads_of_idle h.idle hjump⟩
    · rcases h.adjust with ⟨i, hops⟩ | ⟨-, -, hindex⟩
      · rw [hops] at hmem
        simp at hmem
      · exact hindex
    · rcases h.adjust with ⟨i, hops⟩ | ⟨hops, -⟩
      · rw [hops, List.head?_cons]
      · rw [hops, List.head?_cons]

end Thunks

/-- Every entry of the map comes from a slice that matches, and what is said of such a slice is
true just for a plain thunk. -/
theorem detectAdjustorThunks_forwards_iff {ρ : Type} [Inhabited ρ] (functions : List FunctionRecord)
    (slices : List FunctionSemanticSlice) (code : List Decoded) (conditional : Decoded → Bool)
    (other : Decoded → Machine ρ → Exit ρ) (hvalid : ∀ d ∈ code, ValidForm d)
    (hfalls : ∀ d, conditional d = true → ∃ σ σ', other d σ = .next σ') :
    (∀ start info,
      (detectAdjustorThunks functions slices (code.map fromIced)).get start = some info →
        ∃ slice ∈ slices, thunkOf functions (code.map fromIced) slice = some (start, info)) ∧
    ∀ slice start info, thunkOf functions (code.map fromIced) slice = some (start, info) →
      ∃ adjust between branch rest, slice.part code = adjust :: (between ++ branch :: rest) ∧
        (∀ d ∈ between, isDirectJump d = false) ∧ isDirectJump branch = true ∧
        (Forwards (step conditional other) info adjust between branch rest ↔
          Plain conditional (step conditional other) adjust between branch) := by
  refine ⟨fun start info h => ?_, fun slice start info h => ?_⟩
  · exact List.mem_filterMap.mp (OrderedMap.mem_of_get_ofList h)
  · obtain ⟨function, -, h⟩ := Option.bind_eq_some_iff.mp h
    obtain ⟨-, h⟩ := Option.ite_none_left_eq_some.mp h
    obtain ⟨info', hmatch, heq⟩ := Option.map_eq_some_iff.mp h
    cases heq
    rw [slice.part_map] at hmatch
    obtain ⟨adjust, between, branch, rest, hcode, hno, hdirect, htarget, hadjust, hoffset⟩ :=
      matchThunkPattern_eq_some hmatch
    have hmem : adjust ∈ code := slice.mem_of_mem_part (hcode ▸ List.mem_cons_self)
    exact ⟨adjust, between, branch, rest, hcode, hno, hdirect,
      forwards_iff (hvalid adjust hmem) hfalls hdirect htarget hadjust hoffset⟩

/-- An instruction without a memory operand. -/
def plainInstr (ip : Nat) (operands : List Operand) (target : Nat) : Instruction where
  ip := ip
  len := 4
  operands := operands
  memoryBase := none
  memoryIndex := none
  memoryIndexScale := 1
  memoryDisplacement64 := 0
  memorySize := 0
  nearBranchTarget := target
  ipRelMemoryAddress := none

/-- `sub rcx, 8` or `sub ecx, 8`. -/
def subRcx (part : Part) : Decoded where
  instr := plainInstr 0x1000 [.register (.general .rcx part), .immediate ⟨8, 8#8, true⟩] 0
  mnemonic := "sub"
  isCall := false
  isJump := false

/-- A jump to `0x2000`. -/
def jumpTo (mnemonic : String) : Decoded where
  instr := plainInstr 0x1004 [.other] 0x2000
  mnemonic := mnemonic
  isCall := false
  isJump := true

def isConditional (d : Decoded) : Bool := (X86.conditionOf d.mnemonic).isSome

/-- Conditional jumps by their flags; other instructions do nothing. -/
def execOther (d : Decoded) (σ : Machine Unit) : Exit Unit :=
  if ((X86.conditionOf d.mnemonic).map (·.holds σ.flags)).getD false then
    .jump d.instr.nearBranchTarget σ
  else .next σ

theorem exists_falls (c : X86.Condition) : ∃ f, c.holds f = false := by
  cases c with
  | o | b | e | be | s | p | l | le => exact ⟨⟨false, false, false, false, false⟩, rfl⟩
  | no | ae | ne | a | ns | np | g => exact ⟨⟨true, true, true, true, true⟩, rfl⟩
  | ge => exact ⟨⟨false, false, true, false, false⟩, rfl⟩

theorem execOther_falls (d : Decoded) (h : isConditional d = true) :
    ∃ σ σ', execOther d σ = .next σ' := by
  obtain ⟨c, hc⟩ := Option.isSome_iff_exists.mp h
  obtain ⟨f, hf⟩ := exists_falls c
  have hstep : execOther d ⟨fun _ => 0, fun _ => 0, f, ()⟩ =
      .next ⟨fun _ => 0, fun _ => 0, f, ()⟩ := by
    rw [execOther, hc, Option.map_some, hf]
    rfl
  exact ⟨_, _, hstep⟩

theorem validForm_subRcx (part : Part) : ValidForm (subRcx part) where
  sub := fun _ _ => ⟨rfl, _, _, rfl⟩
  lea := fun h => absurd h (by simp [subRcx])
  index := fun r p x h => absurd h (by simp [subRcx, plainInstr])
  address := fun r p h => absurd h (by simp [subRcx, plainInstr])

theorem validForm_jump : ValidForm (jumpTo "jmp") where
  sub := fun h => absurd h (by decide)
  lea := fun h => absurd h (by decide)
  index := fun r p x h => absurd h (by simp [jumpTo, plainInstr])
  address := fun r p h => absurd h (by simp [jumpTo, plainInstr])

def thunkFunction : FunctionRecord where
  start := 0x1000
  stop := 0x1008
  size := 8
  source := "test"
  calls := []
  ordered := by decide

def thunkSlice : FunctionSemanticSlice :=
  ⟨0, thunkFunction.start, thunkFunction.stop, (0, 2), (0, 2), (0, 0), none, false, false⟩

/-- The thunk `sub rcx, 8; jmp 0x2000`. -/
theorem forwards_subRcx : Forwards (step isConditional execOther) ⟨0x2000, 8⟩ (subRcx .qword) []
    (jumpTo "jmp") [] := by
  obtain ⟨adjust, between, branch, rest, hcode, -, -, hiff⟩ :=
    (detectAdjustorThunks_forwards_iff [thunkFunction] [thunkSlice] [subRcx .qword, jumpTo "jmp"]
      isConditional execOther (by
        intro d hd
        rcases List.mem_pair.mp hd with rfl | rfl
        · exact validForm_subRcx _
        · exact validForm_jump) execOther_falls).2 thunkSlice 0x1000 ⟨0x2000, 8⟩ (by decide +kernel)
  obtain ⟨rfl, htail⟩ := List.cons.inj hcode
  cases between with
  | nil =>
    obtain ⟨rfl, rfl⟩ := List.cons.inj htail
    exact hiff.mpr ⟨.inl ⟨_, rfl⟩, fun d hd => absurd hd List.not_mem_nil, by decide⟩
  | cons d between =>
    have hlength := congrArg List.length htail
    simp at hlength

/-- The slice `sub rcx, 8; jne 0x2000` matches, and it falls through where `rcx` is eight. -/
theorem conditional_matches :
    thunkOf [thunkFunction] ([subRcx .qword, jumpTo "jne"].map fromIced) thunkSlice =
      some (0x1000, ⟨0x2000, 8⟩) ∧
    ¬ Forwards (step isConditional execOther) ⟨0x2000, 8⟩ (subRcx .qword) [] (jumpTo "jne") [] := by
  refine ⟨by decide +kernel, fun h => ?_⟩
  obtain ⟨σ', hnext, -, -, -, hleads⟩ := h.reaches (.all 8)
  obtain rfl := Exit.next.inj hnext
  rcases hleads with ⟨σ'', hjump, -⟩ | ⟨σ'', -, -, hnone⟩
  · cases hjump
  · exact hnone

end Axe.Cpp.Thunks
