import Axe.Lib.BitFields
import Axe.Lib.Journal

/-!
# Breakpoints

A hardware breakpoint is kept in the debug registers of a thread, a soft one is a trap in the
memory of the target. The system may refuse each call that the code makes of it; what its calls
on threads do is a parameter.
-/
namespace Axe.Unpack.Breakpoints

inductive HwSlot
  | dr0 | dr1 | dr2 | dr3
  deriving DecidableEq

def HwSlot.index : HwSlot → Nat
  | .dr0 => 0
  | .dr1 => 1
  | .dr2 => 2
  | .dr3 => 3

inductive HwBreakpointKind
  | execute | write | readWrite
  deriving DecidableEq

def HwBreakpointKind.rwBits : HwBreakpointKind → BitVec 2
  | .execute => 0b00
  | .write => 0b01
  | .readWrite => 0b11

inductive HwBreakpointSize
  | one | two | four | eight
  deriving DecidableEq

def HwBreakpointSize.lenBits : HwBreakpointSize → BitVec 2
  | .one => 0b00
  | .two => 0b01
  | .eight => 0b10
  | .four => 0b11

structure HwBreakpoint where
  slot : HwSlot
  address : BitVec 64
  kind : HwBreakpointKind
  size : HwBreakpointSize
  deriving DecidableEq

/-- The registers of a thread that breakpoints are about. -/
structure Context where
  dr : HwSlot → BitVec 64
  dr7 : BitVec 64
  eFlags : BitVec 32

def setDrAddress (ctx : Context) (slot : HwSlot) (address : BitVec 64) : Context :=
  { ctx with dr := Function.update ctx.dr slot address }

def rwShift (slot : HwSlot) : Nat := 16 + slot.index * 4

def lenShift (slot : HwSlot) : Nat := 18 + slot.index * 4

def maskRw (slot : HwSlot) : BitVec 64 := 0b11 <<< rwShift slot

def maskLen (slot : HwSlot) : BitVec 64 := 0b11 <<< lenShift slot

def localEnableBit (slot : HwSlot) : BitVec 64 := 1 <<< (slot.index * 2)

def globalEnableBit (slot : HwSlot) : BitVec 64 := 1 <<< (slot.index * 2 + 1)

def dr7EnableSlot (ctx : Context) (slot : HwSlot) (kind : HwBreakpointKind)
    (size : HwBreakpointSize) : Context :=
  let enabled := ctx.dr7 ||| localEnableBit slot
  let kept := (enabled &&& ~~~ maskRw slot) ||| (kind.rwBits.setWidth 64 <<< rwShift slot)
  { ctx with dr7 := (kept &&& ~~~ maskLen slot) ||| (size.lenBits.setWidth 64 <<< lenShift slot) }

def dr7DisableSlot (ctx : Context) (slot : HwSlot) : Context :=
  let disabled := ctx.dr7 &&& ~~~ (localEnableBit slot ||| globalEnableBit slot)
  { ctx with dr7 := (disabled &&& ~~~ maskRw slot) &&& ~~~ maskLen slot }

structure Thread where
  context : Context
  suspendCount : Nat

/-- Which calls the system carries out, and what it says of one that failed. -/
structure Answers where
  suspends : Bool
  getsContext : Bool
  setsContext : Bool
  resumes : Bool
  osError : String

/-- The calls of the system that are carried out: what two of them make of the suspend count, the
context that one fills in from the registers of a thread, and the registers after another is given
a context. The flag of the last two asks for the debug registers or for the control registers. -/
structure ThreadCalls where
  suspendThread : Nat → Nat
  resumeThread : Nat → Nat
  getThreadContext : Bool → Context → Context
  setThreadContext : Bool → Context → Context → Context

section
variable (calls : ThreadCalls) (answers : Answers)

def Thread.resume (thread : Thread) : Thread :=
  if answers.resumes then { thread with suspendCount := calls.resumeThread thread.suspendCount }
  else thread

def withThreadContext (withDrFlag : Bool) (mutate : Context → Except String Context)
    (thread : Thread) : Thread × Except String Unit :=
  if !answers.suspends then (thread, .error ("SuspendThread failed: " ++ answers.osError))
  else
    let suspended := { thread with suspendCount := calls.suspendThread thread.suspendCount }
    if !answers.getsContext then
      (suspended.resume calls answers, .error ("GetThreadContext failed: " ++ answers.osError))
    else
      match mutate (calls.getThreadContext withDrFlag suspended.context) with
      | .error e => (suspended.resume calls answers, .error e)
      | .ok ctx =>
        if !answers.setsContext then
          (suspended.resume calls answers, .error ("SetThreadContext failed: " ++ answers.osError))
        else
          let changed :=
            { suspended with context := calls.setThreadContext withDrFlag suspended.context ctx }
          (changed.resume calls answers,
            if answers.resumes then .ok ()
            else .error ("ResumeThread failed after context set: " ++ answers.osError))

namespace HwBreakpoint

def install (b : HwBreakpoint) (thread : Thread) : Thread × Except String HwBreakpoint :=
  if b.kind = .execute ∧ b.size ≠ .one then
    (thread, .error "Execute HW breakpoints require size=One")
  else
    let (thread, result) := withThreadContext calls answers true
      (fun ctx => .ok (dr7EnableSlot (setDrAddress ctx b.slot b.address) b.slot b.kind b.size))
      thread
    (thread, result.map fun _ => b)

def clear (slot : HwSlot) (thread : Thread) : Thread × Except String Unit :=
  withThreadContext calls answers true
    (fun ctx => .ok (dr7DisableSlot (setDrAddress ctx slot 0) slot)) thread

end HwBreakpoint

def setTrapFlag (thread : Thread) : Thread × Except String Unit :=
  withThreadContext calls answers false
    (fun ctx => .ok { ctx with eFlags := ctx.eFlags ||| 0x100 }) thread

def clearTrapFlag (thread : Thread) : Thread × Except String Unit :=
  withThreadContext calls answers false
    (fun ctx => .ok { ctx with eFlags := ctx.eFlags &&& ~~~ 0x100 }) thread

end

/-- What the debugger asks for. -/
inductive Request
  | install (b : HwBreakpoint)
  | clear (slot : HwSlot)
  | setTrapFlag
  | clearTrapFlag

def Request.perform (calls : ThreadCalls) (answers : Answers) (thread : Thread) :
    Request → Thread × Except String Unit
  | .install b =>
    let (thread, result) := b.install calls answers thread
    (thread, result.map fun _ => ())
  | .clear slot => HwBreakpoint.clear calls answers slot thread
  | .setTrapFlag => Breakpoints.setTrapFlag calls answers thread
  | .clearTrapFlag => Breakpoints.clearTrapFlag calls answers thread

/-- The requests are made one after the other. -/
def session (calls : ThreadCalls) (thread : Thread) :
    List (Answers × Request) → Thread × List (Except String Unit)
  | [] => (thread, [])
  | (answers, request) :: rest =>
    let (thread, result) := request.perform calls answers thread
    let (thread, results) := session calls thread rest
    (thread, result :: results)

/-- Suspensions are counted, and the flag of the calls on contexts selects the registers that they
are about. -/
structure Documented (calls : ThreadCalls) : Prop where
  suspends : ∀ count, calls.suspendThread count = count + 1
  resumes : ∀ count, calls.resumeThread (count + 1) = count
  getsDebug : ∀ ctx, (calls.getThreadContext true ctx).dr = ctx.dr ∧
    (calls.getThreadContext true ctx).dr7 = ctx.dr7
  getsControl : ∀ ctx, (calls.getThreadContext false ctx).eFlags = ctx.eFlags
  setsDebug : ∀ old new,
    calls.setThreadContext true old new = { old with dr := new.dr, dr7 := new.dr7 }
  setsControl : ∀ old new, calls.setThreadContext false old new = { old with eFlags := new.eFlags }

/-- The breakpoints of the four slots, and whether the thread takes single steps. -/
structure Watches where
  slots : HwSlot → Option HwBreakpoint
  stepping : Bool

def kindOf (bits : BitVec 2) : Option HwBreakpointKind :=
  if bits = 0b00 then some .execute
  else if bits = 0b01 then some .write
  else if bits = 0b11 then some .readWrite
  else none

def sizeOf (bits : BitVec 2) : HwBreakpointSize :=
  if bits = 0b00 then .one
  else if bits = 0b01 then .two
  else if bits = 0b10 then .eight
  else .four

/-- A slot is enabled by its local or its global bit. -/
def watchOf (slot : HwSlot) (address : BitVec 64) (enable rw len : BitVec 2) :
    Option HwBreakpoint :=
  if enable = 0#2 then none
  else (kindOf rw).map fun kind => ⟨slot, address, kind, sizeOf len⟩

/-- What the processor reads from the registers. -/
def watches (ctx : Context) : Watches where
  slots slot :=
    watchOf slot (ctx.dr slot) (BitFields.get ctx.dr7 (slot.index * 2) 2)
      (BitFields.get ctx.dr7 (rwShift slot) 2) (BitFields.get ctx.dr7 (lenShift slot) 2)
  stepping := ctx.eFlags.getLsbD 8

def Watches.apply (w : Watches) : Request → Watches
  | .install b => { w with slots := Function.update w.slots b.slot (some b) }
  | .clear slot => { w with slots := Function.update w.slots slot none }
  | .setTrapFlag => { w with stepping := true }
  | .clearTrapFlag => { w with stepping := false }

/-- The slot that a request is about. -/
def Request.slot : Request → Option HwSlot
  | .install b => some b.slot
  | .clear slot => some slot
  | .setTrapFlag | .clearTrapFlag => none

def Request.valid : Request → Bool
  | .install b => b.kind ≠ .execute || b.size = .one
  | _ => true

/-- The registers are written. -/
def takesEffect (step : Answers × Request) : Bool :=
  step.2.valid && step.1.suspends && step.1.getsContext && step.1.setsContext

/-- The thread is left suspended. -/
def leavesSuspended (step : Answers × Request) : Bool :=
  step.2.valid && step.1.suspends && !step.1.resumes

variable {ctx : Context} {slot other : HwSlot} {kind : HwBreakpointKind} {size : HwBreakpointSize}
  {calls : ThreadCalls} {answers : Answers} {thread : Thread} {request : Request}

theorem maskRw_eq (slot : HwSlot) : maskRw slot = BitFields.mask 64 (rwShift slot) 2 := by
  cases slot <;> decide

theorem maskLen_eq (slot : HwSlot) : maskLen slot = BitFields.mask 64 (lenShift slot) 2 := by
  cases slot <;> decide

theorem dr7_dr7EnableSlot :
    (dr7EnableSlot ctx slot kind size).dr7 =
      BitFields.put (BitFields.put (BitFields.put ctx.dr7 (slot.index * 2) (BitVec.allOnes 1))
        (rwShift slot) kind.rwBits) (lenShift slot) size.lenBits := by
  have hlocal : localEnableBit slot =
      (BitVec.allOnes 1).setWidth 64 <<< (slot.index * 2) := by cases slot <;> decide
  rw [dr7EnableSlot, hlocal, BitFields.or_eq_put, maskRw_eq, maskLen_eq, ← BitFields.put,
    ← BitFields.put]

theorem dr7_dr7DisableSlot :
    (dr7DisableSlot ctx slot).dr7 =
      BitFields.put (BitFields.put (BitFields.put ctx.dr7 (slot.index * 2) 0#2) (rwShift slot)
        0#2) (lenShift slot) 0#2 := by
  have hbits : localEnableBit slot ||| globalEnableBit slot =
      BitFields.mask 64 (slot.index * 2) 2 := by cases slot <;> decide
  rw [dr7DisableSlot, hbits, maskRw_eq, maskLen_eq, BitFields.and_not_eq_put,
    BitFields.and_not_eq_put, BitFields.and_not_eq_put]

theorem index_lt (slot : HwSlot) : slot.index < 4 := by cases slot <;> decide

theorem index_ne (h : slot ≠ other) : slot.index ≠ other.index := by
  intro heq
  cases slot <;> cases other <;> first | exact h rfl | cases heq

theorem kindOf_rwBits (kind : HwBreakpointKind) : kindOf kind.rwBits = some kind := by
  cases kind <;> decide

theorem sizeOf_lenBits (size : HwBreakpointSize) : sizeOf size.lenBits = size := by
  cases size <;> decide

/-- Writing the fields of a slot leaves those of another one. -/
theorem fields_of_ne (h : slot ≠ other) {x : BitVec 64} {w : Nat} (hw : w ≤ 2) (enable : BitVec w)
    (rw len : BitVec 2) :
    let y := BitFields.put (BitFields.put (BitFields.put x (slot.index * 2) enable)
      (rwShift slot) rw) (lenShift slot) len
    BitFields.get y (other.index * 2) 2 = BitFields.get x (other.index * 2) 2 ∧
      BitFields.get y (rwShift other) 2 = BitFields.get x (rwShift other) 2 ∧
      BitFields.get y (lenShift other) 2 = BitFields.get x (lenShift other) 2 := by
  have hne := index_ne h
  have hslot := index_lt slot
  have hother := index_lt other
  refine ⟨?_, ?_, ?_⟩ <;>
    rw [BitFields.get_put_of_apart, BitFields.get_put_of_apart, BitFields.get_put_of_apart] <;>
    simp only [BitFields.Apart, rwShift, lenShift] <;> omega

theorem slots_enable (address : BitVec 64) :
    (watches (dr7EnableSlot (setDrAddress ctx slot address) slot kind size)).slots =
      Function.update (watches ctx).slots slot (some ⟨slot, address, kind, size⟩) := by
  have hindex := index_lt slot
  funext other
  by_cases h : other = slot
  · subst h
    have henabled : BitFields.get (dr7EnableSlot (setDrAddress ctx other address) other kind
        size).dr7 (other.index * 2) 2 ≠ 0#2 := by
      rw [Ne, BitFields.get_eq_zero_iff, dr7_dr7EnableSlot]
      intro hbits
      have hbit := hbits (other.index * 2) (Nat.le_refl _) (by omega)
      rw [BitFields.getLsbD_put, if_neg (by rw [lenShift]; omega), BitFields.getLsbD_put,
        if_neg (by rw [rwShift]; omega), BitFields.getLsbD_put, if_pos (by omega), Nat.sub_self,
        decide_eq_true (by omega)] at hbit
      cases hbit
    have hrw : BitFields.get (dr7EnableSlot (setDrAddress ctx other address) other kind size).dr7
        (rwShift other) 2 = kind.rwBits := by
      rw [dr7_dr7EnableSlot, BitFields.get_put_of_apart (by
        simp only [BitFields.Apart, rwShift, lenShift]; omega), BitFields.get_put]
      rw [rwShift]
      omega
    have hlen : BitFields.get (dr7EnableSlot (setDrAddress ctx other address) other kind size).dr7
        (lenShift other) 2 = size.lenBits := by
      rw [dr7_dr7EnableSlot, BitFields.get_put]
      rw [lenShift]
      omega
    rw [Function.update_self, watches]
    dsimp only
    rw [hrw, hlen, watchOf, if_neg henabled, kindOf_rwBits, sizeOf_lenBits, Option.map_some]
    simp only [dr7EnableSlot, setDrAddress, Function.update_self]
  · obtain ⟨henabled, hrw, hlen⟩ := fields_of_ne (Ne.symm h) (x := ctx.dr7) (w := 1) (by decide)
      (BitVec.allOnes 1) kind.rwBits size.lenBits
    rw [Function.update_of_ne h, watches, watches, dr7_dr7EnableSlot]
    dsimp only [setDrAddress]
    rw [henabled, hrw, hlen]
    simp only [dr7EnableSlot, Function.update_of_ne h]

theorem slots_disable :
    (watches (dr7DisableSlot (setDrAddress ctx slot 0) slot)).slots =
      Function.update (watches ctx).slots slot none := by
  have hindex := index_lt slot
  funext other
  by_cases h : other = slot
  · subst h
    have hdisabled : BitFields.get (dr7DisableSlot (setDrAddress ctx other 0) other).dr7
        (other.index * 2) 2 = 0#2 := by
      rw [dr7_dr7DisableSlot, BitFields.get_put_of_apart, BitFields.get_put_of_apart,
        BitFields.get_put (by omega)]
      all_goals
        simp only [BitFields.Apart, rwShift, lenShift]
        omega
    rw [Function.update_self, watches]
    dsimp only
    rw [hdisabled, watchOf, if_pos rfl]
  · obtain ⟨henabled, hrw, hlen⟩ := fields_of_ne (Ne.symm h) (x := ctx.dr7) (w := 2) (by decide)
      0#2 0#2 0#2
    rw [Function.update_of_ne h, watches, watches, dr7_dr7DisableSlot]
    dsimp only [setDrAddress]
    rw [henabled, hrw, hlen]
    simp only [dr7DisableSlot, Function.update_of_ne h]

/-- What a request writes when the system lets it. -/
def Request.write (ctx : Context) : Request → Context
  | .install b => dr7EnableSlot (setDrAddress ctx b.slot b.address) b.slot b.kind b.size
  | .clear slot => dr7DisableSlot (setDrAddress ctx slot 0) slot
  | .setTrapFlag => { ctx with eFlags := ctx.eFlags ||| 0x100 }
  | .clearTrapFlag => { ctx with eFlags := ctx.eFlags &&& ~~~ 0x100 }

/-- The bit of the control register is one of the slot. -/
def HwSlot.Owns (slot : HwSlot) (i : Nat) : Prop :=
  slot.index * 2 ≤ i ∧ i < slot.index * 2 + 2 ∨ rwShift slot ≤ i ∧ i < lenShift slot + 2

/-- What belongs to none of some slots and is not the trap flag is the same. -/
structure SameRest (touched : List HwSlot) (old new : Context) : Prop where
  dr : ∀ slot, slot ∉ touched → new.dr slot = old.dr slot
  dr7 : ∀ i, (∀ slot ∈ touched, ¬ slot.Owns i) → new.dr7.getLsbD i = old.dr7.getLsbD i
  eFlags : ∀ i, i ≠ 8 → new.eFlags.getLsbD i = old.eFlags.getLsbD i

theorem SameRest.refl (ctx : Context) : SameRest [] ctx ctx :=
  ⟨fun _ _ => rfl, fun _ _ => rfl, fun _ _ => rfl⟩

theorem SameRest.trans {a b c : Context} {touched touched' : List HwSlot}
    (h : SameRest touched a b) (h' : SameRest touched' b c) :
    SameRest (touched ++ touched') a c where
  dr slot hslot := by
    rw [List.mem_append, not_or] at hslot
    exact (h'.dr slot hslot.2).trans (h.dr slot hslot.1)
  dr7 i hi := (h'.dr7 i fun slot hslot => hi slot (List.mem_append_right _ hslot)).trans
    (h.dr7 i fun slot hslot => hi slot (List.mem_append_left _ hslot))
  eFlags i hi := (h'.eFlags i hi).trans (h.eFlags i hi)

theorem getLsbD_fields {x : BitVec 64} {w i : Nat} (hw : w ≤ 2) (enable : BitVec w)
    (rw len : BitVec 2) (hi : ¬ slot.Owns i) :
    (BitFields.put (BitFields.put (BitFields.put x (slot.index * 2) enable) (rwShift slot) rw)
      (lenShift slot) len).getLsbD i = x.getLsbD i := by
  rw [HwSlot.Owns, lenShift, rwShift] at hi
  rw [BitFields.getLsbD_put, if_neg (by rw [lenShift]; omega), BitFields.getLsbD_put,
    if_neg (by rw [rwShift]; omega), BitFields.getLsbD_put, if_neg (by omega)]

theorem trapBit (i : Nat) : (0x100 : BitVec 32).getLsbD i = decide (i = 8) := by
  by_cases hi : i < 32
  · have hall : ∀ j : Fin 32, (0x100 : BitVec 32).getLsbD j = decide (j.val = 8) := by decide
    exact hall ⟨i, hi⟩
  · rw [BitVec.getLsbD_of_ge _ _ (by omega), decide_eq_false (by omega)]

theorem write_watches : watches (request.write ctx) = (watches ctx).apply request := by
  cases request with
  | install b => exact congrArg (Watches.mk · _) (slots_enable b.address)
  | clear slot => exact congrArg (Watches.mk · _) slots_disable
  | setTrapFlag =>
    refine congrArg (Watches.mk _) ?_
    rw [Request.write, BitVec.getLsbD_or, trapBit, decide_eq_true rfl, Bool.or_true]
  | clearTrapFlag =>
    refine congrArg (Watches.mk _) ?_
    rw [Request.write, BitVec.getLsbD_and, BitVec.getLsbD_not, trapBit, decide_eq_true rfl,
      Bool.not_true, Bool.and_false, Bool.and_false]

theorem write_rest (ctx : Context) (request : Request) :
    SameRest request.slot.toList ctx (request.write ctx) := by
  cases request with
  | install b =>
    refine ⟨fun slot hslot => ?_, fun i hi => ?_, fun i hi => rfl⟩
    · exact Function.update_of_ne (fun h => hslot (List.mem_singleton.mpr h)) _ _
    · rw [Request.write, dr7_dr7EnableSlot]
      exact getLsbD_fields (by decide) _ _ _ (hi b.slot (List.mem_singleton_self _))
  | clear slot =>
    refine ⟨fun other hother => ?_, fun i hi => ?_, fun i hi => rfl⟩
    · exact Function.update_of_ne (fun h => hother (List.mem_singleton.mpr h)) _ _
    · rw [Request.write, dr7_dr7DisableSlot]
      exact getLsbD_fields (by decide) _ _ _ (hi slot (List.mem_singleton_self _))
  | setTrapFlag =>
    refine ⟨fun slot _ => rfl, fun i _ => rfl, fun i hi => ?_⟩
    rw [Request.write, BitVec.getLsbD_or, trapBit, decide_eq_false hi, Bool.or_false]
  | clearTrapFlag =>
    refine ⟨fun slot _ => rfl, fun i _ => rfl, fun i hi => ?_⟩
    by_cases hlt : i < 32
    · rw [Request.write, BitVec.getLsbD_and, BitVec.getLsbD_not, trapBit, decide_eq_false hi,
        decide_eq_true hlt, Bool.not_false, Bool.true_and, Bool.and_true]
    · rw [BitVec.getLsbD_of_ge _ _ (by omega), BitVec.getLsbD_of_ge _ _ (by omega)]

/-- Whatever the system answers, the context is changed as a whole or not at all, and a thread
stays suspended only where it was not resumed. -/
theorem withThreadContext_spec (hcalls : Documented calls) {flag : Bool}
    {change : Context → Context} {mutate : Context → Except String Context}
    (hmutate : ∀ ctx, mutate ctx = .ok (change ctx)) :
    (withThreadContext calls answers flag mutate thread).1 =
        ⟨if answers.suspends && answers.getsContext && answers.setsContext then
            calls.setThreadContext flag thread.context
              (change (calls.getThreadContext flag thread.context))
          else thread.context,
          thread.suspendCount + if answers.suspends && !answers.resumes then 1 else 0⟩ ∧
      (withThreadContext calls answers flag mutate thread).2.isOk =
        (answers.suspends && answers.getsContext && answers.setsContext && answers.resumes) := by
  obtain ⟨suspends, getsContext, setsContext, resumes, osError⟩ := answers
  cases suspends <;> cases getsContext <;> cases setsContext <;> cases resumes <;>
    simp [withThreadContext, hmutate, Thread.resume, Except.isOk, Except.toBool, hcalls.suspends,
      hcalls.resumes]

/-- A change of the debug registers is written to the thread. -/
theorem setThreadContext_debug (hcalls : Documented calls) (change : Context → Context)
    (hchange : ∀ a b : Context, a.dr = b.dr → a.dr7 = b.dr7 →
      (change a).dr = (change b).dr ∧ (change a).dr7 = (change b).dr7)
    (hkeep : ∀ a, (change a).eFlags = a.eFlags) (ctx : Context) :
    calls.setThreadContext true ctx (change (calls.getThreadContext true ctx)) = change ctx := by
  obtain ⟨hdr, hdr7⟩ := hcalls.getsDebug ctx
  obtain ⟨hdr', hdr7'⟩ := hchange _ _ hdr hdr7
  rw [hcalls.setsDebug, hdr', hdr7', ← hkeep ctx]

theorem setThreadContext_control (hcalls : Documented calls) (change : BitVec 32 → BitVec 32)
    (ctx : Context) :
    calls.setThreadContext false ctx
        { calls.getThreadContext false ctx with
          eFlags := change (calls.getThreadContext false ctx).eFlags } =
      { ctx with eFlags := change ctx.eFlags } := by
  rw [hcalls.setsControl, hcalls.getsControl]

theorem isOk_map {α β : Type} (f : α → β) (result : Except String α) :
    (result.map f).isOk = result.isOk := by
  cases result <;> rfl

theorem perform_spec (hcalls : Documented calls) (answers : Answers) (thread : Thread)
    (request : Request) :
    (request.perform calls answers thread).1 =
        ⟨if takesEffect (answers, request) then request.write thread.context else thread.context,
          thread.suspendCount + if leavesSuspended (answers, request) then 1 else 0⟩ ∧
      (request.perform calls answers thread).2.isOk =
        (takesEffect (answers, request) && answers.resumes) := by
  cases request with
  | install b =>
    rw [Request.perform, HwBreakpoint.install]
    by_cases hbad : b.kind = .execute ∧ b.size ≠ .one
    · have hvalid : (Request.install b).valid = false := by
        simp only [Request.valid, hbad.1, hbad.2, ne_eq, not_true_eq_false, decide_false,
          Bool.or_self]
      rw [if_pos hbad, takesEffect, leavesSuspended, hvalid]
      exact ⟨rfl, rfl⟩
    · have hvalid : (Request.install b).valid = true := by
        by_cases hkind : b.kind = .execute
        · have hsize : b.size = .one := not_not.mp fun h => hbad ⟨hkind, h⟩
          simp [Request.valid, hsize]
        · simp [Request.valid, hkind]
      have hspec := @withThreadContext_spec calls answers thread hcalls true
        (fun ctx => (Request.install b).write ctx) _ fun _ => rfl
      rw [setThreadContext_debug hcalls (fun ctx => (Request.install b).write ctx)
        (fun a c hdr hdr7 => by
          simp only [Request.write, dr7EnableSlot, setDrAddress, hdr, hdr7, and_self])
        fun _ => rfl] at hspec
      rw [if_neg hbad, takesEffect, leavesSuspended, hvalid]
      exact ⟨hspec.1, ((isOk_map _ _).trans (isOk_map _ _)).trans hspec.2⟩
  | clear slot =>
    have hspec := @withThreadContext_spec calls answers thread hcalls true
      (fun ctx => (Request.clear slot).write ctx) _ fun _ => rfl
    rw [setThreadContext_debug hcalls (fun ctx => (Request.clear slot).write ctx)
      (fun a c hdr hdr7 => by
        simp only [Request.write, dr7DisableSlot, setDrAddress, hdr, hdr7, and_self])
      fun _ => rfl] at hspec
    exact hspec
  | setTrapFlag =>
    have hspec := @withThreadContext_spec calls answers thread hcalls false
      (fun ctx => { ctx with eFlags := ctx.eFlags ||| 0x100 }) _ fun _ => rfl
    rw [setThreadContext_control hcalls (· ||| 0x100)] at hspec
    exact hspec
  | clearTrapFlag =>
    have hspec := @withThreadContext_spec calls answers thread hcalls false
      (fun ctx => { ctx with eFlags := ctx.eFlags &&& ~~~ 0x100 }) _ fun _ => rfl
    rw [setThreadContext_control hcalls (· &&& ~~~ 0x100)] at hspec
    exact hspec

/-- What a session leaves of a thread, and which of its requests succeed. -/
structure SessionSpec (thread : Thread) (steps : List (Answers × Request))
    (r : Thread × List (Except String Unit)) : Prop where
  watches : watches r.1.context =
    (steps.filter takesEffect).foldl (fun w step => w.apply step.2) (watches thread.context)
  rest : SameRest ((steps.filter takesEffect).flatMap fun step => step.2.slot.toList)
    thread.context r.1.context
  suspended : r.1.suspendCount = thread.suspendCount + steps.countP leavesSuspended
  results : r.2.map Except.isOk = steps.map fun step => takesEffect step && step.1.resumes

/-- The registers decode to the breakpoints that were asked for last and written, whichever calls
the system refuses on the way. -/
theorem session_refines (calls : ThreadCalls) (hcalls : Documented calls) (thread : Thread)
    (steps : List (Answers × Request)) :
    SessionSpec thread steps (session calls thread steps) := by
  induction steps generalizing thread with
  | nil => exact ⟨rfl, .refl _, rfl, rfl⟩
  | cons step steps ih =>
    obtain ⟨answers, request⟩ := step
    obtain ⟨hthread, hok⟩ := perform_spec hcalls answers thread request
    have hrest := ih (request.perform calls answers thread).1
    rw [hthread] at hrest
    rw [session]
    dsimp only
    rw [hthread]
    by_cases heffect : takesEffect (answers, request) = true
    · rw [if_pos heffect] at hrest ⊢
      refine ⟨?_, ?_, ?_, ?_⟩
      · rw [hrest.watches, write_watches, List.filter_cons_of_pos heffect, List.foldl_cons]
      · rw [List.filter_cons_of_pos heffect, List.flatMap_cons]
        exact (write_rest _ _).trans hrest.rest
      · rw [hrest.suspended, List.countP_cons, Nat.add_assoc,
          Nat.add_comm (List.countP leavesSuspended steps)]
      · rw [List.map_cons, List.map_cons, hok, hrest.results]
    · rw [if_neg heffect] at hrest ⊢
      refine ⟨?_, ?_, ?_, ?_⟩
      · rw [hrest.watches, List.filter_cons_of_neg heffect]
      · rw [List.filter_cons_of_neg heffect]
        exact hrest.rest
      · rw [hrest.suspended, List.countP_cons, Nat.add_assoc,
          Nat.add_comm (List.countP leavesSuspended steps)]
      · rw [List.map_cons, List.map_cons, hok, hrest.results]

/-- The calls as the system documents them: what a flag does not ask for is left empty. -/
def windowsCalls : ThreadCalls where
  suspendThread count := count + 1
  resumeThread count := count - 1
  getThreadContext
    | true, ctx => { ctx with eFlags := 0 }
    | false, ctx => { dr := fun _ => 0, dr7 := 0, eFlags := ctx.eFlags }
  setThreadContext
    | true, old, new => { new with eFlags := old.eFlags }
    | false, old, new => { old with eFlags := new.eFlags }

/-- A breakpoint is set, a step whose thread is not resumed is asked for, then a clearing that the
system refuses and a breakpoint that it would refuse. -/
def refusedSteps : List (Answers × Request) :=
  [(⟨true, true, true, true, "5"⟩, .install ⟨.dr1, 0x401000, .write, .four⟩),
    (⟨true, true, true, false, "5"⟩, .setTrapFlag),
    (⟨true, false, true, true, "5"⟩, .clear .dr1),
    (⟨true, true, true, true, "5"⟩, .install ⟨.dr2, 0x402000, .execute, .two⟩)]

theorem session_refines_refusedSteps :
    let r := session windowsCalls ⟨⟨fun _ => 0, 0x400, 0x246⟩, 0⟩ refusedSteps
    SessionSpec ⟨⟨fun _ => 0, 0x400, 0x246⟩, 0⟩ refusedSteps r ∧
      r.1.context.dr7 = 0xD00404 ∧ r.1.context.eFlags = 0x346 ∧ r.1.suspendCount = 1 ∧
      r.2.map Except.isOk = [true, false, false, false] :=
  ⟨session_refines _
    ⟨fun _ => rfl, fun _ => rfl, fun _ => ⟨rfl, rfl⟩, fun _ => rfl, fun _ _ => rfl,
      fun _ _ => rfl⟩ _ _, by decide, by decide, by decide, by decide⟩

abbrev Memory := BitVec 64 → UInt8

structure SoftBreakpoint where
  address : BitVec 64
  originalByte : UInt8
  deriving DecidableEq

/-- Which of the three calls the system carries out. -/
structure MemoryAnswers where
  reads : Bool
  writes : Bool
  flushes : Bool

namespace SoftBreakpoint

def install (answers : MemoryAnswers) (memory : Memory) (address : BitVec 64) :
    Memory × Option SoftBreakpoint :=
  if !answers.reads || !answers.writes then (memory, none)
  else (Function.update memory address 0xCC,
    if answers.flushes then some ⟨address, memory address⟩ else none)

/-- The flush that follows fails or not, the byte is back. -/
def restore (memory : Memory) (b : SoftBreakpoint) : Memory :=
  Function.update memory b.address b.originalByte

def installAll (memory : Memory) : List (MemoryAnswers × BitVec 64) → Memory × List SoftBreakpoint
  | [] => (memory, [])
  | (answers, address) :: rest =>
    let (memory, installed) := install answers memory address
    let (memory, others) := installAll memory rest
    (memory, installed.toList ++ others)

def restoreAll (memory : Memory) (installed : List SoftBreakpoint) : Memory :=
  installed.foldl restore memory

end SoftBreakpoint

/-- The addresses that got an `INT3`, each with whether its byte was saved. -/
def trapped (installs : List (MemoryAnswers × BitVec 64)) : List (BitVec 64 × Bool) :=
  (installs.filter fun step => step.1.reads && step.1.writes).map fun step =>
    (step.2, step.1.flushes)

def SoftBreakpoint.note (b : SoftBreakpoint) : BitVec 64 × UInt8 := (b.address, b.originalByte)

variable {memory : Memory} {installs : List (MemoryAnswers × BitVec 64)}

theorem installAll_eq :
    (SoftBreakpoint.installAll memory installs).1 =
        (Journal.lay 0xCC memory (trapped installs)).1 ∧
      (SoftBreakpoint.installAll memory installs).2.map SoftBreakpoint.note =
        (Journal.lay 0xCC memory (trapped installs)).2 := by
  induction installs generalizing memory with
  | nil => exact ⟨rfl, rfl⟩
  | cons step installs ih =>
    obtain ⟨⟨reads, writes, flushes⟩, address⟩ := step
    by_cases hwritten : (reads && writes) = true
    · obtain ⟨rfl, rfl⟩ := Bool.and_eq_true_iff.mp hwritten
      obtain ⟨hmemory, hnotes⟩ := @ih (Function.update memory address 0xCC)
      cases flushes with
      | true => exact ⟨hmemory, congrArg ((address, memory address) :: ·) hnotes⟩
      | false => exact ⟨hmemory, hnotes⟩
    · have hrefused : (!reads || !writes) = true := by
        cases reads <;> cases writes <;> first | rfl | exact absurd rfl hwritten
      have htrapped : trapped ((⟨reads, writes, flushes⟩, address) :: installs) =
          trapped installs := by
        rw [trapped, List.filter_cons_of_neg (by exact hwritten), trapped]
      rw [SoftBreakpoint.installAll, SoftBreakpoint.install, if_pos hrefused, htrapped]
      exact ih

theorem restoreAll_eq (installed : List SoftBreakpoint) :
    SoftBreakpoint.restoreAll memory installed =
      Journal.putBack memory (installed.map SoftBreakpoint.note) := by
  rw [SoftBreakpoint.restoreAll, Journal.putBack, List.foldl_map]
  rfl

/-- Which of the traps of an address have a saved byte. -/
def savedAt (installs : List (MemoryAnswers × BitVec 64)) (address : BitVec 64) : List Bool :=
  Journal.notesAt (trapped installs) address

/-- The memory of the target is whole again after the breakpoints were restored from the last to
the first, unless the byte under the first trap of an address was lost. Restored in the order of
their installation they also bring back the traps that were saved. -/
theorem restored_iff (memory : Memory) (installs : List (MemoryAnswers × BitVec 64)) :
    let s := SoftBreakpoint.installAll memory installs
    (SoftBreakpoint.restoreAll s.1 s.2.reverse = memory ↔
        ∀ address, (savedAt installs address).head? = some false → memory address = 0xCC) ∧
      (SoftBreakpoint.restoreAll s.1 s.2 = memory ↔
        ∀ address, (savedAt installs address).head? = some false ∨
          true ∈ (savedAt installs address).tail → memory address = 0xCC) := by
  obtain ⟨hmemory, hnotes⟩ := @installAll_eq memory installs
  have hsame : ∀ p : Prop, ∀ [Decidable p], ∀ byte : UInt8,
      (if p then 0xCC else byte) = byte ↔ (p → byte = 0xCC) := by
    intro p _ byte
    split
    · rename_i hp
      exact ⟨fun h _ => h.symm, fun h => (h hp).symm⟩
    · rename_i hp
      exact ⟨fun _ h => absurd h hp, fun _ => rfl⟩
  constructor
  · rw [restoreAll_eq, List.map_reverse, hmemory, hnotes, funext_iff]
    refine forall_congr' fun address => ?_
    rw [Journal.putBack_reverse]
    exact hsame _ _
  · rw [restoreAll_eq, hmemory, hnotes, funext_iff]
    refine forall_congr' fun address => ?_
    rw [Journal.putBack_inOrder]
    exact hsame _ _

end Axe.Unpack.Breakpoints
