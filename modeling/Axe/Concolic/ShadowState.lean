import Axe.Concolic.Expr
import Axe.Lib.X86

/-!
# The shadow state

A register or a byte of memory is symbolic when it holds a node of the DAG.
Registers go by their canonical names. The shadow flags and the fallback array
are left out: no instruction reads or writes them.
-/
namespace Axe.Concolic

open X86 (Reg)

abbrev RegFile := Reg → Option NodeId

abbrev ShadowMemory := BitVec 64 → Option NodeId

structure ShadowState where
  regs : RegFile
  memory : ShadowMemory
  concretizationEvents : Nat

namespace ShadowState

def new : ShadowState := ⟨fun _ => none, fun _ => none, 0⟩

/-- Clearing a symbolic register or byte is an event. -/
def concretized (s : ShadowState) (old node : Option NodeId) : Nat :=
  if node.isNone ∧ old.isSome then s.concretizationEvents + 1 else s.concretizationEvents

def writeReg (s : ShadowState) (reg : Reg) (node : Option NodeId) : ShadowState :=
  { s with
    regs := Function.update s.regs reg node
    concretizationEvents := s.concretized (s.regs reg) node }

def writeByte (s : ShadowState) (addr : BitVec 64) (node : Option NodeId) : ShadowState :=
  { s with
    memory := Function.update s.memory addr node
    concretizationEvents := s.concretized (s.memory addr) node }

@[simp] theorem writeReg_regs (s : ShadowState) (reg : Reg) (node : Option NodeId) :
    (s.writeReg reg node).regs = Function.update s.regs reg node := rfl
@[simp] theorem writeReg_memory (s : ShadowState) (reg : Reg) (node : Option NodeId) :
    (s.writeReg reg node).memory = s.memory := rfl
@[simp] theorem writeByte_regs (s : ShadowState) (addr : BitVec 64) (node : Option NodeId) :
    (s.writeByte addr node).regs = s.regs := rfl
@[simp] theorem writeByte_memory (s : ShadowState) (addr : BitVec 64) (node : Option NodeId) :
    (s.writeByte addr node).memory = Function.update s.memory addr node := rfl

end ShadowState

end Axe.Concolic
