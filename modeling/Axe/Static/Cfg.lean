import Mathlib.Algebra.Order.Ring.Nat
import Axe.Lib.SortedMap

/-!
# Building the control flow graph

Addresses are natural numbers below `2 ^ 64`. An instruction record occupies at least one
byte and ends inside the address space, a function record does not end before its start.
The field `end` of a record is called `stop` here and the ends of an edge `source` and `target`.
-/
namespace Axe.Static

structure InstructionRecord where
  address : Nat
  size : Nat
  mnemonic : String
  isCall : Bool
  isJump : Bool
  isRet : Bool
  branchTarget : Option Nat
  sizePos : 0 < size
  fits : address + size < 2 ^ 64
  deriving DecidableEq

structure FunctionRecord where
  start : Nat
  stop : Nat
  size : Nat
  source : String
  calls : List Nat
  ordered : start ≤ stop
  deriving DecidableEq

structure BasicBlockRecord where
  start : Nat
  stop : Nat
  instructionCount : Nat
  deriving DecidableEq

structure EdgeRecord where
  source : Nat
  target : Nat
  edgeType : String
  deriving DecidableEq

structure CfgRecord where
  function : Nat
  blocks : List BasicBlockRecord
  edges : List EdgeRecord
  deriving DecidableEq

namespace InstructionRecord

def nextAddr (ins : InstructionRecord) : Nat := ins.address + ins.size

def isJmp (ins : InstructionRecord) : Bool :=
  ins.mnemonic.toList.map Char.toLower = ['j', 'm', 'p']

end InstructionRecord

def FunctionRecord.Covers (function : FunctionRecord) (va : Nat) : Prop :=
  function.start ≤ va ∧ va < function.stop

instance FunctionRecord.decidableCovers (function : FunctionRecord) (va : Nat) :
    Decidable (function.Covers va) :=
  inferInstanceAs (Decidable (_ ∧ _))

/-- The instructions of a function in address order, the last record of each address. -/
def functionInsns (instructions : List InstructionRecord) (function : FunctionRecord) :
    List InstructionRecord :=
  (SortedMap.ofList InstructionRecord.address instructions).filter
    fun ins => function.Covers ins.address

def startsAt (insns : List InstructionRecord) (va : Nat) : Bool := insns.any (·.address = va)

def branchStart (function : FunctionRecord) (ins : InstructionRecord) : Option Nat :=
  ins.branchTarget.filter fun target => function.Covers target

/-- The addresses at which an instruction makes blocks start. -/
def insStarts (function : FunctionRecord) (insns : List InstructionRecord)
    (ins : InstructionRecord) : List Nat :=
  (branchStart function ins).toList ++
    if (ins.isJump || ins.isCall) && startsAt insns ins.nextAddr then [ins.nextAddr] else []

def insEdges (function : FunctionRecord) (insns : List InstructionRecord)
    (ins : InstructionRecord) : List EdgeRecord :=
  (branchStart function ins).toList.map (fun target => ⟨ins.address, target, "branch"⟩) ++
    if ins.isCall && startsAt insns ins.nextAddr then
      [⟨ins.address, ins.nextAddr, "fallthrough"⟩]
    else if ins.isJump && !ins.isJmp && startsAt insns ins.nextAddr then
      [⟨ins.address, ins.nextAddr, "fallthrough"⟩]
    else []

def blockStarts (function : FunctionRecord) (insns : List InstructionRecord) : List Nat :=
  SortedMap.ofList id (function.start :: insns.flatMap (insStarts function insns))

/-- The record of the instructions of a block, if there are any. -/
def blockRecord (start : Nat) (blockIns : List InstructionRecord) : Option BasicBlockRecord :=
  blockIns.getLast?.map fun last => ⟨start, last.nextAddr, blockIns.length⟩

/-- A block reaches to the following start, the last one to the end of the function. -/
def buildBlocks (stop : Nat) (insns : List InstructionRecord) : List Nat → List BasicBlockRecord
  | [] => []
  | start :: rest =>
    let following := rest.headD stop
    let blockIns := insns.filter fun ins => start ≤ ins.address && ins.address < following
    (blockRecord start blockIns).toList ++ buildBlocks stop insns rest

def functionCfg (instructions : List InstructionRecord) (function : FunctionRecord) :
    Option CfgRecord :=
  let insns := functionInsns instructions function
  if insns.isEmpty then none
  else some
    { function := function.start
      blocks := buildBlocks function.stop insns (blockStarts function insns)
      edges := insns.flatMap (insEdges function insns) }

def buildCfg (functions : List FunctionRecord) (instructions : List InstructionRecord) :
    List CfgRecord :=
  functions.filterMap (functionCfg instructions)

variable {instructions insns : List InstructionRecord} {function : FunctionRecord}
  {ins i j : InstructionRecord} {r : CfgRecord} {e : EdgeRecord} {s va : Nat}

theorem sorted_functionInsns :
    SortedMap.Sorted InstructionRecord.address (functionInsns instructions function) :=
  (SortedMap.sorted_ofList instructions).filter

theorem covers_of_mem (h : ins ∈ functionInsns instructions function) :
    function.Covers ins.address :=
  of_decide_eq_true (List.mem_filter.mp h).2

theorem startsAt_iff : startsAt insns va = true ↔ ∃ ins ∈ insns, ins.address = va := by
  simp only [startsAt, List.any_eq_true, decide_eq_true_eq]

theorem branchStart_eq_some :
    branchStart function ins = some va ↔ ins.branchTarget = some va ∧ function.Covers va := by
  rw [branchStart, Option.filter_eq_some_iff, decide_eq_true_iff]

theorem mem_insStarts :
    s ∈ insStarts function insns ins ↔
      (ins.branchTarget = some s ∧ function.Covers s) ∨
        ((ins.isJump = true ∨ ins.isCall = true) ∧ s = ins.nextAddr ∧
          ∃ j ∈ insns, j.address = s) := by
  rw [insStarts, List.mem_append, Option.mem_toList, branchStart_eq_some]
  refine or_congr_right ?_
  split
  · rename_i h
    rw [Bool.and_eq_true, Bool.or_eq_true, startsAt_iff] at h
    rw [List.mem_singleton]
    exact ⟨fun hs => ⟨h.1, hs, hs ▸ h.2⟩, fun hs => hs.2.1⟩
  · rename_i h
    rw [Bool.and_eq_true, Bool.or_eq_true, startsAt_iff] at h
    refine ⟨fun hs => absurd hs List.not_mem_nil, ?_⟩
    rintro ⟨hkind, rfl, hj⟩
    exact absurd ⟨hkind, hj⟩ h

theorem mem_insEdges_source (h : e ∈ insEdges function insns ins) : e.source = ins.address := by
  rw [insEdges, List.mem_append, List.mem_map] at h
  rcases h with ⟨target, _, rfl⟩ | h
  · rfl
  · split at h
    · rw [List.mem_singleton.mp h]
    · split at h
      · rw [List.mem_singleton.mp h]
      · exact absurd h List.not_mem_nil

/-- An instruction falls through to the next one when it is a call or a conditional jump. -/
theorem exists_insEdges :
    (∃ e ∈ insEdges function insns ins, e.target = va) ↔
      (ins.branchTarget = some va ∧ function.Covers va) ∨
        ((ins.isCall = true ∨ (ins.isJump = true ∧ ins.isJmp = false)) ∧ va = ins.nextAddr ∧
          ∃ j ∈ insns, j.address = va) := by
  have hfall : (∃ e ∈ (if ins.isCall && startsAt insns ins.nextAddr then
        [(⟨ins.address, ins.nextAddr, "fallthrough"⟩ : EdgeRecord)]
      else if ins.isJump && !ins.isJmp && startsAt insns ins.nextAddr then
        [⟨ins.address, ins.nextAddr, "fallthrough"⟩] else []), e.target = va) ↔
      (ins.isCall = true ∨ (ins.isJump = true ∧ ins.isJmp = false)) ∧ va = ins.nextAddr ∧
        startsAt insns ins.nextAddr = true := by
    cases ins.isCall <;> cases ins.isJump <;> cases ins.isJmp <;>
      cases startsAt insns ins.nextAddr <;> simp [eq_comm]
  have hbranch : (∃ e ∈ (branchStart function ins).toList.map
        (fun target => (⟨ins.address, target, "branch"⟩ : EdgeRecord)), e.target = va) ↔
      ins.branchTarget = some va ∧ function.Covers va := by
    rw [← branchStart_eq_some]
    simp
  refine Iff.trans ?_ ((or_congr hbranch hfall).trans ?_)
  · simp only [insEdges, List.mem_append, or_and_right, exists_or]
  · refine or_congr_right (and_congr_right fun _ => and_congr_right fun hva => ?_)
    rw [startsAt_iff, hva]

theorem mem_buildCfg_single :
    r ∈ buildCfg [function] instructions ↔ functionCfg instructions function = some r := by
  rw [buildCfg, List.mem_filterMap]
  simp

end Axe.Static
