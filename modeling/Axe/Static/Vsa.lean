import Mathlib.Data.Prod.Lex
import Axe.Lib.Loops
import Axe.Static.ValueJoins

/-!
# Value-set analysis of a function

The blocks of a function are interpreted from a queue. A block whose incoming state changed is
queued again, and so is one that leads to itself.
-/
namespace Axe.Static

open Loops (Turn)

structure VsaValueRecord where
  valueId : String
  function : Nat
  siteVa : Nat
  location : String
  content : AbstractValue
  workBudgetExhausted : Bool
  deriving DecidableEq

def valueId (function siteVa : Nat) (mark : String) (index : Nat) : String :=
  "vsa:" ++ upperHex 16 function ++ ":" ++ upperHex 16 siteVa ++ ":" ++ mark ++ upperHex 4 index

def vsaRecord (function siteVa : Nat) (location : String) (value : AbstractValue) (index : Nat) :
    VsaValueRecord :=
  ⟨valueId function siteVa "" index, function, siteVa, location, value, false⟩

def budgetRecord (mark text : String) (function siteVa index : Nat) : VsaValueRecord where
  valueId := valueId function siteVa mark index
  function := function
  siteVa := siteVa
  location := "analysis_budget"
  content :=
    { kind := .cap, lo := none, hi := none, stride := 0, value := some text, targetVa := none
      evidence := [siteVa], confidence := .high, region := .unknown, expression := none
      base := none, index := none, scale := 0, displacement := 0, possibleValues := [] }
  workBudgetExhausted := true

def capRecord (function siteVa index : Nat) : VsaValueRecord :=
  budgetRecord "cap:" "work_budget_exhausted" function siteVa index

def loopCapRecord (function siteVa index : Nat) : VsaValueRecord :=
  budgetRecord "loopcap:" "loop_widening_cap" function siteVa index

/-- A store to a slot of known value hides the register that is written beside it. -/
def transferInstruction (ins : IrInstruction) (strings : Strings) (state : AbstractState) :
    AbstractState × Option (String × AbstractValue) :=
  let value := (valueForInstruction ins strings state.regs state.stack).map fun value =>
    withEvidence value ins.address
  match (if ins.memoryWrite then ins.stackSlot else none), value, ins.writeReg with
  | some slot, some value, _ =>
    ({ state with stack := state.stack.insert slot value }, some (stackStorage slot, value))
  | _, _, none => (state, none)
  | _, some value, some reg =>
    ({ state with regs := state.regs.insert reg value }, some (reg, value))
  | _, none, some reg =>
    if ["mov", "lea", "movzx", "movsxd"].contains ins.mnemonic then (state, none)
    else ({ state with regs := state.regs.erase reg }, none)

def joinMaps {κ : Type} [LinearOrder κ] (left right : OrderedMap κ AbstractValue) :
    OrderedMap κ AbstractValue :=
  right.rows.foldl
    (fun m row => m.insert row.1 ((m.get row.1).elim row.2 fun old => joinValues old row.2)) left

def joinStates (left right : AbstractState) : AbstractState :=
  ⟨joinMaps left.regs right.regs, joinMaps left.stack right.stack⟩

def stateSignature (state : AbstractState) :
    List (String × ValueSignature) × List (Int × ValueSignature) :=
  (state.regs.rows.map fun row => (row.1, valueSignature row.2),
    state.stack.rows.map fun row => (row.1, valueSignature row.2))

def instructionsByBlock (ir : List IrInstruction) (cfg : CfgRecord) :
    OrderedMap Nat (List IrInstruction) :=
  .ofList <| cfg.blocks.map fun block =>
    (block.start, ir.filter fun ins => block.start ≤ ins.address && ins.address < block.stop)

def edgeOrder (edge : EdgeRecord) : Nat ×ₗ String := toLex (edge.target, edge.edgeType)

/-- Of the edges with one target and type the first stays. -/
def addOutgoing (cfg : CfgRecord) (m : OrderedMap Nat (List EdgeRecord)) (edge : EdgeRecord) :
    OrderedMap Nat (List EdgeRecord) :=
  (blockForCfg cfg edge.source).elim m fun block =>
    m.insert block (SortedMap.insertNew edgeOrder edge ((m.get block).getD []))

def outgoingEdgesByBlock (cfg : CfgRecord) : OrderedMap Nat (List EdgeRecord) :=
  cfg.edges.foldl (addOutgoing cfg) .empty

/-- The blocks that no other block leads to, or else the first one. -/
def entryBlocks (cfg : CfgRecord) (preds : OrderedMap Nat (List Nat)) : List Nat :=
  let entries := (cfg.blocks.map BasicBlockRecord.start).filter fun start =>
    ((preds.get start).getD []).all (· = start)
  if entries.isEmpty then (cfg.blocks.head?.map BasicBlockRecord.start).toList else entries

/-- What a function is analyzed with. -/
structure VsaTask where
  function : Nat
  ir : List IrInstruction
  cfg : CfgRecord
  strings : Strings
  perFunctionCap : Nat
  loopLimit : Nat
  rowBase : Nat

structure Analysis where
  worklist : List Nat
  inState : OrderedMap Nat AbstractState
  iterations : OrderedMap Nat Nat
  cappedBlocks : List Nat
  rows : List VsaValueRecord

/-- What the loop does with the head of the queue. -/
inductive VsaStep
  | finish (rows : List VsaValueRecord)
  | passOver (s : Analysis)
  | interpret (block : Nat) (s : Analysis)

namespace VsaTask

variable (task : VsaTask)

def blockIns (block : Nat) : List IrInstruction :=
  ((instructionsByBlock task.ir task.cfg).get block).getD []

def edgesFrom (block : Nat) : List EdgeRecord :=
  ((outgoingEdgesByBlock task.cfg).get block).getD []

def start : Analysis :=
  let entries := entryBlocks task.cfg (predecessorsByBlock task.cfg)
  { worklist := entries
    inState := .ofList (entries.map fun entry => (entry, .empty))
    iterations := .empty
    cappedBlocks := []
    rows := [] }

/-- The state after the instructions of a block, or the rows when they reach the cap. -/
def interpret : List IrInstruction → AbstractState → List VsaValueRecord →
    Except (List VsaValueRecord) (AbstractState × List VsaValueRecord)
  | [], state, rows => .ok (state, rows)
  | ins :: rest, state, rows =>
    if task.perFunctionCap ≤ rows.length then
      .error (rows ++ [capRecord task.function ins.address (task.rowBase + rows.length)])
    else
      match transferInstruction ins task.strings state with
      | (state, none) => interpret rest state rows
      | (state, some (location, value)) =>
        interpret rest state
          (rows ++ [vsaRecord task.function ins.address location value
            (task.rowBase + rows.length)])

def propagate (block : Nat) (state : AbstractState) (s : Analysis) (edge : EdgeRecord) : Analysis :=
  let old := (s.inState.get edge.target).getD .empty
  let joined := joinStates old (refineStateForEdge state (task.blockIns block) edge)
  if stateSignature old ≠ stateSignature joined ∨ edge.target = block then
    { s with
      inState := s.inState.insert edge.target joined
      worklist := s.worklist ++ [edge.target] }
  else s

/-- How often a block has been taken from the queue. -/
def count (s : Analysis) (block : Nat) : Nat := (s.iterations.get block).getD 0

/-- The state after a block has left the queue. -/
def popped (s : Analysis) (block : Nat) (worklist : List Nat) : Analysis :=
  { s with
    worklist := worklist
    iterations := s.iterations.insert block (count s block + 1) }

/-- The block at the head of the queue is interpreted, passed over when it has had its rounds, or
not reached when the rows have. -/
def nextStep (s : Analysis) : VsaStep :=
  match s.worklist with
  | [] => .finish s.rows
  | block :: worklist =>
    if task.perFunctionCap ≤ s.rows.length then
      .finish (s.rows ++ [capRecord task.function block (task.rowBase + s.rows.length)])
    else
      let s := popped s block worklist
      if task.loopLimit < count s block then
        if s.cappedBlocks.contains block then .passOver s
        else .passOver { s with
          cappedBlocks := block :: s.cappedBlocks
          rows := s.rows ++ [loopCapRecord task.function block (task.rowBase + s.rows.length)] }
      else .interpret block s

/-- The instructions of a block change its incoming state, and its edges carry the result on. -/
def interpretBlock (block : Nat) (s : Analysis) : Turn Analysis (List VsaValueRecord) :=
  match task.interpret (task.blockIns block) ((s.inState.get block).getD .empty) s.rows with
  | .error rows => .ended rows
  | .ok (state, rows) =>
    .next ((task.edgesFrom block).foldl (task.propagate block state) { s with rows := rows })

/-- One turn of the loop. -/
def turn (s : Analysis) : Turn Analysis (List VsaValueRecord) :=
  match task.nextStep s with
  | .finish rows => .ended rows
  | .passOver s => .next s
  | .interpret block s => task.interpretBlock block s

/-- The turn goes through the instructions of the block. -/
def interprets (block : Nat) (s : Analysis) : Bool :=
  match task.nextStep s with
  | .interpret interpreted _ => interpreted = block
  | _ => false

/-- The blocks that queue others, each with the rounds it has left. -/
def roundsLeft (s : Analysis) : Nat :=
  ((outgoingEdgesByBlock task.cfg).rows.map fun row => task.loopLimit - count s row.1).sum

/-- A number of turns in which the queue runs empty. -/
def turnBudget (s : Analysis) : Nat :=
  task.roundsLeft s * (task.cfg.edges.length + 1) + s.worklist.length

end VsaTask
end Axe.Static
