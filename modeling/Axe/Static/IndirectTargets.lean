import Axe.Lib.Tables
import Axe.Pe.Image
import Axe.Static.SecondPass
import Axe.Static.SemanticIndex
import Axe.Static.VsaRuns

/-!
# Indirect targets

The second pass computes the values of the targeted functions, and the calls and jumps through a
register or through memory are looked up in them, at the address where they stand.
-/
namespace Axe.Static.IndirectTargets

open Axe.Static.Disassembly (CodeImage Decoder Decoding DisasmOutput DisasmRange Settings
  disassemble splitInstruction)
open Axe.Static.SecondPass (SecondPassTargetRecord)
open Axe.Static.SemanticIndex (inFunction)
open Loops (Turn)
open SortedSlices (part)

def perFunctionCap (budgetName : String) : Nat :=
  if budgetName = "max" then 2 ^ 64 - 1 else if budgetName = "high" then 512 else 128

def loopLimit (budgetName : String) : Nat :=
  if budgetName = "max" then 16 else if budgetName = "high" then 8 else 4

def instructionBudget (budgetName : String) : Nat :=
  if budgetName = "max" then 2 ^ 64 - 1 else if budgetName = "high" then 1024 else 128

/-- The instructions one after another, while the cap on rows and the budget last. -/
def analyzeLinearSlice (task : VsaTask) :
    Nat → List IrInstruction → AbstractState → List VsaValueRecord → List VsaValueRecord
  | _, [], _, rows => rows
  | budget, ins :: rest, state, rows =>
    if task.perFunctionCap ≤ rows.length || budget = 0 then
      rows ++ [capRecord task.function ins.address (task.rowBase + rows.length)]
    else
      match transferInstruction ins task.strings state with
      | (state, none) => analyzeLinearSlice task (budget - 1) rest state rows
      | (state, some (location, value)) =>
        analyzeLinearSlice task (budget - 1) rest state
          (rows ++ [vsaRecord task.function ins.address location value
            (task.rowBase + rows.length)])

/-- The queue of blocks, for as many turns as it can take. -/
def analyzeCfgFunction (task : VsaTask) : List VsaValueRecord :=
  (Loops.run task.turn (task.turnBudget task.start + 1) task.start).getD []

/-- What the second pass is given. -/
structure Pass where
  functions : List FunctionRecord
  slices : List FunctionSemanticSlice
  ir : List LiftedInstruction
  cfg : List CfgRecord
  strings : List StringRecord
  targets : List SecondPassTargetRecord
  budgetName : String

def kindText : Kind → String
  | .constant => "constant"
  | .stringPointer => "string_pointer"
  | .pointerExpression => "pointer_expression"
  | .interval => "interval"
  | .constantSet => "constant_set"
  | .cap => "cap"

def rowOrder (row : VsaValueRecord) : Nat ×ₗ Nat ×ₗ String ×ₗ String :=
  toLex (row.function, toLex (row.siteVa, toLex (row.location, kindText row.content.kind)))

namespace Pass
variable (pass : Pass)

def stringsByVa : Strings := .ofList (pass.strings.map fun row => (row.va, row))

def cfgByFunction : OrderedMap Nat CfgRecord :=
  .ofList (pass.cfg.map fun row => (row.function, row))

def task (function : FunctionRecord) (ir : List IrInstruction) (cfg : CfgRecord) (rowBase : Nat) :
    VsaTask where
  function := function.start
  ir := ir
  cfg := cfg
  strings := pass.stringsByVa
  perFunctionCap := perFunctionCap pass.budgetName
  loopLimit := loopLimit pass.budgetName
  rowBase := rowBase

/-- A function without blocks is read from its first instruction to its last. -/
def analyzeFunction (function : FunctionRecord) (ir : List IrInstruction) (rowBase : Nat) :
    List VsaValueRecord :=
  let cfg := (pass.cfgByFunction.get function.start).getD ⟨function.start, [], []⟩
  let task := pass.task function ir cfg rowBase
  if cfg.blocks.isEmpty then
    analyzeLinearSlice task (instructionBudget pass.budgetName) ir .empty []
  else analyzeCfgFunction task

def addSlice (rows : List VsaValueRecord) (slice : FunctionSemanticSlice) : List VsaValueRecord :=
  match pass.functions[slice.functionIndex]? with
  | none => rows
  | some function =>
    if pass.targets.any fun row => row.function = function.start then
      rows ++ pass.analyzeFunction function
        ((part pass.ir slice.irRange).map LiftedInstruction.toIrInstruction) rows.length
    else rows

def analyzeTargetsWithCfg : List VsaValueRecord :=
  sortBy rowOrder (pass.slices.foldl pass.addSlice [])

end Pass

structure ResolvedIndirectRecord where
  schema : String
  kind : String
  function : Nat
  siteVa : Nat
  targetVa : Nat
  via : String
  resolvedSymbol : Option String
  confidence : String
  evidence : List Nat
  deriving DecidableEq

/-- The confidence as the rows spell it. -/
def confidenceText : Confidence → String
  | .high => "high"
  | .medium => "medium"
  | .low => "low"

def confidenceRank (c : String) : Nat :=
  if c = "high" ∨ c = "definite" then 3 else if c = "medium" then 2 else if c = "low" then 1 else 0

def confidenceLabel (c : String) : String :=
  if c = "high" then "high" else if c = "medium" ∨ c = "definite" then "medium" else "low"

def toAsciiLowercase (s : String) : String := String.ofList (s.toList.map Char.toLower)

abbrev SiteKey := Nat ×ₗ Nat ×ₗ String

def siteKey (function siteVa : Nat) (location : String) : SiteKey :=
  toLex (function, toLex (siteVa, toAsciiLowercase location))

def rowKey (row : VsaValueRecord) : SiteKey := siteKey row.function row.siteVa row.location

def rowRank (row : VsaValueRecord) : Nat := confidenceRank (confidenceText row.content.confidence)

/-- The rows with a target, the most confident one of each place. -/
def vsaBySiteReg (vsaValues : List VsaValueRecord) : OrderedMap SiteKey VsaValueRecord :=
  bestOf rowKey rowRank (vsaValues.filter fun row => row.content.targetVa.isSome)

def functionOfIr (functions : List FunctionRecord) (ir : List LiftedInstruction) :
    OrderedMap Nat Nat :=
  .ofList <| functions.flatMap fun function =>
    (ir.filter fun ins => inFunction function ins.address).map fun ins =>
      (ins.address, function.start)

def signedHex (n : Int) : String :=
  (if 0 < n then "+0x" else "-0x") ++ upperHex 0 n.natAbs

def describeMemory (ins : LiftedInstruction) : String :=
  let base := ins.memoryBase.toList
  let index := ins.memoryIndex.toList.map fun index =>
    if 1 < ins.memoryScale then index ++ "*" ++ toString ins.memoryScale else index
  let displacement :=
    if ins.memoryDisplacement = 0 then [] else [signedHex ins.memoryDisplacement]
  "[" ++ String.join (base ++ index ++ displacement) ++ "]"

/-- How the target of an instruction is given, and the register that is looked up for it. -/
def via (ins : LiftedInstruction) : Option (String × Option String) :=
  match ins.indirectTargetRegister with
  | some reg => some ("register=" ++ reg, some reg)
  | none =>
    if ins.indirectTargetMemory then some ("memory=" ++ describeMemory ins, ins.memoryBase)
    else none

/-- A call or a jump whose target is not known from its bytes. -/
def isIndirect (ins : LiftedInstruction) : Bool :=
  (ins.isCall || ins.isJump) && !(ins.directTarget.isSome || ins.ripTarget.isSome)

def resolvedRecord (importsByVa : OrderedMap Nat Pe.ImportRecord) (ins : LiftedInstruction)
    (function : Nat) (viaText : String) (row : VsaValueRecord) (target : Word) :
    ResolvedIndirectRecord where
  schema := "resolved_indirect/1"
  kind := if ins.isCall then "indirect_call" else "indirect_jump"
  function := function
  siteVa := ins.address
  targetVa := target.val
  via := viaText
  resolvedSymbol :=
    ((importsByVa.get target.val).map Pe.ImportRecord.symbol).or row.content.expression
  confidence := confidenceLabel (confidenceText row.content.confidence)
  evidence :=
    if row.content.evidence.contains ins.address then row.content.evidence
    else ins.address :: row.content.evidence

section
variable (functions : List FunctionRecord) (ir : List LiftedInstruction)
  (vsaValues : List VsaValueRecord) (imports : List Pe.ImportRecord)

def importsByVa : OrderedMap Nat Pe.ImportRecord := .ofList (imports.map fun row => (row.va, row))

def resolveSite (ins : LiftedInstruction) : Option ResolvedIndirectRecord :=
  if isIndirect ins then do
    let function ← (functionOfIr functions ir).get ins.address
    let (viaText, reg) ← via ins
    let reg ← reg
    let row ← (vsaBySiteReg vsaValues).get (siteKey function ins.address reg)
    let target ← row.content.targetVa
    if target = 0 then none
    else some (resolvedRecord (importsByVa imports) ins function viaText row target)
  else none

def resolveIndirect : List ResolvedIndirectRecord :=
  if ir.isEmpty then [] else ir.filterMap (resolveSite functions ir vsaValues imports)

end

section
variable {functions : List FunctionRecord} {ir : List LiftedInstruction}
  {vsaValues : List VsaValueRecord} {imports : List Pe.ImportRecord} {ins : LiftedInstruction}
  {function : Nat} {reg : String} {row : VsaValueRecord} {r : ResolvedIndirectRecord}

/-- The last function around an address. -/
def lastAround (functions : List FunctionRecord) (a : Nat) : Option FunctionRecord :=
  (functions.filter fun function => inFunction function a).getLast?

/-- The rows with a target that tell of a register at an address of a function. -/
def rowsAt (vsaValues : List VsaValueRecord) (function a : Nat) (reg : String) :
    List VsaValueRecord :=
  (vsaValues.filter fun row => row.content.targetVa.isSome).filter fun row =>
    rowKey row = siteKey function a reg

theorem functionOfIr_get (hins : ins ∈ ir) :
    (functionOfIr functions ir).get ins.address =
      (lastAround functions ins.address).map FunctionRecord.start := by
  rw [functionOfIr, get_ofList_eq_getLast]
  induction functions using List.reverseRecOn with
  | nil => rfl
  | append_singleton functions function ih =>
    have hsnoc : (functions ++ [function]).filter (fun f => inFunction f ins.address) =
        functions.filter (fun f => inFunction f ins.address) ++
          if inFunction function ins.address then [function] else [] := by
      rw [List.filter_append, List.filter_cons]
      rfl
    rw [List.flatMap_append, List.flatMap_cons, List.flatMap_nil, List.append_nil,
      List.filter_append, lastAround, hsnoc]
    cases hin : inFunction function ins.address with
    | false =>
      -- the function has no row for the address
      have hnone : (((ir.filter fun i => inFunction function i.address).map fun i =>
          (i.address, function.start)).filter fun row => row.1 = ins.address) = [] := by
        refine List.filter_eq_nil_iff.mpr fun row hrow heq => ?_
        obtain ⟨i, hi, rfl⟩ := List.mem_map.mp hrow
        have haround := (List.mem_filter.mp hi).2
        have heq : i.address = ins.address := of_decide_eq_true heq
        rw [heq, hin] at haround
        cases haround
      rw [hnone, List.append_nil, if_neg Bool.false_ne_true, List.append_nil]
      exact ih
    | true =>
      have hlast : ∀ row ∈ ((ir.filter fun i => inFunction function i.address).map fun i =>
          (i.address, function.start)).filter (fun row => row.1 = ins.address),
          row.2 = function.start := by
        intro row hrow
        obtain ⟨i, -, rfl⟩ := List.mem_map.mp (List.mem_filter.mp hrow).1
        rfl
      have hmem : (ins.address, function.start) ∈
          ((ir.filter fun i => inFunction function i.address).map fun i =>
            (i.address, function.start)).filter (fun row => row.1 = ins.address) :=
        List.mem_filter.mpr ⟨List.mem_map.mpr ⟨ins, List.mem_filter.mpr ⟨hins, hin⟩, rfl⟩,
          decide_eq_true rfl⟩
      rw [if_pos rfl, List.getLast?_concat, Option.map_some,
        List.getLast?_append_of_ne_nil _ (List.ne_nil_of_mem hmem),
        List.getLast?_eq_getLast_of_ne_nil (List.ne_nil_of_mem hmem), Option.map_some,
        hlast _ (List.getLast_mem _)]

theorem vsaBySiteReg_get : (vsaBySiteReg vsaValues).get (siteKey function ins.address reg) =
    some row ↔ Best rowRank (rowsAt vsaValues function ins.address reg) row := get_bestOf

theorem resolveSite_eq_some (hins : ins ∈ ir) :
    resolveSite functions ir vsaValues imports ins = some r ↔
      isIndirect ins = true ∧ ∃ function viaText reg row target,
        lastAround functions ins.address = some function ∧ via ins = some (viaText, some reg) ∧
        Best rowRank (rowsAt vsaValues function.start ins.address reg) row ∧
        row.content.targetVa = some target ∧ target ≠ 0 ∧
        r = resolvedRecord (importsByVa imports) ins function.start viaText row target := by
  rw [resolveSite, functionOfIr_get hins]
  cases hindirect : isIndirect ins with
  | false => simp
  | true =>
    rw [if_pos rfl]
    constructor
    · intro h
      obtain ⟨start, hfunction, h⟩ := Option.bind_eq_some_iff.mp h
      obtain ⟨function, hlast, rfl⟩ := Option.map_eq_some_iff.mp hfunction
      obtain ⟨⟨viaText, looked⟩, hvia, h⟩ := Option.bind_eq_some_iff.mp h
      dsimp only at h
      obtain ⟨reg, hlooked, h⟩ := Option.bind_eq_some_iff.mp h
      obtain ⟨row, hget, h⟩ := Option.bind_eq_some_iff.mp h
      obtain ⟨target, htarget, h⟩ := Option.bind_eq_some_iff.mp h
      split at h
      · cases h
      · rename_i hzero
        exact ⟨rfl, function, viaText, reg, row, target, hlast, hlooked ▸ hvia,
          vsaBySiteReg_get.mp hget, htarget, hzero, (Option.some.inj h).symm⟩
    · rintro ⟨-, function, viaText, reg, row, target, hlast, hvia, hbest, htarget, hzero, rfl⟩
      simp [hlast, hvia, vsaBySiteReg_get.mpr hbest, htarget, hzero]

theorem resolveIndirect_eq : resolveIndirect functions ir vsaValues imports =
    ir.filterMap (resolveSite functions ir vsaValues imports) := by
  rw [resolveIndirect]
  split
  · rename_i hnil
    rw [List.isEmpty_iff.mp hnil]
    rfl
  · rfl

/-- The table has a record for every indirect call and jump whose register has a row with a
target at its address, made of the most confident of them. -/
theorem mem_resolveIndirect : r ∈ resolveIndirect functions ir vsaValues imports ↔
    ∃ ins ∈ ir, isIndirect ins = true ∧ ∃ function viaText reg row target,
      lastAround functions ins.address = some function ∧ via ins = some (viaText, some reg) ∧
      Best rowRank (rowsAt vsaValues function.start ins.address reg) row ∧
      row.content.targetVa = some target ∧ target ≠ 0 ∧
      r = resolvedRecord (importsByVa imports) ins function.start viaText row target := by
  rw [resolveIndirect_eq, List.mem_filterMap]
  exact exists_congr fun ins => and_congr_right fun hins => resolveSite_eq_some hins

end

section
variable {task : VsaTask} {ir ins : List IrInstruction} {rows rows' : List VsaValueRecord}
  {state state' : AbstractState} {s s' : Analysis} {block : Nat}

/-- The instruction changes a register or memory. -/
def Writes (ins : IrInstruction) : Prop := ins.memoryWrite = true ∨ ins.writeReg.isSome = true

/-- A row has no target, or stands at an instruction that writes. -/
def Sited (ir : List IrInstruction) (row : VsaValueRecord) : Prop :=
  row.content.targetVa = none ∨ ∃ ins ∈ ir, ins.address = row.siteVa ∧ Writes ins

def AllSited (ir : List IrInstruction) (rows : List VsaValueRecord) : Prop :=
  ∀ row ∈ rows, Sited ir row

theorem AllSited.snoc (h : AllSited ir rows) {row : VsaValueRecord} (hrow : Sited ir row) :
    AllSited ir (rows ++ [row]) := by
  intro r hr
  rcases List.mem_append.mp hr with hr | hr
  · exact h r hr
  · obtain rfl := List.mem_singleton.mp hr
    exact hrow

theorem AllSited.cap (h : AllSited ir rows) (function siteVa index : Nat) :
    AllSited ir (rows ++ [capRecord function siteVa index]) := h.snoc (.inl rfl)

theorem transfer_writes {ins : IrInstruction} {strings : Strings} {location : String}
    {value : AbstractValue}
    (h : (transferInstruction ins strings state).2 = some (location, value)) : Writes ins := by
  rw [transferInstruction] at h
  rw [Writes]
  cases hwrite : ins.memoryWrite with
  | true => exact .inl rfl
  | false =>
    rw [hwrite, if_neg Bool.false_ne_true] at h
    cases hreg : ins.writeReg with
    | some reg => exact .inr rfl
    | none =>
      rw [hreg] at h
      cases h

/-- The row that an instruction adds stands at an instruction that writes. -/
theorem AllSited.transfer {head : IrInstruction} {strings : Strings} {location : String}
    {value : AbstractValue} (h : AllSited ir rows) (hmem : head ∈ ir)
    (htransfer : transferInstruction head strings state = (state', some (location, value)))
    (function index : Nat) :
    AllSited ir (rows ++ [vsaRecord function head.address location value index]) :=
  h.snoc (.inr ⟨head, hmem, rfl, transfer_writes (congrArg Prod.snd htransfer)⟩)

theorem linear_sited {budget : Nat} (hsub : ins ⊆ ir) (h : AllSited ir rows) :
    AllSited ir (analyzeLinearSlice task budget ins state rows) := by
  induction ins generalizing budget state rows with
  | nil => exact h
  | cons head rest ih =>
    obtain ⟨hhead, hrest⟩ := List.cons_subset.mp hsub
    rw [analyzeLinearSlice]
    split
    · exact h.cap _ _ _
    · split
      · exact ih hrest h
      · rename_i htransfer
        exact ih hrest (h.transfer hhead htransfer _ _)

theorem interpret_ok_sited (hsub : ins ⊆ ir) (h : AllSited ir rows)
    (hok : task.interpret ins state rows = .ok (state', rows')) : AllSited ir rows' := by
  induction ins generalizing state rows with
  | nil =>
    cases hok
    exact h
  | cons head rest ih =>
    obtain ⟨hhead, hrest⟩ := List.cons_subset.mp hsub
    rw [VsaTask.interpret] at hok
    split at hok
    · cases hok
    · split at hok
      · exact ih hrest h hok
      · rename_i htransfer
        exact ih hrest (h.transfer hhead htransfer _ _) hok

theorem interpret_error_sited (hsub : ins ⊆ ir) (h : AllSited ir rows)
    (herror : task.interpret ins state rows = .error rows') : AllSited ir rows' := by
  induction ins generalizing state rows with
  | nil => cases herror
  | cons head rest ih =>
    obtain ⟨hhead, hrest⟩ := List.cons_subset.mp hsub
    rw [VsaTask.interpret] at herror
    split at herror
    · cases herror
      exact h.cap _ _ _
    · split at herror
      · exact ih hrest h herror
      · rename_i htransfer
        exact ih hrest (h.transfer hhead htransfer _ _) herror

theorem blockIns_subset : task.blockIns block ⊆ task.ir := by
  rw [VsaTask.blockIns, instructionsByBlock]
  cases hget : (OrderedMap.ofList (task.cfg.blocks.map fun block => (block.start,
      task.ir.filter fun ins => block.start ≤ ins.address && ins.address < block.stop))).get
      block with
  | none => exact List.nil_subset _
  | some found =>
    obtain ⟨b, -, heq⟩ := List.mem_map.mp (OrderedMap.mem_of_get_ofList hget)
    obtain ⟨-, rfl⟩ := Prod.mk.inj heq
    exact fun _ h => (List.mem_filter.mp h).1

theorem passOver_sited (hstep : task.nextStep s = .passOver s') (h : AllSited task.ir s.rows) :
    AllSited task.ir s'.rows := by
  obtain ⟨_, _, -, -, -, -, hrows | hrows⟩ := VsaTask.nextStep_passOver hstep
  · rwa [hrows]
  · rw [hrows]
    exact h.snoc (.inl rfl)

theorem interpretBlock_next_sited (hnext : task.interpretBlock block s = .next s')
    (h : AllSited task.ir s.rows) : AllSited task.ir s'.rows := by
  rw [VsaTask.interpretBlock] at hnext
  split at hnext
  · cases hnext
  · rename_i hok
    cases hnext
    rw [(VsaTask.propagate_foldl _ _).1]
    exact interpret_ok_sited blockIns_subset h hok

theorem interpretBlock_ended_sited (hended : task.interpretBlock block s = .ended rows)
    (h : AllSited task.ir s.rows) : AllSited task.ir rows := by
  rw [VsaTask.interpretBlock] at hended
  split at hended
  · rename_i herror
    cases hended
    exact interpret_error_sited blockIns_subset h herror
  · cases hended

theorem turn_next_sited (hnext : task.turn s = .next s') (h : AllSited task.ir s.rows) :
    AllSited task.ir s'.rows := by
  rw [VsaTask.turn] at hnext
  split at hnext
  · cases hnext
  · rename_i hstep
    cases hnext
    exact passOver_sited hstep h
  · rename_i hstep
    obtain ⟨_, -, -, rfl, -⟩ := VsaTask.nextStep_interpret hstep
    exact interpretBlock_next_sited hnext h

theorem turn_ended_sited (hended : task.turn s = .ended rows) (h : AllSited task.ir s.rows) :
    AllSited task.ir rows := by
  rw [VsaTask.turn] at hended
  split at hended
  · rename_i hstep
    cases hended
    rcases VsaTask.nextStep_finish hstep with rfl | ⟨-, va, rfl⟩
    · exact h
    · exact h.cap _ _ _
  · cases hended
  · rename_i hstep
    obtain ⟨_, -, -, rfl, -⟩ := VsaTask.nextStep_interpret hstep
    exact interpretBlock_ended_sited hended h

theorem analyzeCfgFunction_run (task : VsaTask) :
    Loops.run task.turn (task.turnBudget task.start + 1) task.start =
      some (analyzeCfgFunction task) := by
  obtain ⟨rows, hrun⟩ := Loops.run_ends task.turnBudget (fun _ _ => VsaTask.turnBudget_lt)
    (Nat.lt_succ_self (task.turnBudget task.start))
  rw [analyzeCfgFunction, hrun, Option.getD_some]

theorem cfg_sited (task : VsaTask) : AllSited task.ir (analyzeCfgFunction task) := by
  refine Loops.run_keeps (I := fun s : Analysis => AllSited task.ir s.rows)
    (Q := fun rows => AllSited task.ir rows) ?_ ?_ (analyzeCfgFunction_run task)
    (show AllSited task.ir [] from fun _ h => absurd h List.not_mem_nil)
  · exact fun s s' hnext h => turn_next_sited hnext h
  · exact fun s rows hended h => turn_ended_sited hended h

end

section
variable {pass : Pass} {ir : List LiftedInstruction} {rows : List VsaValueRecord}

theorem analyzeFunction_sited (function : FunctionRecord) (ir : List IrInstruction)
    (rowBase : Nat) : AllSited ir (pass.analyzeFunction function ir rowBase) := by
  rw [Pass.analyzeFunction]
  split
  · exact linear_sited (List.Subset.refl _) fun _ h => absurd h List.not_mem_nil
  · exact cfg_sited (pass.task function ir _ rowBase)

theorem AllSited.mono {part ir : List IrInstruction} (h : AllSited part rows) (hsub : part ⊆ ir) :
    AllSited ir rows := fun row hrow => (h row hrow).imp_right fun ⟨ins, hins, hsite⟩ =>
  ⟨ins, hsub hins, hsite⟩

theorem addSlice_sited (slice : FunctionSemanticSlice)
    (h : AllSited (pass.ir.map LiftedInstruction.toIrInstruction) rows) :
    AllSited (pass.ir.map LiftedInstruction.toIrInstruction) (pass.addSlice rows slice) := by
  rw [Pass.addSlice]
  split
  · exact h
  · split
    · rename_i function _ _
      have hsub : (part pass.ir slice.irRange).map LiftedInstruction.toIrInstruction ⊆
          pass.ir.map LiftedInstruction.toIrInstruction :=
        List.map_subset _ fun ins hins => List.mem_of_mem_drop (List.mem_of_mem_take hins)
      intro row hrow
      rcases List.mem_append.mp hrow with hrow | hrow
      · exact h row hrow
      · exact (analyzeFunction_sited function _ _).mono hsub row hrow
    · exact h

theorem analyzeTargets_sited :
    AllSited (pass.ir.map LiftedInstruction.toIrInstruction) pass.analyzeTargetsWithCfg := by
  have hfold : ∀ (slices : List FunctionSemanticSlice) (rows : List VsaValueRecord),
      AllSited (pass.ir.map LiftedInstruction.toIrInstruction) rows →
        AllSited (pass.ir.map LiftedInstruction.toIrInstruction)
          (slices.foldl pass.addSlice rows) := by
    intro slices
    induction slices with
    | nil => exact fun rows h => h
    | cons slice slices ih => exact fun rows h => ih _ (addSlice_sited slice h)
  intro row hrow
  rw [Pass.analyzeTargetsWithCfg, sortBy] at hrow
  exact hfold pass.slices [] (fun _ h => absurd h List.not_mem_nil) row
    ((List.mergeSort_perm _ _).mem_iff.mp hrow)

end

section
variable {settings : Settings} {image : CodeImage} {s : Disassembly.State}

/-- The lifted instructions are of different addresses, and the decoder gave them. -/
structure Distinct (settings : Settings) (s : Disassembly.State) : Prop where
  nodup : (s.ir.map fun ins => ins.address).Nodup
  seen : ∀ ins ∈ s.ir, ins.address ∈ s.seen
  decoded : ∀ ins ∈ s.ir, ∃ bytes ip, ins = (settings.decoder.decode bytes ip).lifted

theorem Distinct.visit (h : Distinct settings s) (sect : SectionRecord) (bytes : List UInt8)
    (ip : Nat) : Distinct settings
      (Disassembly.visit settings image s (sect, settings.decoder.decode bytes ip)) := by
  rw [Disassembly.visit]
  split
  · exact h
  · rename_i hnew
    have haddress : (settings.decoder.decode bytes ip).lifted.address =
        (settings.decoder.decode bytes ip).instr.ip := fromIced_address
    have hsnoc : ∀ ins ∈ s.ir ++ [(settings.decoder.decode bytes ip).lifted],
        ins ∈ s.ir ∨ ins = (settings.decoder.decode bytes ip).lifted := fun ins hins =>
      (List.mem_append.mp hins).imp_right List.mem_singleton.mp
    refine ⟨?_, fun ins hins => ?_, fun ins hins => ?_⟩
    · rw [List.map_append, List.map_singleton, haddress]
      refine List.nodup_append.mpr ⟨h.nodup, List.nodup_singleton _, fun a ha b hb heq => ?_⟩
      obtain ⟨ins, hins, rfl⟩ := List.mem_map.mp ha
      rw [List.mem_singleton.mp hb] at heq
      exact hnew (heq ▸ h.seen ins hins)
    · rcases hsnoc ins hins with hins | rfl
      · exact List.mem_cons_of_mem _ (h.seen ins hins)
      · rw [haddress]
        exact List.mem_cons_self
    · rcases hsnoc ins hins with hins | rfl
      · exact h.decoded ins hins
      · exact ⟨bytes, ip, rfl⟩

theorem Distinct.sweep (sect : SectionRecord) (turns : Nat) (bytes : List UInt8) (ip : Nat)
    (h : Distinct settings s) :
    Distinct settings (Disassembly.sweep settings image sect turns bytes ip s) := by
  induction turns generalizing bytes ip s with
  | zero => exact h
  | succ turns ih =>
    rw [Disassembly.sweep]
    split
    · exact h
    · split
      · exact ⟨h.nodup, h.seen, h.decoded⟩
      · exact ih _ _ (h.visit sect bytes ip)

theorem Distinct.sweepRanges {ranges : List DisasmRange} {s' : Disassembly.State}
    (h : Distinct settings s)
    (hs : Disassembly.sweepRanges settings image ranges s = .ok s') : Distinct settings s' := by
  induction ranges generalizing s with
  | nil =>
    cases hs
    exact h
  | cons range ranges ih =>
    rw [Disassembly.sweepRanges] at hs
    split at hs
    · cases hs
      exact ⟨h.nodup, h.seen, h.decoded⟩
    · split at hs
      · exact ih h hs
      · split at hs
        · cases hs
        · exact ih (h.sweep _ _ _ _) hs

theorem disassemble_distinct {ranges : List DisasmRange} {out : DisasmOutput}
    (hout : disassemble settings image ranges = .ok out) :
    (out.ir.map fun ins => ins.address).Nodup ∧
      ∀ ins ∈ out.ir, ∃ bytes ip, ins = (settings.decoder.decode bytes ip).lifted := by
  obtain ⟨s, hs, rfl⟩ : ∃ s, Disassembly.sweepRanges settings image ranges
      Disassembly.initial = .ok s ∧ out = _ := by
    rw [disassemble] at hout
    cases hs : Disassembly.sweepRanges settings image ranges Disassembly.initial with
    | error fault =>
      rw [hs] at hout
      cases hout
    | ok s =>
      rw [hs] at hout
      exact ⟨s, rfl, (Except.ok.inj hout).symm⟩
  have hinitial : Distinct settings Disassembly.initial := ⟨List.nodup_nil,
    fun _ h => absurd h List.not_mem_nil, fun _ h => absurd h List.not_mem_nil⟩
  have h : Distinct settings s := hinitial.sweepRanges hs
  have hperm : (sortBy (fun ir : LiftedInstruction => ir.address) s.ir).Perm s.ir :=
    List.mergeSort_perm _ _
  exact ⟨(hperm.map _).nodup_iff.mpr h.nodup, fun ins hins => h.decoded ins (hperm.mem_iff.mp hins)⟩

end

/-- The names of calls and jumps are not names of instructions that write what comes first. -/
def NamesControlFlow (decoder : Decoder) : Prop :=
  ∀ bytes ip, (decoder.decode bytes ip).isCall = true ∨ (decoder.decode bytes ip).isJump = true →
    writesFirstOperand (decoder.decode bytes ip).mnemonic = false

section
variable {d : Decoded} {decoding : Decoding}

theorem foldl_liftOperand_memoryWrite {instr : Instruction} {mnemonic : String}
    (hwrites : writesFirstOperand mnemonic = false) (operands : List (Operand × Nat))
    (ir : LiftedInstruction) :
    (operands.foldl (liftOperand instr mnemonic) ir).memoryWrite = ir.memoryWrite := by
  induction operands generalizing ir with
  | nil => rfl
  | cons operand rest ih =>
    obtain ⟨kind, i⟩ := operand
    rw [List.foldl_cons, ih]
    cases kind <;> simp [liftOperand, hwrites]

theorem not_writes_of_name (hwrites : writesFirstOperand d.mnemonic = false) :
    ¬ Writes (fromIced d).toIrInstruction := by
  rintro (hmemory | hreg)
  · have hfalse : (fromIced d).memoryWrite = (liftHead d).memoryWrite :=
      foldl_liftOperand_memoryWrite hwrites _ _
    rw [hfalse] at hmemory
    cases hmemory
  · rw [fromIced_writeReg, hwrites] at hreg
    cases hreg

theorem isIndirect_lifted (h : isIndirect decoding.lifted = true) :
    decoding.isCall = true ∨ decoding.isJump = true := by
  obtain ⟨hflow, -⟩ := Bool.and_eq_true_iff.mp h
  have hjump : decoding.lifted.isJump = decoding.isJump :=
    congrArg (·.2.2.2.2.2.1) (fromIced_head (d := ⟨decoding.instr, decoding.mnemonic,
      decoding.isCall, decoding.isJump⟩))
  have hcall : decoding.lifted.isCall = decoding.isCall := fromIced_isCall
  rwa [hjump, hcall, Bool.or_eq_true] at hflow

end

section
variable {settings : Settings} {image : CodeImage} {ranges : List DisasmRange}
  {out : DisasmOutput} {pass : Pass}

/-- A value is written down where it is computed, never at a call or a jump, so the values of
the second pass resolve none of them. -/
theorem resolveIndirect_secondPass (hnames : NamesControlFlow settings.decoder)
    (hout : disassemble settings image ranges = .ok out) (hir : pass.ir = out.ir)
    (functions : List FunctionRecord) (imports : List Pe.ImportRecord) :
    resolveIndirect functions pass.ir pass.analyzeTargetsWithCfg imports = [] := by
  obtain ⟨hnodup, hdecoded⟩ := disassemble_distinct hout
  rw [← hir] at hnodup hdecoded
  refine List.eq_nil_iff_forall_not_mem.mpr fun r hr => ?_
  rw [resolveIndirect_eq, List.mem_filterMap] at hr
  obtain ⟨ins, hins, hsite⟩ := hr
  obtain ⟨hindirect, function, -, reg, row, target, -, -, hbest, htarget, -, -⟩ :=
    (resolveSite_eq_some hins).mp hsite
  obtain ⟨hrow, hkey⟩ := List.mem_filter.mp hbest.mem
  have hva : row.siteVa = ins.address :=
    congrArg (fun key : SiteKey => (ofLex (ofLex key).2).1) (of_decide_eq_true hkey)
  have hsited := analyzeTargets_sited row (List.mem_filter.mp hrow).1
  rcases hsited with hnone | ⟨writer, hwriter, heq, hw⟩
  · rw [hnone] at htarget
    cases htarget
  · -- the writer has the address of the call, so it is the call
    obtain ⟨other, hother, rfl⟩ := List.mem_map.mp hwriter
    have hsame : other = ins := List.inj_on_of_nodup_map hnodup hother hins (heq.trans hva)
    obtain ⟨bytes, ip, rfl⟩ := hdecoded ins hins
    rw [hsame] at hw
    exact not_writes_of_name (hnames bytes ip (isIndirect_lifted hindirect)) hw

end

def callRax (ip len : Nat) : Decoding where
  instr := ⟨ip, len, [.register (.general .rax .qword)], none, none, 1, 0, 0, 0, none⟩
  text := "call rax"
  flow := .indirectCall

def leaRax (ip len : Nat) : Decoding where
  instr := ⟨ip, len, [.register (.general .rax .qword), .memory], none, none, 1, 0, 8, 0,
    some 0x402000⟩
  text := "lea rax, [rel 402000h]"
  flow := .next

/-- A decoder of an address load and of the call of what was loaded, of one byte each. -/
def leaCall : Decoder where
  decode bytes ip :=
    if bytes.head? = some 0xFF then callRax ip (min 1 bytes.length)
    else leaRax ip (min 1 bytes.length)
  ip_eq bytes ip := by split <;> rfl
  len_pos bytes ip h := by
    split <;> exact Nat.lt_min.mpr ⟨Nat.one_pos, List.length_pos_iff.mpr h⟩
  len_le bytes ip := by split <;> exact Nat.min_le_right ..

theorem leaCall_names : NamesControlFlow leaCall := by
  intro bytes ip
  have hdecode : leaCall.decode bytes ip = if bytes.head? = some 0xFF
    then callRax ip (min 1 bytes.length) else leaRax ip (min 1 bytes.length) := rfl
  rw [hdecode]
  split
  · have hname : splitInstruction "call rax" = ("call", "rax") := by decide
    rw [Decoding.mnemonic, callRax, hname]
    exact fun _ => rfl
  · rintro (h | h) <;> cases h

def loadAndCall : CodeImage where
  entryVa := 0x401000
  sections := [⟨".text", 0x1000, 0x401000, 2, 0, 2, 2, true, (0, 2)⟩]
  sectionForVa _ := none
  bytes := [0x8D, 0xFF]

/-- The whole listing is one function, which is a target. -/
def loadAndCallPass (ir : List LiftedInstruction) : Pass where
  functions := [⟨0x401000, 0x401002, 2, "entry", [], by decide⟩]
  slices := [⟨0, 0x401000, 0x401002, (0, 2), (0, 2), (0, 0), none, false, false⟩]
  ir := ir
  cfg := []
  strings := []
  targets := [⟨"t", 0x401000, "r", 1, "u", "s", []⟩]
  budgetName := "normal"

theorem resolveIndirect_secondPass_loadAndCall : ∃ out,
    disassemble ⟨leaCall, .empty, .empty, 8, 8⟩ loadAndCall [⟨0x1000, 0x401000, 0x401002⟩] =
        .ok out ∧
      resolveIndirect (loadAndCallPass out.ir).functions out.ir
        (loadAndCallPass out.ir).analyzeTargetsWithCfg [] = [] := by
  obtain ⟨out, hout⟩ : ∃ out, disassemble ⟨leaCall, .empty, .empty, 8, 8⟩ loadAndCall
    [⟨0x1000, 0x401000, 0x401002⟩] = .ok out := ⟨_, rfl⟩
  have hir : (loadAndCallPass out.ir).ir = out.ir := rfl
  exact ⟨out, hout, resolveIndirect_secondPass leaCall_names hout hir _ []⟩

end Axe.Static.IndirectTargets
