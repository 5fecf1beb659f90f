import Axe.Lib.SortedSlices
import Axe.Static.Cfg
import Axe.Static.Disassembly

/-!
# The index of functions into the sorted rows

The rows of instructions, lifted code and references are sorted by address, and the index gives
every function the positions between which its own rows lie.
-/
namespace Axe.Static.SemanticIndex

open Axe.Static.Disassembly (XrefRecord)
open SortedSlices (SortedBy part rangeOf)

section
variable (functions : List FunctionRecord) (instructions : List Disassembly.InstructionRecord)
  (ir : List LiftedInstruction) (xrefs : List XrefRecord) (cfg : List CfgRecord)

def cfgByFunction : OrderedMap Nat Nat :=
  .ofList (cfg.zipIdx.map fun row => (row.1.function, row.2))

def overlapsPrevious (idx : Nat) (function : FunctionRecord) : Bool :=
  ((if idx = 0 then none else functions[idx - 1]?).map fun prev =>
    decide (function.start < prev.stop)).getD false

def overlapsNext (idx : Nat) (function : FunctionRecord) : Bool :=
  (functions[idx + 1]?.map fun next => decide (next.start < function.stop)).getD false

def sliceOf (function : FunctionRecord) (idx : Nat) : FunctionSemanticSlice :=
  let instructionRange :=
    rangeOf Disassembly.InstructionRecord.address instructions function.start function.stop
  { functionIndex := idx
    functionStart := function.start
    functionEnd := function.stop
    instructionRange
    irRange := rangeOf (fun row => row.address) ir function.start function.stop
    xrefRange := rangeOf XrefRecord.fromVa xrefs function.start function.stop
    cfgIndex := (cfgByFunction cfg).get function.start
    hasReturn := (part instructions instructionRange).any fun row => row.isRet
    overlapsKnownFunction := overlapsPrevious functions idx function ||
      overlapsNext functions idx function }

def build : List FunctionSemanticSlice :=
  functions.zipIdx.map fun row => sliceOf functions instructions ir xrefs cfg row.1 row.2

end

/-- An address between the bounds of a function. -/
def inFunction (function : FunctionRecord) (a : Nat) : Bool :=
  function.start ≤ a && a < function.stop

/-- The functions follow one another, and none reaches into another. -/
def DisjointFunctions (functions : List FunctionRecord) : Prop :=
  functions.Pairwise fun f g => f.stop ≤ g.start

/-- A slice tells where the rows of a function lie. -/
structure Indexes (instructions : List Disassembly.InstructionRecord)
    (ir : List LiftedInstruction) (xrefs : List XrefRecord) (cfg : List CfgRecord)
    (function : FunctionRecord) (slice : FunctionSemanticSlice) : Prop where
  bounds : (slice.functionStart, slice.functionEnd) = (function.start, function.stop)
  instructionRows : part instructions slice.instructionRange =
    instructions.filter fun row => inFunction function row.address
  irRows : part ir slice.irRange = ir.filter fun row => inFunction function row.address
  xrefRows : part xrefs slice.xrefRange =
    xrefs.filter fun xref => inFunction function xref.fromVa
  hasReturn : slice.hasReturn = true ↔
    ∃ row ∈ instructions, inFunction function row.address = true ∧ row.isRet = true
  cfgRow : ∀ i, slice.cfgIndex = some i → ∃ row, cfg[i]? = some row ∧ row.function = function.start
  noCfg : slice.cfgIndex = none → ∀ row ∈ cfg, row.function ≠ function.start

section
variable {functions : List FunctionRecord} {instructions : List Disassembly.InstructionRecord}
  {ir : List LiftedInstruction} {xrefs : List XrefRecord} {cfg : List CfgRecord}
  {slice : FunctionSemanticSlice} {function : FunctionRecord} {idx : Nat}

theorem mem_build : slice ∈ build functions instructions ir xrefs cfg ↔
    ∃ function idx, functions[idx]? = some function ∧
      slice = sliceOf functions instructions ir xrefs cfg function idx := by
  rw [build, List.mem_map]
  constructor
  · rintro ⟨row, hrow, rfl⟩
    exact ⟨row.1, row.2, List.mem_zipIdx_iff_getElem?.mp hrow, rfl⟩
  · rintro ⟨function, idx, hget, rfl⟩
    exact ⟨(function, idx), List.mem_zipIdx_iff_getElem?.mpr hget, rfl⟩

theorem part_xrefRange (hx : SortedBy XrefRecord.fromVa xrefs) :
    part xrefs (sliceOf functions instructions ir xrefs cfg function idx).xrefRange =
      xrefs.filter fun xref => inFunction function xref.fromVa :=
  SortedSlices.part_rangeOf hx function.ordered

theorem part_instructionRange
    (hi : SortedBy Disassembly.InstructionRecord.address instructions) :
    part instructions
        (sliceOf functions instructions ir xrefs cfg function idx).instructionRange =
      instructions.filter fun row => inFunction function row.address :=
  SortedSlices.part_rangeOf hi function.ordered

theorem part_irRange (hir : SortedBy (fun row => row.address) ir) :
    part ir (sliceOf functions instructions ir xrefs cfg function idx).irRange =
      ir.filter fun row => inFunction function row.address :=
  SortedSlices.part_rangeOf hir function.ordered

theorem hasReturn_iff (hi : SortedBy Disassembly.InstructionRecord.address instructions) :
    (sliceOf functions instructions ir xrefs cfg function idx).hasReturn = true ↔
      ∃ row ∈ instructions, inFunction function row.address = true ∧ row.isRet = true := by
  have hpart := @part_instructionRange functions _ ir xrefs cfg function idx hi
  have hslice : (sliceOf functions instructions ir xrefs cfg function idx).hasReturn =
      (part instructions (sliceOf functions instructions ir xrefs cfg function
        idx).instructionRange).any fun row => row.isRet := rfl
  rw [hslice, hpart, List.any_eq_true]
  simp only [List.mem_filter, and_assoc]

theorem overlapsNext_iff : overlapsNext functions idx function = true ↔
    ∃ next, functions[idx + 1]? = some next ∧ next.start < function.stop := by
  rw [overlapsNext]
  cases functions[idx + 1]? <;> simp

theorem overlapsPrevious_succ_iff : overlapsPrevious functions (idx + 1) function = true ↔
    ∃ prev, functions[idx]? = some prev ∧ function.start < prev.stop := by
  rw [overlapsPrevious, if_neg (Nat.succ_ne_zero idx), Nat.add_sub_cancel]
  cases functions[idx]? <;> simp

theorem overlapsPrevious_zero : overlapsPrevious functions 0 function = false := rfl

/-- Neighbours that do not meet are all there is to look at. -/
theorem disjointFunctions_iff : DisjointFunctions functions ↔
    ∀ idx f g, functions[idx]? = some f → functions[idx + 1]? = some g → f.stop ≤ g.start := by
  rw [DisjointFunctions]
  induction functions with
  | nil => simp
  | cons head rest ih =>
    rw [List.pairwise_cons, ih]
    constructor
    · rintro ⟨hhead, hrest⟩ idx f g hf hg
      cases idx with
      | zero =>
        rw [List.getElem?_cons_zero, Option.some.injEq] at hf
        rw [List.getElem?_cons_succ] at hg
        exact hf ▸ hhead g (List.mem_of_getElem? hg)
      | succ idx =>
        rw [List.getElem?_cons_succ] at hf hg
        exact hrest idx f g hf hg
    · intro h
      have hrest : ∀ idx f g, rest[idx]? = some f → rest[idx + 1]? = some g →
          f.stop ≤ g.start := fun idx f g hf hg => h (idx + 1) f g hf hg
      refine ⟨?_, hrest⟩
      cases rest with
      | nil => exact fun g hg => absurd hg List.not_mem_nil
      | cons second rest =>
        have hfirst : head.stop ≤ second.start := h 0 head second rfl rfl
        have hpair := List.pairwise_cons.mp (ih.mpr hrest)
        intro g hg
        rcases List.mem_cons.mp hg with rfl | hg
        · exact hfirst
        · exact Nat.le_trans hfirst (Nat.le_trans second.ordered (hpair.1 g hg))

/-- No slice is flagged exactly when no function reaches into any other. -/
theorem no_overlap_iff :
    (∀ slice ∈ build functions instructions ir xrefs cfg, slice.overlapsKnownFunction = false) ↔
      DisjointFunctions functions := by
  rw [disjointFunctions_iff]
  constructor
  · intro h idx f g hf hg
    have hflag := h _ (mem_build.mpr ⟨f, idx, hf, rfl⟩)
    have hnext := (Bool.or_eq_false_iff.mp hflag).2
    by_contra hlt
    have hover := overlapsNext_iff.mpr ⟨g, hg, Nat.not_le.mp hlt⟩
    rw [hnext] at hover
    exact absurd hover Bool.false_ne_true
  · intro h slice hslice
    obtain ⟨f, idx, hf, rfl⟩ := mem_build.mp hslice
    refine Bool.or_eq_false_iff.mpr ⟨?_, ?_⟩
    · cases idx with
      | zero => exact overlapsPrevious_zero
      | succ idx =>
        rw [← Bool.not_eq_true, overlapsPrevious_succ_iff]
        rintro ⟨prev, hprev, hlt⟩
        exact Nat.not_le_of_lt hlt (h idx prev f hprev hf)
    · rw [← Bool.not_eq_true, overlapsNext_iff]
      rintro ⟨next, hnext, hlt⟩
      exact Nat.not_le_of_lt hlt (h idx f next hf hnext)

theorem DisjointFunctions.countP_le (h : DisjointFunctions functions) (a : Nat) :
    (functions.countP fun f => inFunction f a) ≤ 1 := by
  refine Tiling.countP_le_one (h.imp fun {f g} hfg hf hg => ?_)
  rw [inFunction, Bool.and_eq_true, decide_eq_true_iff, decide_eq_true_iff] at hf hg
  omega

theorem cfgByFunction_some {va i : Nat} (h : (cfgByFunction cfg).get va = some i) :
    ∃ row, cfg[i]? = some row ∧ row.function = va := by
  obtain ⟨row, hrow, heq⟩ := List.mem_map.mp (OrderedMap.mem_of_get_ofList h)
  obtain ⟨hva, rfl⟩ := Prod.mk.inj heq
  exact ⟨row.1, List.mem_zipIdx_iff_getElem?.mp hrow, hva⟩

theorem cfgByFunction_none {va : Nat} (h : (cfgByFunction cfg).get va = none) :
    ∀ row ∈ cfg, row.function ≠ va := by
  rintro row hrow rfl
  obtain ⟨i, hget⟩ := List.getElem?_of_mem hrow
  have hpair : (row, i) ∈ cfg.zipIdx := List.mem_zipIdx_iff_getElem?.mpr hget
  obtain ⟨w, hw⟩ := OrderedMap.exists_get_ofList
    (List.mem_map_of_mem (f := fun row : CfgRecord × Nat => (row.1.function, row.2)) hpair)
  exact absurd (h.symm.trans hw) (by simp)

/-- Over sorted rows every slice tells exactly the rows of its function. No slice is flagged
exactly when the functions do not meet, and then no address is of two. -/
theorem build_indexes (hi : SortedBy Disassembly.InstructionRecord.address instructions)
    (hir : SortedBy (fun row => row.address) ir) (hx : SortedBy XrefRecord.fromVa xrefs) :
    List.Forall₂ (Indexes instructions ir xrefs cfg) functions
        (build functions instructions ir xrefs cfg) ∧
      ((∀ slice ∈ build functions instructions ir xrefs cfg,
        slice.overlapsKnownFunction = false) ↔ DisjointFunctions functions) ∧
      (DisjointFunctions functions → ∀ a, (functions.countP fun f => inFunction f a) ≤ 1) := by
  refine ⟨?_, no_overlap_iff, fun h => h.countP_le⟩
  rw [List.forall₂_iff_get, build]
  refine ⟨by rw [List.length_map, List.length_zipIdx], fun idx hidx hidx' => ?_⟩
  rw [List.get_eq_getElem, List.get_eq_getElem, List.getElem_map, List.getElem_zipIdx]
  exact ⟨rfl, part_instructionRange hi, part_irRange hir, part_xrefRange hx, hasReturn_iff hi,
    fun _ => cfgByFunction_some, cfgByFunction_none⟩

/-- A function that returns, and one that calls it and goes on elsewhere. -/
def twoFunctions : List FunctionRecord :=
  [⟨0x4000, 0x4002, 2, "pdata", [], by decide⟩, ⟨0x4010, 0x4012, 2, "call", [], by decide⟩]

def twoRows : List Disassembly.InstructionRecord :=
  [⟨0x4000, 1, "nop", "", ".text", [], false, false, false, none⟩,
    ⟨0x4001, 1, "ret", "", ".text", ["ret"], false, false, true, none⟩,
    ⟨0x4010, 1, "call", "0x4000", ".text", ["call"], true, false, false, some 0x4000⟩,
    ⟨0x4011, 1, "jmp", "0x2000", ".text", ["jump"], false, true, false, some 0x2000⟩]

def twoIr : List LiftedInstruction :=
  [0x4001, 0x4010, 0x4011].map fun ip =>
    fromIced ⟨⟨ip, 1, [], none, none, 1, 0, 0, 0, none⟩, "nop", false, false⟩

def twoXrefs : List XrefRecord :=
  [⟨"code", 0x4010, 0x4000, "call", none, none, none, some ".text"⟩]

def twoCfgs : List CfgRecord := [⟨0x4010, [], []⟩, ⟨0x4000, [], []⟩]

theorem build_indexes_two :
    List.Forall₂ (Indexes twoRows twoIr twoXrefs twoCfgs) twoFunctions
        (build twoFunctions twoRows twoIr twoXrefs twoCfgs) ∧
      build twoFunctions twoRows twoIr twoXrefs twoCfgs =
        [⟨0, 0x4000, 0x4002, (0, 2), (0, 1), (0, 0), some 1, true, false⟩,
          ⟨1, 0x4010, 0x4012, (2, 4), (1, 3), (0, 1), some 0, false, false⟩] ∧
      DisjointFunctions twoFunctions ∧
      ∀ a, (twoFunctions.countP fun f => inFunction f a) ≤ 1 := by
  have hsorted : SortedBy Disassembly.InstructionRecord.address twoRows := by
    rw [SortedBy]
    decide
  have hir : SortedBy (fun row => row.address) twoIr := by
    rw [SortedBy]
    decide
  obtain ⟨hindexes, hoverlaps, hcount⟩ :=
    @build_indexes twoFunctions twoRows twoIr twoXrefs twoCfgs hsorted hir
      (List.pairwise_singleton _ _)
  have hbuild : build twoFunctions twoRows twoIr twoXrefs twoCfgs =
      [⟨0, 0x4000, 0x4002, (0, 2), (0, 1), (0, 0), some 1, true, false⟩,
        ⟨1, 0x4010, 0x4012, (2, 4), (1, 3), (0, 1), some 0, false, false⟩] := by decide
  have hdisjoint : DisjointFunctions twoFunctions :=
    hoverlaps.mp fun slice hslice => by
      have hno : ∀ slice ∈ build twoFunctions twoRows twoIr twoXrefs twoCfgs,
          slice.overlapsKnownFunction = false := by
        rw [hbuild]
        decide
      exact hno slice hslice
  exact ⟨hindexes, hbuild, hdisjoint, hcount hdisjoint⟩

end
end Axe.Static.SemanticIndex
