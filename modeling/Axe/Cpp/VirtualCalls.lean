import Mathlib.Data.Prod.Lex
import Mathlib.Order.WithBot
import Axe.Cpp.Thunks
import Axe.Lib.Unions
import Axe.Pe.Rtti
import Axe.Static.ImportCalls

/-!
# Calls of virtual methods

A call through a register that a pointer was loaded into before is taken for one of a method of
the virtual tables. Nothing takes a register out of the set again.
-/
namespace Axe.Cpp.VirtualCalls

open Axe.Pe (VTableRecord)
open Axe.Static
open Axe.Static.ImportCalls (CallAt ChangesAt ListedChange callThroughRax listedChange_plainChanges
  plainChanges volatileRegisters)
open Axe.Unions

structure SecondPassTargetRecord where
  function : Nat
  deriving DecidableEq

structure ResolvedCallRecord where
  caller : Nat
  callsite : Nat
  originalCallee : Nat
  resolvedApi : String
  wrapperChain : List Nat
  chainDepth : Nat
  confidence : String
  resolutionKind : Option String
  classId : Option String
  vtableVa : Option Nat
  vtableSlot : Option Nat
  target : Option Nat
  candidateTargets : List Nat
  candidateClasses : List String
  deriving DecidableEq

/-- The tables by the slots that they have, up to 128. -/
def methodsBySlot (vtables : List VTableRecord) : OrderedMap Nat (List VTableRecord) :=
  (vtables.flatMap fun table =>
      (List.range (min table.methods.length 128)).map fun slot => (slot, table)).foldl
    (fun m row => m.upsert row.1 fun tables => tables.getD [] ++ [row.2]) .empty

/-- The tables whose owner is known, when there are some. -/
def candidateSet (candidates : List VTableRecord) : List VTableRecord :=
  let owned := candidates.filter fun table => table.ownershipConfidence ≠ "low"
  if owned.isEmpty then candidates else owned

def ambiguousRow (caller callsite slot : Nat) (tables : List VTableRecord) :
    Option ResolvedCallRecord :=
  let targets := sortedSet (tables.filterMap fun table => table.methods[slot]?)
  if targets.isEmpty then none
  else some {
    caller, callsite
    originalCallee := 0
    resolvedApi := "virtual:ambiguous::slot_" ++ toString slot
    wrapperChain := []
    chainDepth := 0
    confidence := "low"
    resolutionKind := some "ambiguous_virtual_dispatch"
    classId := none
    vtableVa := none
    vtableSlot := some slot
    target := none
    candidateTargets := targets
    candidateClasses := sortedSet (tables.map fun table =>
      table.probableClass.getD ("vtable:" ++ upperHex 16 table.va)) }

def targetRow (caller callsite slot : Nat) (table : VTableRecord) : Option ResolvedCallRecord :=
  table.methods[slot]?.map fun target =>
    { caller, callsite
      originalCallee := 0
      resolvedApi := "virtual:" ++ table.probableClass.getD "unknown_class" ++ "::slot_" ++
        toString slot
      wrapperChain := []
      chainDepth := 0
      confidence := if table.ownershipConfidence = "high" then "high" else "medium"
      resolutionKind := some "virtual_dispatch"
      classId := some ("class:" ++ upperHex 16 table.va)
      vtableVa := some table.va
      vtableSlot := some slot
      target := some target
      candidateTargets := []
      candidateClasses := [] }

def slotRow (slots : OrderedMap Nat (List VTableRecord)) (caller callsite slot : Nat) :
    Option ResolvedCallRecord :=
  (slots.get slot).bind fun candidates =>
    match candidateSet candidates with
    | [table] => targetRow caller callsite slot table
    | tables => ambiguousRow caller callsite slot tables

/-- The register that an instruction is taken to load a pointer into, and where from. -/
def vtableLoad (ins : LiftedInstruction) : Option (String × String) :=
  if ins.memoryRead && !ins.memoryWrite && ins.memoryDisplacement = 0 && ins.memoryIndex.isNone then
    ins.writeReg.bind fun write => ins.memoryBase.map fun base => (write, base)
  else none

def trackVtable (regs : OrderedMap String String) (ins : LiftedInstruction) :
    OrderedMap String String :=
  (vtableLoad ins).elim regs fun load => regs.insert load.1 load.2

/-- The register and the slot that a call goes through, when a pointer was loaded. -/
def callSlot (regs : OrderedMap String String) (ins : LiftedInstruction) : Option (String × Nat) :=
  if ins.isCall && ins.indirectTargetMemory then
    (ins.memoryBase.filter fun base => (regs.get base).isSome).bind fun base =>
      if ins.memoryDisplacement < 0 ∨ ins.memoryDisplacement % 8 ≠ 0 then none
      else some (base, (ins.memoryDisplacement / 8).toNat)
  else none

def callRow (slots : OrderedMap Nat (List VTableRecord)) (caller : Nat)
    (regs : OrderedMap String String) (ins : LiftedInstruction) : Option ResolvedCallRecord :=
  (callSlot regs ins).bind fun call => slotRow slots caller ins.address call.2

def sliceRows (slots : OrderedMap Nat (List VTableRecord)) (caller : Nat) :
    OrderedMap String String → List LiftedInstruction → List ResolvedCallRecord
  | _, [] => []
  | regs, ins :: rest =>
    let regs := trackVtable regs ins
    (callRow slots caller regs ins).toList ++ sliceRows slots caller regs rest

/-- The rows are sorted by caller, call site, table and slot; what is missing comes first. -/
def rowKey (row : ResolvedCallRecord) : Nat ×ₗ Nat ×ₗ WithBot Nat ×ₗ WithBot Nat :=
  toLex (row.caller, toLex (row.callsite,
    toLex ((row.vtableVa : WithBot Nat), (row.vtableSlot : WithBot Nat))))

def resolveVirtualCalls (functions : List FunctionRecord) (slices : List FunctionSemanticSlice)
    (ir : List LiftedInstruction) (vtables : List VTableRecord)
    (targets : List SecondPassTargetRecord) : List ResolvedCallRecord :=
  sortBy rowKey <| slices.flatMap fun slice =>
    match functions[slice.functionIndex]? with
    | none => []
    | some function =>
      if !targets.isEmpty && !(targets.map (·.function)).contains function.start then []
      else sliceRows (methodsBySlot vtables) function.start .empty (slice.part ir)

section Candidates
variable {vtables tables : List VTableRecord} {table : VTableRecord} {slot : Nat}

/-- A table that a call through a slot may go through: one that has the slot, of a known owner
when there are such. -/
def Candidate (vtables : List VTableRecord) (slot : Nat) (table : VTableRecord) : Prop :=
  table ∈ vtables ∧ slot < table.methods.length ∧
    (table.ownershipConfidence ≠ "low" ∨
      ∀ other ∈ vtables, slot < other.methods.length → other.ownershipConfidence = "low")

theorem foldl_push (rows : List (Nat × VTableRecord)) (tables : List VTableRecord) :
    rows.foldl (fun v row => some (v.getD [] ++ [row.2])) (some tables) =
      some (tables ++ rows.map Prod.snd) := by
  induction rows generalizing tables with
  | nil => rw [List.foldl_nil, List.map_nil, List.append_nil]
  | cons row rows ih =>
    rw [List.foldl_cons, Option.getD_some, ih, List.map_cons, List.append_assoc,
      List.singleton_append]

theorem filter_range_eq (n slot : Nat) :
    ((List.range n).filter fun i => i = slot) = if slot < n then [slot] else [] := by
  induction n with
  | zero => rfl
  | succ n ih =>
    rw [List.range_succ, List.filter_append, ih]
    rcases Nat.lt_trichotomy slot n with hlt | rfl | hlt
    · rw [if_pos hlt, if_pos (Nat.lt_succ_of_lt hlt), List.filter_singleton,
        decide_eq_false (Nat.ne_of_gt hlt)]
      rfl
    · rw [if_neg (Nat.lt_irrefl _), if_pos (Nat.lt_succ_self _), List.filter_singleton,
        decide_eq_true rfl]
      rfl
    · rw [if_neg (Nat.lt_asymm hlt), if_neg (by omega), List.filter_singleton,
        decide_eq_false (Nat.ne_of_lt hlt)]
      rfl

/-- The tables with a slot, in their order. -/
theorem filter_rows (vtables : List VTableRecord) (slot : Nat) :
    ((vtables.flatMap fun table =>
        (List.range (min table.methods.length 128)).map fun i => (i, table)).filter
      fun row => row.1 = slot).map Prod.snd =
        vtables.filter fun table => slot < min table.methods.length 128 := by
  induction vtables with
  | nil => rfl
  | cons table rest ih =>
    have hhead : (((List.range (min table.methods.length 128)).map fun i => (i, table)).filter
        fun row => row.1 = slot).map Prod.snd =
          if slot < min table.methods.length 128 then [table] else [] := by
      rw [List.filter_map, List.map_map]
      have hfun : (fun row : Nat × VTableRecord => decide (row.1 = slot)) ∘ (fun i => (i, table)) =
          fun i => decide (i = slot) := rfl
      rw [hfun, filter_range_eq]
      split <;> rfl
    rw [List.flatMap_cons, List.filter_append, List.map_append, hhead, ih, List.filter_cons]
    split <;> rename_i h
    · rw [if_pos (decide_eq_true h), List.singleton_append]
    · rw [if_neg (by simpa using h), List.nil_append]

/-- What the index has for a slot are the tables with it. -/
theorem methodsBySlot_get (h : (methodsBySlot vtables).get slot = some tables) :
    tables = vtables.filter fun table => slot < table.methods.length := by
  rw [methodsBySlot, OrderedMap.get_foldl_upsert Prod.fst
    (fun row v => v.getD [] ++ [row.2]), OrderedMap.get_empty] at h
  have hrows := filter_rows vtables slot
  cases hfilter : (vtables.flatMap fun table =>
      (List.range (min table.methods.length 128)).map fun i => (i, table)).filter
        fun row => row.1 = slot with
  | nil =>
    rw [hfilter] at h
    cases h
  | cons row rows =>
    rw [hfilter, List.foldl_cons, Option.getD_none, List.nil_append, foldl_push,
      Option.some.injEq, List.singleton_append] at h
    rw [hfilter, List.map_cons, h] at hrows
    rw [hrows]
    have hmem : row.2 ∈ vtables.filter fun table => slot < min table.methods.length 128 := by
      rw [← hrows, ← h]
      exact List.mem_cons_self
    have hlt := of_decide_eq_true (List.mem_filter.mp hmem).2
    refine List.filter_congr fun table _ => decide_eq_decide.mpr ?_
    omega

theorem mem_candidateSet :
    table ∈ candidateSet (vtables.filter fun table => slot < table.methods.length) ↔
      Candidate vtables slot table := by
  simp only [candidateSet, Candidate]
  split <;> rename_i hempty
  · rw [List.isEmpty_iff, List.filter_eq_nil_iff] at hempty
    have hlow : ∀ other ∈ vtables, slot < other.methods.length →
        other.ownershipConfidence = "low" := by
      intro other hother hslot
      simpa using hempty other (List.mem_filter.mpr ⟨hother, decide_eq_true hslot⟩)
    simp only [List.mem_filter, decide_eq_true_eq]
    exact ⟨fun ⟨hmem, hslot⟩ => ⟨hmem, hslot, .inr hlow⟩,
      fun ⟨hmem, hslot, _⟩ => ⟨hmem, hslot⟩⟩
  · rw [List.isEmpty_iff] at hempty
    obtain ⟨other, hother⟩ := List.exists_mem_of_ne_nil _ hempty
    obtain ⟨hother, howned⟩ := List.mem_filter.mp hother
    obtain ⟨hother, hotherSlot⟩ := List.mem_filter.mp hother
    simp only [List.mem_filter, decide_eq_true_eq]
    constructor
    · rintro ⟨⟨hmem, hslot⟩, howned⟩
      exact ⟨hmem, hslot, .inl howned⟩
    · rintro ⟨hmem, hslot, howned' | hlow⟩
      · exact ⟨⟨hmem, hslot⟩, howned'⟩
      · exact absurd (hlow other hother (of_decide_eq_true hotherSlot)) (of_decide_eq_true howned)

/-- What a row says of the method that is called: the only candidate's, or those of all
candidates. -/
structure Names (vtables : List VTableRecord) (slot : Nat) (row : ResolvedCallRecord) : Prop where
  vtableSlot : row.vtableSlot = some slot
  target : ∀ t, row.target = some t → ∃ table, (∀ other, Candidate vtables slot other ↔
    other = table) ∧ table.methods[slot]? = some t
  ambiguous : row.target = none → row.candidateTargets.Nodup ∧
    ∀ t, t ∈ row.candidateTargets ↔
      ∃ table, Candidate vtables slot table ∧ table.methods[slot]? = some t

theorem names_of_slotRow {caller callsite : Nat} {row : ResolvedCallRecord}
    (h : slotRow (methodsBySlot vtables) caller callsite slot = some row) :
    row.caller = caller ∧ row.callsite = callsite ∧ Names vtables slot row := by
  obtain ⟨tables, hget, hrow⟩ := Option.bind_eq_some_iff.mp h
  obtain rfl := methodsBySlot_get hget
  have hmem : ∀ other, other ∈ candidateSet
      (vtables.filter fun table => slot < table.methods.length) ↔ Candidate vtables slot other :=
    fun other => mem_candidateSet
  have hambiguous : ambiguousRow caller callsite slot (candidateSet
      (vtables.filter fun table => slot < table.methods.length)) = some row →
        row.caller = caller ∧ row.callsite = callsite ∧ Names vtables slot row := by
    intro hrow
    simp only [ambiguousRow] at hrow
    split at hrow
    · cases hrow
    · obtain rfl := Option.some.inj hrow
      refine ⟨rfl, rfl, rfl, fun t ht => absurd ht (Option.some_ne_none t).symm,
        fun _ => ⟨nodup_sortedSet _, fun t => ?_⟩⟩
      simp only [mem_sortedSet, List.mem_filterMap, hmem]
  split at hrow
  · rename_i table hset
    obtain ⟨t, ht, rfl⟩ := Option.map_eq_some_iff.mp hrow
    refine ⟨rfl, rfl, rfl, fun t' ht' => ⟨table, fun other => ?_, ?_⟩, fun hnone => ?_⟩
    · rw [← hmem, hset, List.mem_singleton]
    · rw [ht]
      exact ht'
    · cases hnone
  · exact hambiguous hrow

end Candidates

section Tracking
variable {regs : OrderedMap String String} {slice : List LiftedInstruction}
  {slots : OrderedMap Nat (List VTableRecord)} {reg : String} {caller c : Nat}
  {row : ResolvedCallRecord}

/-- The instruction at a position is taken for the load of a pointer. -/
def LoadsAt (slice : List LiftedInstruction) (reg : String) (m : Nat) : Prop :=
  ∃ ins base, slice[m]? = some ins ∧ vtableLoad ins = some (reg, base)

theorem trackVtable_get (ins : LiftedInstruction) :
    ((trackVtable regs ins).get reg).isSome = true ↔
      (regs.get reg).isSome = true ∨ ∃ base, vtableLoad ins = some (reg, base) := by
  rw [trackVtable]
  cases hload : vtableLoad ins with
  | none => simp
  | some load =>
    obtain ⟨write, base⟩ := load
    rw [Option.elim_some, OrderedMap.get_insert]
    split <;> rename_i h
    · subst h
      exact iff_of_true rfl (.inr ⟨base, rfl⟩)
    · refine ⟨.inl, fun hor => hor.resolve_right fun ⟨base', heq⟩ => ?_⟩
      simp only [Option.some.injEq, Prod.mk.injEq] at heq
      exact h heq.1.symm

/-- A register stays in the set from the first load on. -/
theorem foldl_trackVtable :
    ((slice.foldl trackVtable regs).get reg).isSome = true ↔
      (regs.get reg).isSome = true ∨ ∃ ins ∈ slice, ∃ base, vtableLoad ins = some (reg, base) := by
  induction slice generalizing regs with
  | nil => simp
  | cons ins rest ih =>
    rw [List.foldl_cons, ih, trackVtable_get, or_assoc]
    simp only [List.mem_cons, exists_eq_or_imp]

theorem foldl_trackVtable_take :
    (((slice.take c).foldl trackVtable .empty).get reg).isSome = true ↔
      ∃ m < c, LoadsAt slice reg m := by
  rw [foldl_trackVtable, OrderedMap.get_empty, Option.isSome_none]
  simp only [Bool.false_eq_true, false_or, LoadsAt]
  constructor
  · rintro ⟨ins, hmem, base, hload⟩
    obtain ⟨m, hm, heq⟩ := List.mem_take_iff_getElem.mp hmem
    exact ⟨m, by omega, ins, base, by rw [List.getElem?_eq_getElem (by omega), heq], hload⟩
  · rintro ⟨m, hm, ins, base, hins, hload⟩
    refine ⟨ins, ?_, base, hload⟩
    rw [List.mem_iff_getElem?]
    exact ⟨m, by rw [List.getElem?_take_of_lt hm, hins]⟩

theorem mem_sliceRows :
    row ∈ sliceRows slots caller regs slice ↔ ∃ c ins, slice[c]? = some ins ∧
      callRow slots caller ((slice.take (c + 1)).foldl trackVtable regs) ins = some row := by
  induction slice generalizing regs with
  | nil => simp [sliceRows]
  | cons ins rest ih =>
    rw [sliceRows, List.mem_append, Option.mem_toList, ih]
    constructor
    · rintro (hrow | ⟨c, ins', hins', hrow⟩)
      · exact ⟨0, ins, rfl, hrow⟩
      · exact ⟨c + 1, ins', hins', hrow⟩
    · rintro ⟨c, ins', hins', hrow⟩
      cases c with
      | zero =>
        obtain rfl := Option.some.inj hins'
        exact .inl hrow
      | succ c => exact .inr ⟨c, ins', hins', hrow⟩

end Tracking

section Calls
variable {functions : List FunctionRecord} {slices : List FunctionSemanticSlice}
  {vtables : List VTableRecord} {targets : List SecondPassTargetRecord}
  {ir : List LiftedInstruction} {slice : FunctionSemanticSlice} {c : Nat}
  {row : ResolvedCallRecord}

/-- The call at a position of a slice gives a row. -/
def RowAt (functions : List FunctionRecord) (vtables : List VTableRecord)
    (targets : List SecondPassTargetRecord) (ir : List LiftedInstruction)
    (slice : FunctionSemanticSlice) (c : Nat) (row : ResolvedCallRecord) : Prop :=
  ∃ function ins, functions[slice.functionIndex]? = some function ∧
    (targets = [] ∨ ∃ target ∈ targets, target.function = function.start) ∧
    (slice.part ir)[c]? = some ins ∧
    callRow (methodsBySlot vtables) function.start
      (((slice.part ir).take (c + 1)).foldl trackVtable .empty) ins = some row

theorem isTarget_iff {start : Nat} :
    (!targets.isEmpty && !(targets.map (·.function)).contains start) = false ↔
      targets = [] ∨ ∃ target ∈ targets, target.function = start := by
  rw [Bool.and_eq_false_iff, Bool.not_eq_false', Bool.not_eq_false', List.isEmpty_iff,
    List.contains_iff_mem, List.mem_map]

/-- The rows are those of the calls of the slices. -/
theorem mem_resolveVirtualCalls :
    row ∈ resolveVirtualCalls functions slices ir vtables targets ↔
      ∃ slice ∈ slices, ∃ c, RowAt functions vtables targets ir slice c row := by
  rw [resolveVirtualCalls, (sorts_sortBy _).mem_iff, List.mem_flatMap]
  refine exists_congr fun slice => and_congr_right fun _ => ?_
  cases hfunction : functions[slice.functionIndex]? with
  | none =>
    refine iff_of_false List.not_mem_nil ?_
    rintro ⟨c, function, ins, hget, -⟩
    rw [hfunction] at hget
    cases hget
  | some function =>
    have hrow : (∃ c, RowAt functions vtables targets ir slice c row) ↔
        (targets = [] ∨ ∃ target ∈ targets, target.function = function.start) ∧
          row ∈ sliceRows (methodsBySlot vtables) function.start .empty (slice.part ir) := by
      rw [mem_sliceRows]
      constructor
      · rintro ⟨c, function', ins, hget, hor, hins, hrow⟩
        obtain rfl := Option.some.inj (hfunction.symm.trans hget)
        exact ⟨hor, c, ins, hins, hrow⟩
      · rintro ⟨hor, c, ins, hins, hrow⟩
        exact ⟨c, function, ins, hfunction, hor, hins, hrow⟩
    rw [hrow, ← isTarget_iff]
    dsimp only
    split <;> rename_i hskip
    · rw [hskip]
      exact iff_of_false List.not_mem_nil fun h => Bool.false_ne_true h.1.symm
    · rw [Bool.not_eq_true] at hskip
      exact ⟨fun h => ⟨hskip, h⟩, fun h => h.2⟩

end Calls

section Meaning
variable (changes : Decoded → String → Prop) {code : List Decoded} {reg : String} {c : Nat}
  {d : Decoded}

/-- The call is `call [reg + 8 * slot]`. -/
structure CallsThrough (d : Decoded) (reg : String) (slot : Nat) : Prop where
  isCall : d.isCall = true
  operand : d.instr.operands.head? = some .memory
  base : d.instr.memoryBase.map normalizeRegister = some reg
  displacement : asI64 d.instr.memoryDisplacement64 = 8 * slot

/-- The instruction at a position changes a register, or calls what may clobber it. -/
def ChangedAt (code : List Decoded) (reg : String) (m : Nat) : Prop :=
  ChangesAt changes code reg m ∨ volatileRegisters.contains reg = true ∧ CallAt code m

/-- `mov reg, [base]`, a load of all of a general register. -/
def LoadsPointer (d : Decoded) (reg : String) : Prop :=
  d.mnemonic = "mov" ∧ d.instr.memoryBase ≠ none ∧ d.instr.memoryIndex = none ∧
    d.instr.memoryDisplacement64 = 0 ∧
    ∃ r, d.instr.operands = [.register (.general r .qword), .memory] ∧ generalName r = reg

/-- What changed a register last is the load of a pointer. -/
def LivePointer (code : List Decoded) (reg : String) (c : Nat) : Prop :=
  ∃ b e, LastBefore (ChangedAt changes code reg) c b ∧ code[b]? = some e ∧ LoadsPointer e reg

variable {changes}

theorem LoadsPointer.loadsAt (hd : code[c]? = some d) (h : LoadsPointer d reg) :
    LoadsAt (code.map fromIced) reg c := by
  obtain ⟨hname, hbase, hindex, hdisplacement, r, hops, rfl⟩ := h
  obtain ⟨base, hbase⟩ := Option.ne_none_iff_exists'.mp hbase
  refine ⟨fromIced d, normalizeRegister base, by rw [List.getElem?_map, hd, Option.map_some], ?_⟩
  have hzero : asI64 0 = 0 := by decide
  simp [vtableLoad, fromIced, hops, liftOperand, liftHead, hname, hbase, hindex, hdisplacement,
    writesFirstOperand, hzero, normalizeRegister]

theorem LoadsAt.changesAt (hlisted : ListedChange changes) {m : Nat}
    (h : LoadsAt (code.map fromIced) reg m) : ChangesAt changes code reg m := by
  obtain ⟨ins, base, hins, hload⟩ := h
  refine ChangesAt.of_writesAt hlisted ⟨ins, hins, ?_⟩
  rw [vtableLoad] at hload
  split at hload
  · obtain ⟨write, hw, hload⟩ := Option.bind_eq_some_iff.mp hload
    obtain ⟨base', -, heq⟩ := Option.map_eq_some_iff.mp hload
    rw [hw, (Prod.mk.inj heq).1]
  · cases hload

/-- A call through memory is not taken for a load. -/
theorem not_loadsAt_call (hd : code[c]? = some d) (h : d.instr.operands.head? = some .memory) :
    ¬ LoadsAt (code.map fromIced) reg c := by
  rintro ⟨ins, base, hins, hload⟩
  rw [List.getElem?_map, hd, Option.map_some, Option.some.injEq] at hins
  subst hins
  have hnone : (fromIced d).writeReg = none := by
    rw [fromIced_writeReg, h]
    exact ite_self none
  rw [vtableLoad, hnone, Option.bind_none, ite_self] at hload
  cases hload

/-- A call that is looked at is through a register that a load comes before. -/
theorem callsThrough_of_callSlot {regs : OrderedMap String String} {slot : Nat}
    (h : callSlot regs (fromIced d) = some (reg, slot)) :
    CallsThrough d reg slot ∧ (regs.get reg).isSome = true := by
  rw [callSlot] at h
  split at h
  · rename_i hcall
    rw [Bool.and_eq_true, fromIced_isCall] at hcall
    have hoperand := head?_of_indirectTargetMemory hcall.2
    have hmemory : (fromIced d).memoryBase = d.instr.memoryBase.map normalizeRegister ∧
        (fromIced d).memoryDisplacement = asI64 d.instr.memoryDisplacement64 := by
      obtain ⟨rest, hops⟩ := List.head?_eq_some_iff.mp hoperand
      refine foldl_liftOperand_memory (.inr ⟨0, ?_⟩)
      rw [hops, List.zipIdx_cons]
      exact List.mem_cons_self
    obtain ⟨base, hbase, hslot⟩ := Option.bind_eq_some_iff.mp h
    obtain ⟨hbase, hregs⟩ := Option.filter_eq_some_iff.mp hbase
    rw [hmemory.1] at hbase
    rw [hmemory.2] at hslot
    split at hslot
    · cases hslot
    · rename_i hbounds
      obtain ⟨rfl, rfl⟩ := Prod.mk.inj (Option.some.inj hslot)
      exact ⟨⟨hcall.1, hoperand, hbase, by omega⟩, hregs⟩
  · cases h

/-- The pointer is live exactly if the last instruction that was taken for its load is one, and
nothing changes the register between it and the call. -/
theorem livePointer_iff (hlisted : ListedChange changes) {b : Nat} {e : Decoded}
    (hlast : LastBefore (LoadsAt (code.map fromIced) reg) c b) (he : code[b]? = some e) :
    LivePointer changes code reg c ↔
      LoadsPointer e reg ∧ ∀ m, b < m → m < c → ¬ ChangedAt changes code reg m := by
  have hchanged : ChangedAt changes code reg b := .inl (hlast.holds.changesAt hlisted)
  constructor
  · rintro ⟨b', e', hlast', he', hloads⟩
    have heq : b' = b := by
      rcases Nat.lt_trichotomy b' b with hlt | heq | hlt
      · exact absurd hchanged (hlast'.last b hlt hlast.lt)
      · exact heq
      · exact absurd (hloads.loadsAt he') (hlast.last b' hlt hlast'.lt)
    subst heq
    obtain rfl := Option.some.inj (he.symm.trans he')
    exact ⟨hloads, hlast'.last⟩
  · rintro ⟨hloads, hkept⟩
    exact ⟨b, e, ⟨hlast.lt, hchanged, hkept⟩, he, hloads⟩

/-- The rows are those of calls through registers, and their methods are of the candidates. The
pointer in the register is live exactly if the last instruction that was taken for its load is
one, and nothing changes the register between it and the call. -/
theorem resolveVirtualCalls_live_iff (hlisted : ListedChange changes)
    (functions : List FunctionRecord) (slices : List FunctionSemanticSlice) (code : List Decoded)
    (vtables : List VTableRecord) (targets : List SecondPassTargetRecord) :
    (∀ row, row ∈ resolveVirtualCalls functions slices (code.map fromIced) vtables targets ↔
      ∃ slice ∈ slices, ∃ c, RowAt functions vtables targets (code.map fromIced) slice c row) ∧
    ∀ slice c row, RowAt functions vtables targets (code.map fromIced) slice c row →
      ∃ function d reg slot b e, functions[slice.functionIndex]? = some function ∧
        (slice.part code)[c]? = some d ∧ CallsThrough d reg slot ∧
        row.caller = function.start ∧ row.callsite = d.instr.ip ∧ Names vtables slot row ∧
        LastBefore (LoadsAt ((slice.part code).map fromIced) reg) c b ∧
        (slice.part code)[b]? = some e ∧
        (LivePointer changes (slice.part code) reg c ↔
          LoadsPointer e reg ∧
            ∀ m, b < m → m < c → ¬ ChangedAt changes (slice.part code) reg m) := by
  refine ⟨fun row => mem_resolveVirtualCalls, fun slice c row hrow => ?_⟩
  obtain ⟨function, ins, hfunction, -, hins, hrow⟩ := hrow
  rw [slice.part_map] at hins hrow
  rw [List.getElem?_map, Option.map_eq_some_iff] at hins
  obtain ⟨d, hd, rfl⟩ := hins
  obtain ⟨⟨reg, slot⟩, hcall, hslot⟩ := Option.bind_eq_some_iff.mp hrow
  obtain ⟨hthrough, hregs⟩ := callsThrough_of_callSlot hcall
  obtain ⟨hcaller, hcallsite, hnames⟩ := names_of_slotRow hslot
  rw [fromIced_address] at hcallsite
  obtain ⟨m, hm, hload⟩ := foldl_trackVtable_take.mp hregs
  have hlt : m < c := by
    refine Nat.lt_of_le_of_ne (Nat.le_of_lt_succ hm) fun heq => ?_
    subst heq
    exact not_loadsAt_call hd hthrough.operand hload
  obtain ⟨b, hlast⟩ := exists_lastBefore ⟨m, hlt, hload⟩
  obtain ⟨ins, -, hget, -⟩ := hlast.holds
  rw [List.getElem?_map, Option.map_eq_some_iff] at hget
  obtain ⟨e, he, -⟩ := hget
  exact ⟨function, d, reg, slot, b, e, hfunction, hd, hthrough, hcaller, hcallsite, hnames, hlast,
    he, livePointer_iff hlisted hlast he⟩

end Meaning

def caller : FunctionRecord where
  start := 0x1000
  stop := 0x100a
  size := 10
  source := "test"
  calls := []
  ordered := by decide

def table : VTableRecord where
  va := 0x3000
  rva := 0x2000
  sectionName := ".rdata"
  methodCount := 2
  methods := [0x1100, 0x1200]
  probableClass := none
  colVa := none
  classDescriptorVa := none
  baseClasses := []
  constructorCandidates := []
  ownershipConfidence := "low"

def callerSlice (stop : Nat) : FunctionSemanticSlice :=
  ⟨0, caller.start, caller.stop, (0, stop), (0, stop), (0, 0), none, false, false⟩

/-- `mov rax, qword ptr [rcx]` -/
def loadTable : Decoded :=
  ⟨⟨0x1000, 3, [.register (.general .rax .qword), .memory], some (.general .rcx .qword), none, 1, 0,
    8, 0, none⟩, "mov", false, false⟩

/-- `mov rax, rbx` -/
def copyRbx : Decoded :=
  ⟨⟨0x1003, 3, [.register (.general .rax .qword), .register (.general .rbx .qword)], none, none, 1,
    0, 0, 0, none⟩, "mov", false, false⟩

theorem loadsPointer_loadTable : LoadsPointer loadTable "rax" :=
  ⟨rfl, Option.some_ne_none _, rfl, rfl, .rax, rfl, rfl⟩

theorem livePointer_loadTable : LivePointer plainChanges [loadTable, callThroughRax] "rax" 1 := by
  have hsome : (callRow (methodsBySlot [table]) caller.start
      (([loadTable, callThroughRax].map fromIced).foldl trackVtable .empty)
      (fromIced callThroughRax)).isSome = true := by decide +kernel
  obtain ⟨row, hrow⟩ := Option.isSome_iff_exists.mp hsome
  obtain ⟨-, d, reg, slot, b, e, -, hd, hthrough, -, -, -, hlast, he, hiff⟩ :=
    (resolveVirtualCalls_live_iff listedChange_plainChanges [caller] [callerSlice 2]
      [loadTable, callThroughRax] [table] []).2 (callerSlice 2) 1 row
      ⟨caller, fromIced callThroughRax, rfl, .inl rfl, rfl, hrow⟩
  obtain rfl := Option.some.inj hd
  have hbase : some "rax" = some reg := hthrough.base
  obtain rfl := Option.some.inj hbase
  obtain rfl : b = 0 := Nat.lt_one_iff.mp hlast.lt
  obtain rfl := Option.some.inj he
  exact hiff.mpr ⟨loadsPointer_loadTable, fun m hlt hm => absurd hm (by omega)⟩

/-- The call is taken for one of the table that was loaded, when `rax` has been changed since. -/
theorem copyRbx_resolved :
    (∃ row ∈ resolveVirtualCalls [caller] [callerSlice 3]
        ([loadTable, copyRbx, callThroughRax].map fromIced) [table] [],
      row.callsite = callThroughRax.instr.ip) ∧
    CallsThrough callThroughRax "rax" 1 ∧
    ∀ changes, ListedChange changes →
      ¬ LivePointer changes [loadTable, copyRbx, callThroughRax] "rax" 2 := by
  refine ⟨?_, ⟨rfl, rfl, rfl, by decide⟩, fun changes hlisted => ?_⟩
  · have hsome : (callRow (methodsBySlot [table]) caller.start
        (([loadTable, copyRbx, callThroughRax].map fromIced).foldl trackVtable .empty)
        (fromIced callThroughRax)).any (fun row => row.callsite = 0x1007) = true := by
      decide +kernel
    obtain ⟨row, hrow, hsite⟩ := (Option.any_eq_true _ _).mp hsome
    exact ⟨row, mem_resolveVirtualCalls.mpr ⟨callerSlice 3, List.mem_singleton_self _, 2, caller,
      fromIced callThroughRax, rfl, .inl rfl, rfl, hrow⟩, of_decide_eq_true hsite⟩
  · rintro ⟨b, e, hlast, he, hloads⟩
    have hchanged : ChangedAt changes [loadTable, copyRbx, callThroughRax] "rax" 1 :=
      .inl ⟨copyRbx, rfl, hlisted copyRbx (.general .rax .qword) rfl rfl⟩
    obtain rfl | rfl : b = 0 ∨ b = 1 := by have := hlast.lt; omega
    · exact hlast.last 1 Nat.one_pos Nat.one_lt_two hchanged
    · obtain rfl := Option.some.inj he
      exact hloads.2.1 rfl

end Axe.Cpp.VirtualCalls
