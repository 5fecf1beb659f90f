import Axe.Concolic.OperandParser
import Axe.Lib.BestFirst
import Axe.Lib.OrderedMap
import Axe.Lib.Tiling
import Axe.Static.FileSections
import Axe.Static.Lifting

/-!
# Disassembling ranges

A sweep decodes the bytes of every range one instruction after another, keeps the first
instruction of each address and collects what the instructions refer to. One bound holds for the
instructions and another for the references. The decoder with its formatter is a parameter.
-/
namespace Axe.Static.Disassembly

open Axe.Concolic (isWhiteSpace trim)
open BestFirst (firsts)

inductive FlowControl
  | next | unconditionalBranch | indirectBranch | conditionalBranch | ret | call | indirectCall
  | interrupt | xbeginXabortXend | exception
  deriving DecidableEq

/-- An instruction as the decoder and the formatter tell of it. -/
structure Decoding where
  instr : Instruction
  text : String
  flow : FlowControl
  deriving DecidableEq

/-- The decoder reads the bytes that are left, at the address where they lie. -/
structure Decoder where
  decode : List UInt8 → Nat → Decoding
  ip_eq : ∀ bytes ip, (decode bytes ip).instr.ip = ip
  len_pos : ∀ bytes ip, bytes ≠ [] → 0 < (decode bytes ip).instr.len
  len_le : ∀ bytes ip, (decode bytes ip).instr.len ≤ bytes.length

structure CodeImage extends BinaryImage where
  bytes : List UInt8

def CodeImage.sectionByRva (image : CodeImage) (rva : Nat) : Option SectionRecord :=
  image.sections.find? fun sect => sect.rva = rva

structure DisasmRange where
  sectionRva : Nat
  start : Nat
  stop : Nat
  deriving DecidableEq

structure InstructionRecord where
  address : Nat
  size : Nat
  mnemonic : String
  opStr : String
  sect : String
  groups : List String
  isCall : Bool
  isJump : Bool
  isRet : Bool
  branchTarget : Option Nat
  deriving DecidableEq

structure XrefRecord where
  kind : String
  fromVa : Nat
  target : Nat
  role : String
  symbol : Option String
  text : Option String
  encoding : Option String
  sect : Option String
  deriving DecidableEq

structure DisasmOutput where
  instructions : List InstructionRecord
  ir : List LiftedInstruction
  xrefs : List XrefRecord
  directCodeTargets : List Nat
  capped : Bool

/-- What the disassembler is given beside the image and the ranges. -/
structure Settings where
  decoder : Decoder
  importSymbols : OrderedMap Nat String
  stringTexts : OrderedMap Nat String
  maxXrefs : Nat
  maxInstructions : Nat

/-- The mnemonic and the operands of a printed instruction. -/
def splitInstruction (text : String) : String × String :=
  let trimmed := trim text.toList
  match trimmed.dropWhile fun c => !isWhiteSpace c with
  | [] => (String.ofList trimmed, "")
  | _ :: rest =>
    (String.ofList (trimmed.takeWhile fun c => !isWhiteSpace c), String.ofList (trim rest))

namespace Decoding

variable (d : Decoding)

def mnemonic : String := (splitInstruction d.text).1

def isCall : Bool := d.flow = .call || d.flow = .indirectCall

def isJump : Bool :=
  d.flow = .unconditionalBranch || d.flow = .indirectBranch || d.flow = .conditionalBranch

def isRet : Bool := d.flow = .ret

def groups : List String :=
  (if d.isCall then ["call"] else []) ++ (if d.isJump then ["jump"] else []) ++
    (if d.isRet then ["ret"] else [])

def lifted : LiftedInstruction := fromIced ⟨d.instr, d.mnemonic, d.isCall, d.isJump⟩

def record (sect : SectionRecord) : InstructionRecord where
  address := d.instr.ip
  size := d.instr.len
  mnemonic := d.mnemonic
  opStr := (splitInstruction d.text).2
  sect := sect.name
  groups := d.groups
  isCall := d.isCall
  isJump := d.isJump
  isRet := d.isRet
  branchTarget := branchTarget d.instr

/-- The target of a call or a jump that names one. -/
def directTarget : Option Nat := if d.isCall || d.isJump then branchTarget d.instr else none

end Decoding

section
variable (settings : Settings) (image : CodeImage)

/-- A reference to an import, to a string or to a section, whichever is found first. -/
def reference (fromVa target : Nat) (role : String) : Option XrefRecord :=
  match settings.importSymbols.get target with
  | some symbol => some ⟨"import", fromVa, target, role, some symbol, none, none, none⟩
  | none =>
    match settings.stringTexts.get target with
    | some text => some ⟨"string", fromVa, target, role, none, some text, none, none⟩
    | none => (image.sectionForVa target).map fun sect =>
        ⟨if sect.executable then "code" else "data", fromVa, target, role, none, none, none,
          some sect.name⟩

def addXref (xrefs : List XrefRecord) (fromVa target : Nat) (role : String) : List XrefRecord :=
  if settings.maxXrefs ≤ xrefs.length then xrefs
  else xrefs ++ (reference settings image fromVa target role).toList

def addOperandXref (d : Decoding) (xrefs : List XrefRecord) : List XrefRecord :=
  match d.instr.ipRelMemoryAddress with
  | none => xrefs
  | some target =>
    addXref settings image xrefs d.instr.ip target.val (if d.isCall then "call" else "operand")

def addBranchXref (d : Decoding) (xrefs : List XrefRecord) : List XrefRecord :=
  match d.directTarget with
  | none => xrefs
  | some target =>
    addXref settings image xrefs d.instr.ip target (if d.isCall then "call" else "branch")

/-- The targets of direct calls into executable sections. -/
def addTarget (d : Decoding) (targets : List Nat) : List Nat :=
  match d.directTarget with
  | none => targets
  | some target =>
    if d.isCall && image.executableAt target then SortedMap.insert id target targets else targets

structure State where
  instructions : List InstructionRecord
  ir : List LiftedInstruction
  xrefs : List XrefRecord
  directCodeTargets : List Nat
  seen : List Nat
  capped : Bool

def initial : State := ⟨[], [], [], [], [], false⟩

/-- One instruction of a section. -/
def visit (s : State) (row : SectionRecord × Decoding) : State :=
  if row.2.instr.ip ∈ s.seen then s
  else
    { s with
      instructions := s.instructions ++ [row.2.record row.1]
      ir := s.ir ++ [row.2.lifted]
      xrefs := addBranchXref settings image row.2 (addOperandXref settings image row.2 s.xrefs)
      directCodeTargets := addTarget image row.2 s.directCodeTargets
      seen := row.2.instr.ip :: s.seen }

/-- The bytes of a range, for as many turns as there are bytes. -/
def sweep (sect : SectionRecord) : Nat → List UInt8 → Nat → State → State
  | 0, _, _, s => s
  | turns + 1, bytes, ip, s =>
    if bytes.isEmpty then s
    else if settings.maxInstructions ≤ s.instructions.length then { s with capped := true }
    else
      let d := settings.decoder.decode bytes ip
      sweep sect turns (bytes.drop d.instr.len) ((ip + d.instr.len) % 2 ^ 64)
        (visit settings image s (sect, d))

/-- The bytes of a section that lie in a range. -/
def rangeBytes (sect : SectionRecord) (data : List UInt8) (range : DisasmRange) : List UInt8 :=
  let startOff := range.start - sect.va
  let endOff := range.stop - sect.va
  if data.length ≤ startOff || endOff ≤ startOff then []
  else (data.take endOff).drop startOff

def sweepRanges : List DisasmRange → State → Except Checked.Fault State
  | [], s => .ok s
  | range :: ranges, s =>
    if settings.maxInstructions ≤ s.instructions.length then .ok { s with capped := true }
    else
      match image.sectionByRva range.sectionRva with
      | none => sweepRanges ranges s
      | some sect =>
        match sect.data image.bytes with
        | .error fault => .error fault
        | .ok data =>
          let bytes := rangeBytes sect data range
          sweepRanges ranges (sweep settings image sect bytes.length bytes range.start s)

def disassemble (ranges : List DisasmRange) : Except Checked.Fault DisasmOutput :=
  (sweepRanges settings image ranges initial).map fun s =>
    { instructions := sortBy InstructionRecord.address s.instructions
      ir := sortBy (fun ir => ir.address) s.ir
      xrefs := sortBy XrefRecord.fromVa s.xrefs
      directCodeTargets := s.directCodeTargets
      capped := s.capped }

end

section
variable (settings : Settings) (image : CodeImage)

/-- All instructions of a piece of code. -/
def decodings (decoder : Decoder) : Nat → List UInt8 → Nat → List Decoding
  | 0, _, _ => []
  | turns + 1, bytes, ip =>
    if bytes.isEmpty then []
    else
      let d := decoder.decode bytes ip
      d :: decodings decoder turns (bytes.drop d.instr.len) ((ip + d.instr.len) % 2 ^ 64)

/-- The section of a range, when there is one, and the bytes of it in the range. -/
def code (range : DisasmRange) : Option (SectionRecord × List UInt8) :=
  (image.sectionByRva range.sectionRva).bind fun sect =>
    (sect.data image.bytes).toOption.map fun data => (sect, rangeBytes sect data range)

/-- The instructions of a range, with their section. -/
def rows (range : DisasmRange) : List (SectionRecord × Decoding) :=
  (code image range).elim [] fun found =>
    (decodings settings.decoder found.2.length found.2 range.start).map fun d => (found.1, d)

def address (row : SectionRecord × Decoding) : Nat := row.2.instr.ip

/-- The first instruction of each address, as many as may be kept. -/
def kept (ranges : List DisasmRange) : List (SectionRecord × Decoding) :=
  (firsts address (ranges.flatMap (rows settings image))).take settings.maxInstructions

/-- What an instruction refers to, by its memory operand and by its target. -/
def references (row : SectionRecord × Decoding) : List XrefRecord :=
  let d := row.2
  (d.instr.ipRelMemoryAddress.bind fun target => reference settings image d.instr.ip target.val
      (if d.isCall then "call" else "operand")).toList ++
    (d.directTarget.bind fun target => reference settings image d.instr.ip target
      (if d.isCall then "call" else "branch")).toList

/-- A row calls an address of an executable section directly. -/
def CallsInto (target : Nat) (row : SectionRecord × Decoding) : Prop :=
  row.2.isCall = true ∧ row.2.directTarget = some target ∧ image.executableAt target = true

/-- No range names a section whose part of the file cannot be read. -/
def Readable (ranges : List DisasmRange) : Prop :=
  ∀ range ∈ ranges, ∀ sect, image.sectionByRva range.sectionRva = some sect →
    ∃ data, sect.data image.bytes = .ok data

/-- The state of the sweep after some rows were kept. -/
structure Listing (keptRows : List (SectionRecord × Decoding)) (s : State) : Prop where
  instructions : s.instructions = keptRows.map fun row => row.2.record row.1
  ir : s.ir = keptRows.map fun row => row.2.lifted
  xrefs : s.xrefs = (keptRows.flatMap (references settings image)).take settings.maxXrefs
  sorted : SortedMap.Sorted id s.directCodeTargets
  mem_targets : ∀ t, t ∈ s.directCodeTargets ↔ ∃ row ∈ keptRows, CallsInto image t row
  mem_seen : ∀ a, a ∈ s.seen ↔ ∃ row ∈ keptRows, address row = a

/-- The state of the sweep after it came past some rows. -/
structure Scanned (all : List (SectionRecord × Decoding)) (s : State) : Prop where
  listing : Listing settings image ((firsts address all).take settings.maxInstructions) s
  complete : s.capped = false → (firsts address all).length ≤ settings.maxInstructions
  full : s.capped = true → settings.maxInstructions ≤ (firsts address all).length

/-- The output of the disassembler in terms of what it read. -/
structure Disassembled (ranges : List DisasmRange) (out : DisasmOutput) : Prop where
  instructions : out.instructions = sortBy InstructionRecord.address
    ((kept settings image ranges).map fun row => row.2.record row.1)
  ir : out.ir = sortBy (fun ir => ir.address)
    ((kept settings image ranges).map fun row => row.2.lifted)
  xrefs : out.xrefs = sortBy XrefRecord.fromVa
    (((kept settings image ranges).flatMap (references settings image)).take settings.maxXrefs)
  targets_sorted : SortedMap.Sorted id out.directCodeTargets
  mem_targets : ∀ t, t ∈ out.directCodeTargets ↔
    ∃ row ∈ kept settings image ranges, CallsInto image t row
  complete : out.capped = false →
    kept settings image ranges = firsts address (ranges.flatMap (rows settings image))
  full : out.capped = true → out.instructions.length = settings.maxInstructions

end

section
variable {settings : Settings} {image : CodeImage} {xrefs : List XrefRecord}
  {row : SectionRecord × Decoding}

theorem addXref_take (fromVa target : Nat) (role : String) :
    addXref settings image (xrefs.take settings.maxXrefs) fromVa target role =
      (xrefs ++ (reference settings image fromVa target role).toList).take settings.maxXrefs := by
  rw [addXref, List.length_take]
  by_cases hfull : settings.maxXrefs ≤ xrefs.length
  · rw [if_pos (by omega), List.take_append_of_le_length hfull]
  · have hone : (reference settings image fromVa target role).toList.length ≤ 1 := by
      cases reference settings image fromVa target role <;> simp
    rw [if_neg (by omega), List.take_of_length_le (by omega),
      List.take_of_length_le (by rw [List.length_append]; omega)]

theorem addXrefs_take : addBranchXref settings image row.2
    (addOperandXref settings image row.2 (xrefs.take settings.maxXrefs)) =
      (xrefs ++ references settings image row).take settings.maxXrefs := by
  have hoperand : ∃ first : List XrefRecord,
      addOperandXref settings image row.2 (xrefs.take settings.maxXrefs) =
        (xrefs ++ first).take settings.maxXrefs ∧ references settings image row =
          first ++ (row.2.directTarget.bind fun target => reference settings image row.2.instr.ip
            target (if row.2.isCall then "call" else "branch")).toList := by
    rw [references, addOperandXref]
    cases row.2.instr.ipRelMemoryAddress with
    | none => exact ⟨[], by rw [List.append_nil], rfl⟩
    | some target => exact ⟨_, addXref_take .., rfl⟩
  obtain ⟨first, hadd, hrefs⟩ := hoperand
  rw [hadd, hrefs, addBranchXref, ← List.append_assoc]
  cases row.2.directTarget with
  | none =>
    have hnil : (Option.bind none fun target : Nat => reference settings image row.2.instr.ip
        target (if row.2.isCall then "call" else "branch")).toList = [] := rfl
    rw [hnil, List.append_nil]
  | some target => exact addXref_take ..

end

section
variable {settings : Settings} {image : CodeImage}
  {all keptRows more : List (SectionRecord × Decoding)} {row : SectionRecord × Decoding} {s : State}
  {targets : List Nat} {t : Nat} {ranges : List DisasmRange} {range : DisasmRange}

theorem sorted_addTarget (h : SortedMap.Sorted id targets) :
    SortedMap.Sorted id (addTarget image row.2 targets) := by
  rw [addTarget]
  split
  · exact h
  · split
    · exact SortedMap.sorted_insert _ h
    · exact h

theorem mem_addTarget (h : SortedMap.Sorted id targets) :
    t ∈ addTarget image row.2 targets ↔ t ∈ targets ∨ CallsInto image t row := by
  rw [addTarget, CallsInto]
  cases hd : row.2.directTarget with
  | none => simp
  | some target =>
    by_cases hcall : (row.2.isCall && image.executableAt target) = true
    · obtain ⟨hc, he⟩ := Bool.and_eq_true_iff.mp hcall
      dsimp only
      rw [if_pos hcall, SortedMap.mem_insert h, Option.some.injEq]
      constructor
      · rintro (rfl | ⟨ht, -⟩)
        · exact .inr ⟨hc, rfl, he⟩
        · exact .inl ht
      · rintro (ht | ⟨-, rfl, -⟩)
        · rcases eq_or_ne t target with rfl | hne
          · exact .inl rfl
          · exact .inr ⟨ht, hne⟩
        · exact .inl rfl
    · dsimp only
      rw [if_neg hcall]
      refine ⟨.inl, fun h => h.resolve_right ?_⟩
      rintro ⟨hc, ht, he⟩
      rw [Option.some.injEq] at ht
      exact hcall (by rw [hc, ht, he]; rfl)

theorem Listing.visit (h : Listing settings image keptRows s) (hnew : row.2.instr.ip ∉ s.seen) :
    Listing settings image (keptRows ++ [row]) (visit settings image s row) := by
  rw [Disassembly.visit, if_neg hnew]
  constructor
  · rw [List.map_append, ← h.instructions]
    rfl
  · rw [List.map_append, ← h.ir]
    rfl
  · dsimp only
    rw [h.xrefs, addXrefs_take, List.flatMap_append, List.flatMap_singleton]
  · exact sorted_addTarget h.sorted
  · intro t
    dsimp only
    rw [mem_addTarget h.sorted, h.mem_targets]
    simp [or_and_right, exists_or]
  · intro a
    dsimp only
    rw [List.mem_cons, h.mem_seen]
    simp [or_and_right, exists_or, address, or_comm, eq_comm]

theorem Listing.length (h : Listing settings image keptRows s) :
    s.instructions.length = keptRows.length := by
  rw [h.instructions, List.length_map]

theorem Scanned.visit (h : Scanned settings image all s)
    (hlt : s.instructions.length < settings.maxInstructions) :
    Scanned settings image (all ++ [row]) (visit settings image s row) := by
  have hlength := h.listing.length
  rw [List.length_take] at hlength
  have hlisting := h.listing
  rw [List.take_of_length_le (by omega)] at hlisting
  have hcapped : (Disassembly.visit settings image s row).capped = s.capped := by
    rw [Disassembly.visit]
    split <;> rfl
  have hfirsts : firsts address (all ++ [row]) = firsts address all ++
      if row.2.instr.ip ∈ s.seen then [] else [row] := by
    rw [BestFirst.firsts_append, BestFirst.firstsFrom, BestFirst.firstsFrom, BestFirst.firstsFrom]
    refine congrArg _ (if_congr ?_ rfl rfl)
    rw [List.mem_reverse, List.mem_map, hlisting.mem_seen]
    rfl
  by_cases hseen : row.2.instr.ip ∈ s.seen
  · rw [if_pos hseen, List.append_nil] at hfirsts
    rw [Disassembly.visit, if_pos hseen]
    refine ⟨?_, ?_, ?_⟩
    · rw [hfirsts]
      exact h.listing
    · rw [hfirsts]
      exact h.complete
    · rw [hfirsts]
      exact h.full
  · rw [if_neg hseen] at hfirsts
    have hle : (firsts address (all ++ [row])).length ≤ settings.maxInstructions := by
      rw [hfirsts, List.length_append, List.length_singleton]
      omega
    refine ⟨?_, fun _ => hle, fun hfull => ?_⟩
    · rw [List.take_of_length_le hle, hfirsts]
      exact hlisting.visit hseen
    · have hmax := h.full (hcapped ▸ hfull)
      omega

/-- Once the bound is reached, what comes later does not count. -/
theorem Scanned.stop (h : Scanned settings image all s)
    (hle : settings.maxInstructions ≤ s.instructions.length) :
    Scanned settings image (all ++ more) { s with capped := true } := by
  have hlength := h.listing.length
  rw [List.length_take] at hlength
  have hfull : settings.maxInstructions ≤ (firsts address all).length := by omega
  have htake : (firsts address (all ++ more)).take settings.maxInstructions =
      (firsts address all).take settings.maxInstructions := by
    rw [BestFirst.firsts_append, List.take_append_of_le_length hfull]
  refine ⟨?_, fun hcapped => absurd hcapped (by simp), fun _ => ?_⟩
  · rw [htake]
    exact ⟨h.listing.instructions, h.listing.ir, h.listing.xrefs, h.listing.sorted,
      h.listing.mem_targets, h.listing.mem_seen⟩
  · rw [BestFirst.firsts_append, List.length_append]
    omega

theorem Scanned.sweep (sect : SectionRecord) (turns : Nat) (bytes : List UInt8) (ip : Nat)
    (h : Scanned settings image all s) :
    Scanned settings image
      (all ++ (decodings settings.decoder turns bytes ip).map fun d => (sect, d))
      (sweep settings image sect turns bytes ip s) := by
  induction turns generalizing all bytes ip s with
  | zero =>
    rw [decodings, List.map_nil, List.append_nil]
    exact h
  | succ turns ih =>
    rw [decodings, Disassembly.sweep]
    by_cases hempty : bytes.isEmpty = true
    · rw [if_pos hempty, if_pos hempty, List.map_nil, List.append_nil]
      exact h
    · rw [if_neg hempty, if_neg hempty]
      by_cases hfull : settings.maxInstructions ≤ s.instructions.length
      · rw [if_pos hfull]
        exact h.stop hfull
      · rw [if_neg hfull, List.map_cons, List.append_cons]
        exact ih _ _ (h.visit (Nat.not_le.mp hfull))

theorem code_eq_some {sect : SectionRecord} {data : List UInt8}
    (hsect : image.sectionByRva range.sectionRva = some sect)
    (hdata : sect.data image.bytes = .ok data) :
    code image range = some (sect, rangeBytes sect data range) := by
  rw [code, hsect, Option.bind_some, hdata]
  rfl

theorem Scanned.sweepRanges (hread : Readable image ranges) (h : Scanned settings image all s) :
    ∃ s', sweepRanges settings image ranges s = .ok s' ∧
      Scanned settings image (all ++ ranges.flatMap (rows settings image)) s' := by
  induction ranges generalizing all s with
  | nil => exact ⟨s, rfl, by rw [List.flatMap_nil, List.append_nil]; exact h⟩
  | cons range ranges ih =>
    have hrest : Readable image ranges := fun r hr => hread r (List.mem_cons_of_mem _ hr)
    rw [Disassembly.sweepRanges]
    by_cases hfull : settings.maxInstructions ≤ s.instructions.length
    · exact ⟨_, if_pos hfull, h.stop hfull⟩
    · rw [if_neg hfull, List.flatMap_cons, ← List.append_assoc]
      cases hsect : image.sectionByRva range.sectionRva with
      | none =>
        have hrows : rows settings image range = [] := by
          rw [rows, code, hsect]
          rfl
        rw [hrows, List.append_nil]
        exact ih hrest h
      | some sect =>
        obtain ⟨data, hdata⟩ := hread range List.mem_cons_self sect hsect
        dsimp only
        rw [hdata, rows, code_eq_some hsect hdata]
        exact ih hrest (h.sweep ..)

theorem scanned_initial : Scanned settings image [] initial := by
  have hnil : (firsts address []).take settings.maxInstructions = [] := List.take_nil
  refine ⟨?_, fun _ => Nat.zero_le _, fun h => absurd h Bool.false_ne_true⟩
  rw [hnil]
  exact ⟨rfl, rfl, List.take_nil.symm, SortedMap.sorted_nil, fun t => by simp [initial],
    fun a => by simp [initial]⟩

/-- The output of a sweep that came past the rows of all ranges. -/
theorem disassembled_of_scanned {s : State}
    (h : Scanned settings image (ranges.flatMap (rows settings image)) s)
    (hs : sweepRanges settings image ranges initial = .ok s) :
    ∃ out, disassemble settings image ranges = .ok out ∧
      Disassembled settings image ranges out := by
  have hlisting := h.listing
  refine ⟨_, by rw [disassemble, hs]; rfl, ?_⟩
  constructor
  · rw [kept, ← hlisting.instructions]
  · rw [kept, ← hlisting.ir]
  · rw [kept, ← hlisting.xrefs]
  · exact hlisting.sorted
  · exact hlisting.mem_targets
  · exact fun hcapped => List.take_of_length_le (h.complete hcapped)
  · intro hcapped
    have hfull := h.full hcapped
    have hlength := hlisting.length
    rw [List.length_take] at hlength
    have hsort : (sortBy InstructionRecord.address s.instructions).length =
      s.instructions.length := List.length_mergeSort _
    dsimp only
    omega

theorem exists_scanned (hread : Readable image ranges) :
    ∃ s, sweepRanges settings image ranges initial = .ok s ∧
      Scanned settings image (ranges.flatMap (rows settings image)) s := by
  obtain ⟨s, hs, hscanned⟩ := Scanned.sweepRanges hread (@scanned_initial settings image)
  rw [List.nil_append] at hscanned
  exact ⟨s, hs, hscanned⟩

/-- The disassembler keeps the first instruction of each address up to its bound, and the
references of what it kept up to the other. -/
theorem disassemble_eq (hread : Readable image ranges) :
    ∃ out, disassemble settings image ranges = .ok out ∧
      Disassembled settings image ranges out := by
  obtain ⟨s, hs, hscanned⟩ := @exists_scanned settings _ _ hread
  exact disassembled_of_scanned hscanned hs

/-- A decoder of two instructions of one byte each. -/
def oneByte : Decoder where
  decode bytes ip :=
    let ret := bytes.head? = some 0xC3
    { instr := ⟨ip, min 1 bytes.length, [], none, none, 1, 0, 0, 0, none⟩
      text := if ret then "ret" else "nop"
      flow := if ret then .ret else .next }
  ip_eq _ _ := rfl
  len_pos _ _ h := Nat.lt_min.mpr ⟨Nat.one_pos, List.length_pos_iff.mpr h⟩
  len_le _ _ := Nat.min_le_right ..

/-- The code of a function that does nothing. -/
def nopRet : CodeImage where
  entryVa := 0x401000
  sections := [⟨".text", 0x1000, 0x401000, 2, 0, 2, 2, true, (0, 2)⟩]
  sectionForVa va :=
    if 0x401000 ≤ va ∧ va < 0x401002 then
      some ⟨".text", 0x1000, 0x401000, 2, 0, 2, 2, true, (0, 2)⟩
    else none
  bytes := [0x90, 0xC3]

def plain : Settings := ⟨oneByte, .empty, .empty, 8, 8⟩

theorem disassemble_eq_nopRet : ∃ out,
    disassemble plain nopRet [⟨0x1000, 0x401000, 0x401002⟩] = .ok out ∧
      Disassembled plain nopRet [⟨0x1000, 0x401000, 0x401002⟩] out := by
  refine disassemble_eq fun range hrange sect hsect => ?_
  obtain rfl := List.mem_singleton.mp hrange
  cases hsect
  exact ⟨[0x90, 0xC3], rfl⟩

end

section
variable {settings : Settings} {image : CodeImage} {ranges : List DisasmRange}
  {range : DisasmRange} {out : DisasmOutput} {a : Nat}

def InstructionRecord.next (ins : InstructionRecord) : Nat := ins.address + ins.size

def Decoding.next (d : Decoding) : Nat := d.instr.ip + d.instr.len

/-- An address is of a byte of the instruction. -/
def occupies (a : Nat) (ins : InstructionRecord) : Bool :=
  Tiling.covers InstructionRecord.address InstructionRecord.next a ins

def inRange (a : Nat) (range : DisasmRange) : Bool :=
  Tiling.covers DisasmRange.start DisasmRange.stop a range

/-- A range lies in what the file holds of its section. -/
def Fits (image : CodeImage) (range : DisasmRange) : Prop :=
  ∃ sect data, image.sectionByRva range.sectionRva = some sect ∧ sect.data image.bytes = .ok data ∧
    sect.va ≤ range.start ∧ range.start ≤ range.stop ∧ range.stop ≤ sect.va + data.length ∧
    range.stop < 2 ^ 64

/-- The instructions of a piece of code follow one another and leave no byte out. -/
theorem decodings_tiles (decoder : Decoder) {turns ip : Nat} {bytes : List UInt8}
    (hturns : bytes.length ≤ turns) (hfits : ip + bytes.length < 2 ^ 64) :
    Tiling.Tiles (fun d => d.instr.ip) Decoding.next ip (ip + bytes.length)
      (decodings decoder turns bytes ip) := by
  induction turns generalizing bytes ip with
  | zero =>
    have hnil : bytes = [] := List.length_eq_zero_iff.mp (by omega)
    rw [hnil, decodings]
    rfl
  | succ turns ih =>
    rw [decodings]
    by_cases hempty : bytes = []
    · subst hempty
      exact rfl
    · rw [if_neg (by simpa using hempty)]
      have hpos := decoder.len_pos bytes ip hempty
      have hle := decoder.len_le bytes ip
      have hip := decoder.ip_eq bytes ip
      have hlength := List.length_drop (i := (decoder.decode bytes ip).instr.len) (l := bytes)
      have hwrap : (ip + (decoder.decode bytes ip).instr.len) % 2 ^ 64 =
          ip + (decoder.decode bytes ip).instr.len := Nat.mod_eq_of_lt (by omega)
      have hrest := @ih (ip + (decoder.decode bytes ip).instr.len)
        (bytes.drop (decoder.decode bytes ip).instr.len) (by omega) (by omega)
      have hend : ip + (decoder.decode bytes ip).instr.len +
          (bytes.drop (decoder.decode bytes ip).instr.len).length = ip + bytes.length := by omega
      rw [hend] at hrest
      dsimp only
      rw [hwrap, Tiling.tiles_cons, Decoding.next, hip]
      exact ⟨rfl, by omega, hrest⟩

theorem length_rangeBytes {sect : SectionRecord} {data : List UInt8}
    (hstart : sect.va ≤ range.start) (hle : range.start ≤ range.stop)
    (hstop : range.stop ≤ sect.va + data.length) :
    (rangeBytes sect data range).length = range.stop - range.start := by
  rw [rangeBytes]
  by_cases hout : data.length ≤ range.start - sect.va ∨
      range.stop - sect.va ≤ range.start - sect.va
  · rw [if_pos (by simpa using hout), List.length_nil]
    omega
  · rw [if_neg (by simpa using hout), List.length_drop, List.length_take]
    omega

theorem rows_tiles (h : Fits image range) :
    Tiling.Tiles address (fun row => row.2.next) range.start range.stop
      (rows settings image range) := by
  obtain ⟨sect, data, hsect, hdata, hstart, hle, hstop, hfits⟩ := h
  have hlength := length_rangeBytes hstart hle hstop
  have htiles := @decodings_tiles settings.decoder _ range.start (rangeBytes sect data range)
    (Nat.le_refl _) (by omega)
  have hend : range.start + (rangeBytes sect data range).length = range.stop := by omega
  rw [hend] at htiles
  rw [rows, code_eq_some hsect hdata, Option.elim_some]
  exact Tiling.Tiles.map (fun d => (sect, d)) htiles

theorem countP_rows (h : ∀ range ∈ ranges, Fits image range) (a : Nat) :
    (ranges.flatMap (rows settings image)).countP
      (Tiling.covers address (fun row => row.2.next) a) = ranges.countP (inRange a) := by
  refine Tiling.countP_flatMap fun range hrange => ?_
  rw [(rows_tiles (h range hrange)).countP a]
  exact if_congr Tiling.covers_iff.symm rfl rfl

theorem readable_of_fits (h : ∀ range ∈ ranges, Fits image range) : Readable image ranges := by
  intro range hrange sect hsect
  obtain ⟨found, data, hfound, hdata, -⟩ := h range hrange
  rw [hsect, Option.some.injEq] at hfound
  exact ⟨data, hfound ▸ hdata⟩

theorem firsts_rows (h : ∀ range ∈ ranges, Fits image range)
    (hone : ∀ a, ranges.countP (inRange a) ≤ 1) :
    firsts address (ranges.flatMap (rows settings image)) =
      ranges.flatMap (rows settings image) := by
  refine BestFirst.firsts_of_nodup (@Tiling.nodup_starts _ _ (fun row => row.2.next) _
    (fun row hrow => ?_) fun a => ?_)
  · obtain ⟨range, hrange, hrow⟩ := List.mem_flatMap.mp hrow
    exact ((rows_tiles (h range hrange)).bounds hrow).2.1
  · rw [countP_rows h]
    exact hone a

theorem countP_kept (hout : Disassembled settings image ranges out) (a : Nat) :
    out.instructions.countP (occupies a) = (kept settings image ranges).countP
      (Tiling.covers address (fun row => row.2.next) a) := by
  have hperm : out.instructions.Perm
      ((kept settings image ranges).map fun row => row.2.record row.1) := by
    rw [hout.instructions]
    exact List.mergeSort_perm _ _
  rw [hperm.countP_eq, List.countP_map]
  rfl

/-- When no two ranges meet, no byte outside them is of an instruction, and none is of two. -/
theorem countP_instructions_le (h : ∀ range ∈ ranges, Fits image range)
    (hone : ∀ a, ranges.countP (inRange a) ≤ 1) (hout : Disassembled settings image ranges out)
    (a : Nat) : out.instructions.countP (occupies a) ≤ ranges.countP (inRange a) := by
  rw [countP_kept hout, kept, firsts_rows h hone, ← countP_rows h a]
  exact (List.take_sublist _ _).countP_le

/-- Every byte of the ranges is of an instruction as long as the bound is not reached. -/
theorem countP_instructions (h : ∀ range ∈ ranges, Fits image range)
    (hone : ∀ a, ranges.countP (inRange a) ≤ 1) (hout : Disassembled settings image ranges out)
    (hcapped : out.capped = false) (a : Nat) :
    out.instructions.countP (occupies a) = ranges.countP (inRange a) := by
  rw [countP_kept hout, hout.complete hcapped, firsts_rows h hone, countP_rows h]

end
end Axe.Static.Disassembly
