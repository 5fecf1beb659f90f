import Mathlib.Algebra.Order.BigOperators.Group.List
import Axe.Pe.Bytes
import Axe.Pe.Image
import Axe.Pe.Rtti

/-!
# The tables of `__CxxFrameHandler3`

The handlers of all try blocks stand in one list of the function, and each try region names its
handlers by their positions in it. A field that is not in the file ends the parse without a
result, written as an error without a text.
-/
namespace Axe.Eh

open Checked (Fault add slice)
open Axe.Pe (PEImage RttiRecord fileOf fromLeBytes)
open Axe.Static (ExceptionRecord)

/-- An optional value that the parse goes on with. -/
def present {α : Type} (o : Option α) : Except Fault α := o.elim (.error (.error "")) .ok

def absent {α : Type} : Except Fault α := .error (.error "")

/-- `unwrap_or_default` of a list. -/
def orDefault {α : Type} : Except Fault (List α) → Except Fault (List α)
  | .error (.error _) => .ok []
  | r => r

def asI32 (n : Nat) : Int := if n < 2 ^ 31 then n else n - 2 ^ 32

/-- The four bytes at an offset as a number. -/
def fieldAt (bytes : List UInt8) (offset : Nat) : Nat := fromLeBytes ((bytes.drop offset).take 4)

def readU32 (bytes : List UInt8) (offset : Nat) : Except Fault Nat := do
  let stop ← add 64 offset 4
  if stop ≤ bytes.length then return fieldAt bytes offset else absent

/-- The number at a distance from an offset. -/
def readField (bytes : List UInt8) (base distance : Nat) : Except Fault Nat := do
  readU32 bytes (← add 64 base distance)

structure UnwindInfo where
  version : Nat
  flags : Nat
  prologSize : Nat
  codeCount : Nat
  frameRegister : Nat
  unwindCodesBytes : Nat
  handlerRva : Option Nat
  languageSpecificDataOffset : Option Nat
  deriving DecidableEq

def unwFlagEhandler : Nat := 1

def unwFlagUhandler : Nat := 2

/-- The bytes of the unwind codes, padded to a multiple of four. -/
def codesBytes (codeCount : Nat) : Nat := (codeCount * 2 + 3) / 4 * 4

def parseUnwindInfo (image : PEImage) (exc : ExceptionRecord) : Except Fault UnwindInfo := do
  let fileOffset ← present (image.rvaToFileOffset exc.unwindRva)
  let bytes := image.bytes
  if bytes.length < (← add 64 fileOffset 4) then absent
  else
    let header ← slice bytes fileOffset (fileOffset + 4)
    let field := fun k => (header.getD k 0).toNat
    let flags := field 0 / 8 % 32
    let info : UnwindInfo :=
      { version := field 0 % 8, flags, prologSize := field 1, codeCount := field 2,
        frameRegister := field 3, unwindCodesBytes := codesBytes (field 2), handlerRva := none,
        languageSpecificDataOffset := none }
    if flags.land (unwFlagEhandler.lor unwFlagUhandler) ≠ 0 then
      let afterCodes ← add 64 fileOffset (4 + codesBytes (field 2))
      let stop ← add 64 afterCodes 4
      if bytes.length < stop then absent
      else
        let rva ← slice bytes afterCodes stop
        return { info with
          handlerRva := some (fromLeBytes rva), languageSpecificDataOffset := some stop }
    else return info

structure Personality where
  name : Option String
  va : Option Nat
  deriving DecidableEq

def fh3MagicBase : Nat := 0x19930520

def fh3MagicUnwindHelp : Nat := 0x19930521

def fh3MagicEsTypes : Nat := 0x19930522

structure FuncInfo where
  magic : Nat
  maxState : Int
  unwindMapRva : Nat
  tryBlocksCount : Nat
  tryBlockMapRva : Nat
  ipMapCount : Nat
  ipToStateMapRva : Nat
  deriving DecidableEq

structure TryBlockMapEntry where
  tryLow : Int
  tryHigh : Int
  catchHigh : Int
  handlersCount : Nat
  handlerArrayRva : Nat
  deriving DecidableEq

structure HandlerTypeEntry where
  adjectives : Nat
  typeDescriptorRva : Nat
  catchObjectOffset : Int
  handlerRva : Nat
  frameOffset : Int
  deriving DecidableEq

def funcInfoFields (bytes : List UInt8) (off : Nat) : Except Fault FuncInfo := do
  return {
    magic := ← readU32 bytes off
    maxState := asI32 (← readField bytes off 4)
    unwindMapRva := ← readField bytes off 8
    tryBlocksCount := ← readField bytes off 12
    tryBlockMapRva := ← readField bytes off 16
    ipMapCount := ← readField bytes off 20
    ipToStateMapRva := ← readField bytes off 24 }

def parseFuncInfo (image : PEImage) (rva : Nat) : Except Fault FuncInfo := do
  let off ← present (image.rvaToFileOffset rva)
  let bytes := image.bytes
  if bytes.length < (← add 64 off 28) then absent else funcInfoFields bytes off

def tryBlockMapEntry (bytes : List UInt8) (base : Nat) : Except Fault TryBlockMapEntry := do
  return {
    tryLow := asI32 (← readU32 bytes base)
    tryHigh := asI32 (← readField bytes base 4)
    catchHigh := asI32 (← readField bytes base 8)
    handlersCount := ← readField bytes base 12
    handlerArrayRva := ← readField bytes base 16 }

def handlerTypeEntry (bytes : List UInt8) (base : Nat) : Except Fault HandlerTypeEntry := do
  return {
    adjectives := ← readU32 bytes base
    typeDescriptorRva := ← readField bytes base 4
    catchObjectOffset := asI32 (← readField bytes base 8)
    handlerRva := ← readField bytes base 12
    frameOffset := asI32 (← readField bytes base 16) }

/-- An array of entries of 20 bytes; none are read when it has no entries or no address. -/
def parseArray {α : Type} (image : PEImage) (entry : List UInt8 → Nat → Except Fault α)
    (count rva : Nat) : Except Fault (List α) := do
  if count = 0 ∨ rva = 0 then return []
  else
    let off ← present (image.rvaToFileOffset rva)
    let bytes := image.bytes
    let total := min (count * 20) (2 ^ 64 - 1)
    if bytes.length < (← add 64 off total) then absent
    else (List.range count).mapM fun i => do entry bytes (← add 64 off (i * 20))

def parseTryBlockMap (image : PEImage) (info : FuncInfo) : Except Fault (List TryBlockMapEntry) :=
  parseArray image tryBlockMapEntry info.tryBlocksCount info.tryBlockMapRva

def parseHandlerArray (image : PEImage) (tb : TryBlockMapEntry) :
    Except Fault (List HandlerTypeEntry) :=
  parseArray image handlerTypeEntry tb.handlersCount tb.handlerArrayRva

structure UnwindRange where
  beginVa : Nat
  endVa : Nat
  deriving DecidableEq

structure TryRegion where
  tryBeginVa : Nat
  tryEndVa : Nat
  tryStateLow : Option Int
  tryStateHigh : Option Int
  callSiteIndex : Option Nat
  catchHandlerIndices : List Nat
  deriving DecidableEq

inductive CatchKind
  | typed (typeName : Option String) (typeDescriptorVa : Nat)
  | ellipsis
  deriving DecidableEq

structure CatchHandler where
  handlerVa : Nat
  catchKind : CatchKind
  adjectives : Nat
  frameOffset : Option Int
  continuationVa : Option Nat
  deriving DecidableEq

inductive EvidenceRef
  | sectionAt (name : String) (va : Nat)
  | rawAddr (va : Nat)
  | instruction (va : Nat)
  deriving DecidableEq

structure EhFunctionFact where
  functionVa : Nat
  functionEndVa : Nat
  personality : Option String
  personalityVa : Option Nat
  unwindRanges : List UnwindRange
  tryRegions : List TryRegion
  catchHandlers : List CatchHandler
  evidence : List EvidenceRef
  deriving DecidableEq

/-- The type descriptors by address; the last record of an address counts. -/
abbrev CatchResolver := List RttiRecord

def CatchResolver.lookup (resolver : CatchResolver) (va : Nat) : Option String :=
  (resolver.reverse.find? (·.va = va)).map RttiRecord.text

/-- The wrapping sum of the base and a relative address. -/
def vaOf (image : PEImage) (rva : Nat) : Nat := (image.base + rva) % 2 ^ 64

def tryRegion (exc : ExceptionRecord) (tb : TryBlockMapEntry) : TryRegion where
  tryBeginVa := exc.begin
  tryEndVa := exc.stop
  tryStateLow := some tb.tryLow
  tryStateHigh := some tb.tryHigh
  callSiteIndex := none
  catchHandlerIndices := List.range tb.handlersCount

def catchHandler (image : PEImage) (resolver : CatchResolver) (handler : HandlerTypeEntry) :
    CatchHandler where
  handlerVa := vaOf image handler.handlerRva
  catchKind :=
    if handler.typeDescriptorRva = 0 then .ellipsis
    else
      let typeDescriptorVa := vaOf image handler.typeDescriptorRva
      .typed (resolver.lookup typeDescriptorVa) typeDescriptorVa
  adjectives := handler.adjectives
  frameOffset := some handler.frameOffset
  continuationVa := none

/-- One round of the loop over the try blocks. -/
def addTryBlock (image : PEImage) (exc : ExceptionRecord) (resolver : CatchResolver)
    (found : List TryRegion × List CatchHandler) (tb : TryBlockMapEntry) :
    Except Fault (List TryRegion × List CatchHandler) := do
  let handlers ← orDefault (parseHandlerArray image tb)
  return (found.1 ++ [tryRegion exc tb], found.2 ++ handlers.map (catchHandler image resolver))

/-- The function info that the language-specific data points to, with its address. -/
def readFuncInfo (image : PEImage) (unwind : UnwindInfo) : Except Fault (Nat × FuncInfo) := do
  let langOffset ← present unwind.languageSpecificDataOffset
  if image.bytes.length < (← add 64 langOffset 4) then absent
  else
    let funcInfoRva ← readU32 image.bytes langOffset
    let funcInfo ← parseFuncInfo image funcInfoRva
    if [fh3MagicBase, fh3MagicUnwindHelp, fh3MagicEsTypes].contains funcInfo.magic then
      return (funcInfoRva, funcInfo)
    else absent

def parseFh3 (image : PEImage) (exc : ExceptionRecord) (unwind : UnwindInfo)
    (personality : Personality) (resolver : CatchResolver) : Except Fault EhFunctionFact := do
  let (funcInfoRva, funcInfo) ← readFuncInfo image unwind
  let tryBlocks ← orDefault (parseTryBlockMap image funcInfo)
  let (tryRegions, catchHandlers) ← tryBlocks.foldlM (addTryBlock image exc resolver) ([], [])
  return {
    functionVa := exc.begin
    functionEndVa := exc.stop
    personality := personality.name
    personalityVa := personality.va
    unwindRanges := [⟨exc.begin, exc.stop⟩]
    tryRegions
    catchHandlers
    evidence := .sectionAt ".pdata" exc.begin :: .rawAddr (vaOf image funcInfoRva) ::
      catchHandlers.map fun h => .instruction h.handlerVa }

/-- The fields of sections that offsets come from are 32 bits wide. -/
def NarrowOffsets (image : PEImage) : Prop := ∀ s ∈ image.sections, s.rawStart < 2 ^ 32

section Reads
variable {image : PEImage} {bytes : List UInt8} {base distance off rva count : Nat}

theorem noPanic_absent {α : Type} : Checked.NoPanic (absent : Except Fault α) :=
  Checked.noPanic_text ""

theorem noPanic_present {α : Type} (o : Option α) : Checked.NoPanic (present o) := by
  cases o with
  | none => exact noPanic_absent
  | some a => exact Checked.noPanic_ok a

theorem present_eq_ok {α : Type} {o : Option α} {a : α} : present o = .ok a ↔ o = some a := by
  cases o with
  | none => exact iff_of_false nofun nofun
  | some b =>
    exact ⟨fun h => congrArg some (Except.ok.inj h), fun h => congrArg _ (Option.some.inj h)⟩

/-- A file offset stays far below the width of `usize`. -/
theorem rvaToFileOffset_lt (himage : NarrowOffsets image) (hrva : rva < 2 ^ 32)
    (h : image.rvaToFileOffset rva = some off) : off < 2 ^ 33 := by
  rw [PEImage.rvaToFileOffset, Option.bind_eq_some_iff] at h
  obtain ⟨s, hs, h⟩ := h
  dsimp only at h
  split at h
  · cases h
  · rw [PEImage.sectionForRva] at hs
    have hmem := List.mem_of_find?_eq_some hs
    have hstart := himage s hmem
    cases h
    omega

theorem readU32_eq (h : base + 4 ≤ bytes.length) (hfits : base + 4 < 2 ^ 64) :
    readU32 bytes base = .ok (fieldAt bytes base) := by
  rw [readU32, Checked.add_eq_ok.mpr ⟨hfits, rfl⟩]
  exact if_pos h

theorem readField_eq (h : base + distance + 4 ≤ bytes.length)
    (hfits : base + distance + 4 < 2 ^ 64) :
    readField bytes base distance = .ok (fieldAt bytes (base + distance)) := by
  rw [readField, Checked.add_eq_ok.mpr ⟨by omega, rfl⟩]
  exact readU32_eq h hfits

/-- Four bytes make a number of 32 bits. -/
theorem fieldAt_lt : fieldAt bytes off < 2 ^ 32 := by
  have hlt := Axe.Pe.fromLeBytes_lt ((bytes.drop off).take 4)
  have hlen : ((bytes.drop off).take 4).length ≤ 4 := List.length_take_le _ _
  exact lt_of_lt_of_le hlt (Nat.pow_le_pow_right (by decide) hlen)

theorem readField_lt {n : Nat} (h : readField bytes base distance = .ok n) : n < 2 ^ 32 := by
  simp only [readField, readU32, Checked.bind_eq_ok] at h
  obtain ⟨offset, -, stop, -, h⟩ := h
  split at h
  · cases h
    exact fieldAt_lt
  · cases h

theorem funcInfoFields_eq (h : base + 28 ≤ bytes.length) (hfits : base + 28 < 2 ^ 64) :
    funcInfoFields bytes base = .ok
      ⟨fieldAt bytes base, asI32 (fieldAt bytes (base + 4)), fieldAt bytes (base + 8),
        fieldAt bytes (base + 12), fieldAt bytes (base + 16), fieldAt bytes (base + 20),
        fieldAt bytes (base + 24)⟩ := by
  simp (disch := omega) only [funcInfoFields, readU32_eq, readField_eq]
  rfl

theorem tryBlockMapEntry_eq (h : base + 20 ≤ bytes.length) (hfits : base + 20 < 2 ^ 64) :
    tryBlockMapEntry bytes base = .ok
      ⟨asI32 (fieldAt bytes base), asI32 (fieldAt bytes (base + 4)),
        asI32 (fieldAt bytes (base + 8)), fieldAt bytes (base + 12),
        fieldAt bytes (base + 16)⟩ := by
  simp (disch := omega) only [tryBlockMapEntry, readU32_eq, readField_eq]
  rfl

theorem handlerTypeEntry_eq (h : base + 20 ≤ bytes.length) (hfits : base + 20 < 2 ^ 64) :
    handlerTypeEntry bytes base = .ok
      ⟨fieldAt bytes base, fieldAt bytes (base + 4), asI32 (fieldAt bytes (base + 8)),
        fieldAt bytes (base + 12), asI32 (fieldAt bytes (base + 16))⟩ := by
  simp (disch := omega) only [handlerTypeEntry, readU32_eq, readField_eq]
  rfl

/-- An entry of 20 bytes is read where the file has them. -/
def EntryReads {α : Type} (entry : List UInt8 → Nat → Except Fault α) : Prop :=
  ∀ bytes base, base + 20 ≤ bytes.length → base + 20 < 2 ^ 64 → ∃ a, entry bytes base = .ok a

end Reads

section Arrays
variable {α : Type} {entry : List UInt8 → Nat → Except Fault α} {image : PEImage}
  {count rva : Nat}

/-- An array that has an address, which maps into the file, where all entries fit. -/
def Decodes (image : PEImage) (count rva : Nat) : Prop :=
  rva ≠ 0 ∧ ∃ off, image.rvaToFileOffset rva = some off ∧ off + count * 20 ≤ image.bytes.length

/-- An array either gives all of its entries or none. -/
theorem orDefault_parseArray (hentry : EntryReads entry) (himage : NarrowOffsets image)
    (hcount : count < 2 ^ 32) (hrva : rva < 2 ^ 32) :
    ∃ rows, orDefault (parseArray image entry count rva) = .ok rows ∧
      (Decodes image count rva → rows.length = count) ∧
      (¬ Decodes image count rva → rows = []) := by
  rw [parseArray]
  by_cases hnone : count = 0 ∨ rva = 0
  · rw [if_pos hnone]
    refine ⟨[], rfl, fun hdec => ?_, fun _ => rfl⟩
    exact (hnone.resolve_right hdec.1).symm
  · rw [if_neg hnone]
    rw [not_or] at hnone
    cases hoff : image.rvaToFileOffset rva with
    | none =>
      refine ⟨[], rfl, fun hdec => ?_, fun _ => rfl⟩
      obtain ⟨-, off, h, -⟩ := hdec
      rw [hoff] at h
      cases h
    | some off =>
      have hlt := rvaToFileOffset_lt himage hrva hoff
      have htotal : min (count * 20) (2 ^ 64 - 1) = count * 20 := by omega
      have hadd : add 64 off (count * 20) = .ok (off + count * 20) :=
        Checked.add_eq_ok.mpr ⟨by omega, rfl⟩
      simp only [present, Option.elim_some, htotal, hadd, bind, Except.bind]
      by_cases hshort : image.bytes.length < off + count * 20
      · rw [if_pos hshort]
        refine ⟨[], rfl, fun hdec => ?_, fun _ => rfl⟩
        obtain ⟨-, off', h, hle⟩ := hdec
        rw [hoff] at h
        cases h
        omega
      · rw [if_neg hshort]
        have hread : ∃ rows, (List.range count).mapM
            (fun i => add 64 off (i * 20) >>= entry image.bytes) = .ok rows := by
          refine Checked.mapM_isOk.mpr fun i hi => ?_
          have hlt' := List.mem_range.mp hi
          obtain ⟨a, ha⟩ := hentry image.bytes (off + i * 20) (by omega) (by omega)
          exact ⟨a, Checked.bind_eq_ok.mpr ⟨_, Checked.add_eq_ok.mpr ⟨by omega, rfl⟩, ha⟩⟩
        obtain ⟨rows, hrows⟩ := hread
        refine ⟨rows, congrArg orDefault hrows, fun _ => ?_, fun hno => ?_⟩
        · rw [Checked.length_mapM hrows, List.length_range]
        · exact absurd ⟨hnone.2, off, hoff, by omega⟩ hno

theorem entryReads_tryBlockMapEntry : EntryReads tryBlockMapEntry :=
  fun _ _ h hfits => ⟨_, tryBlockMapEntry_eq h hfits⟩

theorem entryReads_handlerTypeEntry : EntryReads handlerTypeEntry :=
  fun _ _ h hfits => ⟨_, handlerTypeEntry_eq h hfits⟩

/-- The counts and addresses of a try block are numbers of 32 bits. -/
theorem narrow_of_mem {info : FuncInfo} {blocks : List TryBlockMapEntry} {tb : TryBlockMapEntry}
    (h : parseTryBlockMap image info = .ok blocks) (htb : tb ∈ blocks) :
    tb.handlersCount < 2 ^ 32 ∧ tb.handlerArrayRva < 2 ^ 32 := by
  rw [parseTryBlockMap, parseArray] at h
  split at h
  · cases h
    cases htb
  · obtain ⟨off, -, h⟩ := Checked.bind_eq_ok.mp h
    obtain ⟨stop, -, h⟩ := Checked.bind_eq_ok.mp h
    split at h
    · cases h
    · obtain ⟨i, -, hi⟩ := Checked.mem_mapM h htb
      obtain ⟨base, -, hentry⟩ := Checked.bind_eq_ok.mp hi
      simp only [tryBlockMapEntry, Checked.bind_eq_ok] at hentry
      obtain ⟨_, _, _, _, _, _, n, hn, rva, hrva, hentry⟩ := hentry
      cases hentry
      exact ⟨readField_lt hn, readField_lt hrva⟩

end Arrays

/-- The handlers that are decoded from the array of a try block. -/
def ownHandlers (image : PEImage) (resolver : CatchResolver) (tb : TryBlockMapEntry) :
    List CatchHandler :=
  ((orDefault (parseHandlerArray image tb)).toOption.getD []).map (catchHandler image resolver)

/-- The try blocks that the parse goes through. -/
def tryBlocksOf (image : PEImage) (unwind : UnwindInfo) : List TryBlockMapEntry :=
  ((readFuncInfo image unwind >>= fun found =>
    orDefault (parseTryBlockMap image found.2)).toOption).getD []

/-- Each region names exactly the handlers of its own try block, in order, no index stands in two
regions, and no list is longer than the number of entries the file has room for. -/
structure Linked (image : PEImage) (resolver : CatchResolver) (blocks : List TryBlockMapEntry)
    (fact : EhFunctionFact) : Prop where
  regions : fact.tryRegions.length = blocks.length
  own : ∀ pair ∈ blocks.zip fact.tryRegions,
    pair.2.catchHandlerIndices.map (fact.catchHandlers[·]?) =
      (ownHandlers image resolver pair.1).map some
  valid : ∀ r ∈ fact.tryRegions, ∀ k ∈ r.catchHandlerIndices, k < fact.catchHandlers.length
  apart : fact.tryRegions.Pairwise fun r r' =>
    r.catchHandlerIndices.Disjoint r'.catchHandlerIndices
  short : fact.tryRegions.length ≤ image.bytes.length / 20 ∧
    (∀ r ∈ fact.tryRegions, r.catchHandlerIndices.length ≤ image.bytes.length / 20) ∧
    fact.catchHandlers.length ≤ image.bytes.length / 20 ∧
    fact.evidence.length ≤ image.bytes.length / 20

/-- At most one try block has handlers, these are in the file, and the list of evidence has as
many entries of 20 bytes. -/
structure OneBlock (image : PEImage) (blocks : List TryBlockMapEntry) : Prop where
  single : blocks.Pairwise fun tb tb' => tb.handlersCount = 0 ∨ tb'.handlersCount = 0
  decodes : ∀ tb ∈ blocks, tb.handlersCount ≠ 0 →
    Decodes image tb.handlersCount tb.handlerArrayRva
  short : 2 + (blocks.map TryBlockMapEntry.handlersCount).sum ≤ image.bytes.length / 20

section Loop
variable {image : PEImage} {exc : ExceptionRecord} {tb : TryBlockMapEntry}
  {blocks : List TryBlockMapEntry}

theorem orDefault_handlers (resolver : CatchResolver) (himage : NarrowOffsets image)
    (hcount : tb.handlersCount < 2 ^ 32) (hrva : tb.handlerArrayRva < 2 ^ 32) :
    ∃ rows, orDefault (parseHandlerArray image tb) = .ok rows ∧
      ownHandlers image resolver tb = rows.map (catchHandler image resolver) ∧
      (Decodes image tb.handlersCount tb.handlerArrayRva → rows.length = tb.handlersCount) ∧
      (¬ Decodes image tb.handlersCount tb.handlerArrayRva → rows = []) := by
  obtain ⟨rows, hrows, hlen, hempty⟩ :=
    orDefault_parseArray entryReads_handlerTypeEntry himage hcount hrva
  refine ⟨rows, hrows, ?_, hlen, hempty⟩
  rw [ownHandlers, parseHandlerArray, hrows]
  rfl

theorem foldlM_addTryBlock (exc : ExceptionRecord) (resolver : CatchResolver)
    (himage : NarrowOffsets image)
    (hnarrow : ∀ tb ∈ blocks, tb.handlersCount < 2 ^ 32 ∧ tb.handlerArrayRva < 2 ^ 32)
    (found : List TryRegion × List CatchHandler) :
    blocks.foldlM (addTryBlock image exc resolver) found =
      .ok (found.1 ++ blocks.map (tryRegion exc),
        found.2 ++ blocks.flatMap (ownHandlers image resolver)) := by
  induction blocks generalizing found with
  | nil => rw [List.map_nil, List.flatMap_nil, List.append_nil, List.append_nil]; rfl
  | cons tb blocks ih =>
    obtain ⟨hcount, hrva⟩ := hnarrow tb List.mem_cons_self
    obtain ⟨rows, hrows, hown, -, -⟩ := orDefault_handlers resolver himage hcount hrva
    have hstep : addTryBlock image exc resolver found tb =
        .ok (found.1 ++ [tryRegion exc tb], found.2 ++ ownHandlers image resolver tb) := by
      rw [addTryBlock, hrows, hown]
      rfl
    rw [List.foldlM_cons, hstep]
    refine (ih (fun tb' htb' => hnarrow tb' (List.mem_cons_of_mem _ htb')) _).trans ?_
    simp only [List.map_cons, List.flatMap_cons, List.append_assoc, List.singleton_append]

/-- The parse of the function info gives its narrow fields or ends without a result. -/
theorem parseFuncInfo_cases {rva : Nat} (himage : NarrowOffsets image) (hrva : rva < 2 ^ 32) :
    parseFuncInfo image rva = absent ∨ ∃ info, parseFuncInfo image rva = .ok info ∧
      info.tryBlocksCount < 2 ^ 32 ∧ info.tryBlockMapRva < 2 ^ 32 := by
  rw [parseFuncInfo]
  cases hoff : image.rvaToFileOffset rva with
  | none => exact .inl rfl
  | some off =>
    have hlt := rvaToFileOffset_lt himage hrva hoff
    have hadd : add 64 off 28 = .ok (off + 28) := Checked.add_eq_ok.mpr ⟨by omega, rfl⟩
    simp only [present, Option.elim_some, hadd, bind, Except.bind]
    by_cases hshort : image.bytes.length < off + 28
    · exact .inl (if_pos hshort)
    · rw [if_neg hshort]
      exact .inr ⟨_, funcInfoFields_eq (by omega) (by omega), fieldAt_lt, fieldAt_lt⟩

variable {unwind : UnwindInfo}

theorem readFuncInfo_cases (himage : NarrowOffsets image)
    (hlang : ∀ off, unwind.languageSpecificDataOffset = some off → off < 2 ^ 34) :
    readFuncInfo image unwind = absent ∨ ∃ found, readFuncInfo image unwind = .ok found ∧
      found.2.tryBlocksCount < 2 ^ 32 ∧ found.2.tryBlockMapRva < 2 ^ 32 := by
  rw [readFuncInfo]
  cases hoff : unwind.languageSpecificDataOffset with
  | none => exact .inl rfl
  | some off =>
    have hlt := hlang off hoff
    have hadd : add 64 off 4 = .ok (off + 4) := Checked.add_eq_ok.mpr ⟨by omega, rfl⟩
    simp only [present, Option.elim_some, hadd, bind, Except.bind]
    by_cases hshort : image.bytes.length < off + 4
    · exact .inl (if_pos hshort)
    · rw [if_neg hshort, readU32_eq (by omega) (by omega)]
      have hfield : fieldAt image.bytes off < 2 ^ 32 := fieldAt_lt
      rcases parseFuncInfo_cases himage hfield with hinfo | ⟨info, hinfo, hnarrow⟩
      · simp only [hinfo]
        exact .inl rfl
      · simp only [hinfo]
        by_cases hmagic : [fh3MagicBase, fh3MagicUnwindHelp, fh3MagicEsTypes].contains info.magic
        · rw [if_pos hmagic]
          exact .inr ⟨_, rfl, hnarrow⟩
        · rw [if_neg hmagic]
          exact .inl rfl

theorem codesBytes_le (b : UInt8) : codesBytes b.toNat ≤ 514 := by
  have hbyte := b.toNat_lt
  rw [codesBytes]
  omega

/-- The language-specific data stands right behind the unwind codes. -/
theorem parseUnwindInfo_lang {off : Nat} (himage : NarrowOffsets image)
    (hexc : exc.unwindRva < 2 ^ 32) (h : parseUnwindInfo image exc = .ok unwind)
    (hoff : unwind.languageSpecificDataOffset = some off) : off < 2 ^ 34 := by
  rw [parseUnwindInfo] at h
  obtain ⟨fileOffset, hfile, h⟩ := Checked.bind_eq_ok.mp h
  obtain ⟨stop, -, h⟩ := Checked.bind_eq_ok.mp h
  have hlt := rvaToFileOffset_lt himage hexc (present_eq_ok.mp hfile)
  split at h
  · cases h
  · obtain ⟨header, -, h⟩ := Checked.bind_eq_ok.mp h
    dsimp only at h
    split at h
    · obtain ⟨afterCodes, hafter, h⟩ := Checked.bind_eq_ok.mp h
      obtain ⟨stop', hstop', h⟩ := Checked.bind_eq_ok.mp h
      split at h
      · cases h
      · obtain ⟨rva, -, h⟩ := Checked.bind_eq_ok.mp h
        cases h
        cases hoff
        have hcodes := codesBytes_le (header.getD 2 0)
        rw [(Checked.add_eq_ok.mp hstop').2, (Checked.add_eq_ok.mp hafter).2]
        omega
    · cases h
      cases hoff

theorem noPanic_parseUnwindInfo (himage : NarrowOffsets image) (hexc : exc.unwindRva < 2 ^ 32) :
    Checked.NoPanic (parseUnwindInfo image exc) := by
  rw [parseUnwindInfo]
  refine Checked.noPanic_bind.mpr ⟨noPanic_present _, fun fileOffset hfile => ?_⟩
  have hlt := rvaToFileOffset_lt himage hexc (present_eq_ok.mp hfile)
  refine Checked.noPanic_add_bind.mpr ⟨by omega, Checked.noPanic_ite.mpr
    ⟨fun _ => noPanic_absent, fun hlong => ?_⟩⟩
  refine Checked.noPanic_bind.mpr ⟨Checked.noPanic_slice.mpr ⟨by omega, by omega⟩,
    fun header _ => ?_⟩
  have hcodes := codesBytes_le (header.getD 2 0)
  dsimp only
  refine Checked.noPanic_ite.mpr ⟨fun _ => ?_, fun _ => Checked.noPanic_pure _⟩
  refine Checked.noPanic_add_bind.mpr ⟨by omega, Checked.noPanic_add_bind.mpr ⟨by omega,
    Checked.noPanic_ite.mpr ⟨fun _ => noPanic_absent, fun hlong' => ?_⟩⟩⟩
  exact Checked.noPanic_bind.mpr ⟨Checked.noPanic_slice.mpr ⟨by omega, by omega⟩,
    fun _ _ => Checked.noPanic_pure _⟩

/-- What the parse does: nothing, or a fact whose regions and handlers come from the try blocks
one by one. -/
theorem parseFh3_cases (himage : NarrowOffsets image)
    (hlang : ∀ off, unwind.languageSpecificDataOffset = some off → off < 2 ^ 34)
    (personality : Personality) (resolver : CatchResolver) :
    parseFh3 image exc unwind personality resolver = absent ∨
      ∃ fact, parseFh3 image exc unwind personality resolver = .ok fact ∧
        fact.tryRegions = (tryBlocksOf image unwind).map (tryRegion exc) ∧
        fact.catchHandlers = (tryBlocksOf image unwind).flatMap (ownHandlers image resolver) ∧
        fact.evidence.length = 2 + fact.catchHandlers.length ∧
        (tryBlocksOf image unwind).length ≤ image.bytes.length / 20 ∧
        ∀ tb ∈ tryBlocksOf image unwind,
          tb.handlersCount < 2 ^ 32 ∧ tb.handlerArrayRva < 2 ^ 32 := by
  rw [parseFh3, tryBlocksOf]
  rcases readFuncInfo_cases himage hlang with hnone | ⟨found, hfound, hcount, hrva⟩
  · rw [hnone]
    exact .inl rfl
  · obtain ⟨blocks, hblocks, hlen, hempty⟩ :=
      orDefault_parseArray entryReads_tryBlockMapEntry himage hcount hrva
    have hparsed : orDefault (parseTryBlockMap image found.2) = .ok blocks := hblocks
    have hnarrow : ∀ tb ∈ blocks, tb.handlersCount < 2 ^ 32 ∧ tb.handlerArrayRva < 2 ^ 32 := by
      intro tb htb
      cases hmap : parseTryBlockMap image found.2 with
      | ok rows =>
        rw [hmap] at hparsed
        cases hparsed
        exact narrow_of_mem hmap htb
      | error fault =>
        rw [hmap] at hparsed
        cases fault with
        | error text =>
          cases hparsed
          cases htb
        | range => cases hparsed
        | overflow => cases hparsed
    have hshort : blocks.length ≤ image.bytes.length / 20 := by
      by_cases hdec : Decodes image found.2.tryBlocksCount found.2.tryBlockMapRva
      · obtain ⟨-, off, -, hle⟩ := id hdec
        rw [hlen hdec]
        omega
      · rw [hempty hdec]
        exact Nat.zero_le _
    have hloop := foldlM_addTryBlock exc resolver himage hnarrow ([], [])
    refine .inr ?_
    simp only [hfound, bind, Except.bind, hparsed, hloop]
    refine ⟨_, rfl, rfl, rfl, ?_, hshort, hnarrow⟩
    simp only [List.length_cons, List.length_map]
    omega

end Loop

section Links
variable {image : PEImage} {resolver : CatchResolver} {blocks : List TryBlockMapEntry}

/-- When at most one of the lists has elements, all of them together are that one. -/
theorem flatMap_eq_of_single {α β : Type} {xs : List α} {f : α → List β} {a : α}
    (hsingle : xs.Pairwise fun x y => f x = [] ∨ f y = []) (ha : a ∈ xs) (hne : f a ≠ []) :
    xs.flatMap f = f a := by
  induction xs with
  | nil => cases ha
  | cons x xs ih =>
    obtain ⟨hhead, htail⟩ := List.pairwise_cons.mp hsingle
    rw [List.flatMap_cons]
    rcases List.mem_cons.mp ha with rfl | ha
    · have hrest : xs.flatMap f = [] :=
        List.flatMap_eq_nil_iff.mpr fun y hy => (hhead y hy).resolve_left hne
      rw [hrest, List.append_nil]
    · rw [(hhead a ha).resolve_right hne, List.nil_append]
      exact ih htail ha

theorem map_getElem?_range {α : Type} (xs : List α) :
    (List.range xs.length).map (xs[·]?) = xs.map some := by
  refine List.ext_getElem (by rw [List.length_map, List.length_map, List.length_range]) ?_
  intro i h h'
  rw [List.getElem_map, List.getElem_range, List.getElem_map, List.getElem?_eq_getElem]

theorem length_ownHandlers {tb : TryBlockMapEntry} (resolver : CatchResolver)
    (himage : NarrowOffsets image)
    (hnarrow : tb.handlersCount < 2 ^ 32 ∧ tb.handlerArrayRva < 2 ^ 32) :
    (ownHandlers image resolver tb).length = tb.handlersCount ↔
      tb.handlersCount ≠ 0 → Decodes image tb.handlersCount tb.handlerArrayRva := by
  obtain ⟨rows, -, hown, hlen, hempty⟩ :=
    orDefault_handlers resolver himage hnarrow.1 hnarrow.2
  rw [hown, List.length_map]
  by_cases hdec : Decodes image tb.handlersCount tb.handlerArrayRva
  · exact iff_of_true (hlen hdec) fun _ => hdec
  · rw [hempty hdec, List.length_nil]
    constructor
    · exact fun hzero hne => absurd hzero.symm hne
    · intro hne
      by_contra hcount
      exact hdec (hne (Ne.symm hcount))

/-- The sum of the declared counts is the number of the handlers that are decoded. -/
theorem length_flatMap_own
    (hlen : ∀ tb ∈ blocks, (ownHandlers image resolver tb).length = tb.handlersCount) :
    (blocks.flatMap (ownHandlers image resolver)).length =
      (blocks.map TryBlockMapEntry.handlersCount).sum := by
  rw [List.length_flatMap]
  exact congrArg List.sum (List.map_congr_left hlen)

theorem linked_iff {fact : EhFunctionFact} {exc : ExceptionRecord} (himage : NarrowOffsets image)
    (hnarrow : ∀ tb ∈ blocks, tb.handlersCount < 2 ^ 32 ∧ tb.handlerArrayRva < 2 ^ 32)
    (hregions : fact.tryRegions = blocks.map (tryRegion exc))
    (hhandlers : fact.catchHandlers = blocks.flatMap (ownHandlers image resolver))
    (hevidence : fact.evidence.length = 2 + fact.catchHandlers.length)
    (hshort : blocks.length ≤ image.bytes.length / 20) :
    Linked image resolver blocks fact ↔ OneBlock image blocks := by
  have hpairs : blocks.zip fact.tryRegions = blocks.map fun tb => (tb, tryRegion exc tb) := by
    rw [hregions, List.map_prod_left_eq_zip]
  have hcount := fun tb htb => length_ownHandlers resolver himage (hnarrow tb htb)
  constructor
  · intro hlinked
    have hdecodes : ∀ tb ∈ blocks, tb.handlersCount ≠ 0 →
        Decodes image tb.handlersCount tb.handlerArrayRva := by
      intro tb htb
      rw [← hcount tb htb]
      have hpair : (tb, tryRegion exc tb) ∈ blocks.zip fact.tryRegions :=
        hpairs ▸ List.mem_map_of_mem htb
      have hown := hlinked.own _ hpair
      have hlen := congrArg List.length hown
      rw [List.length_map, List.length_map, tryRegion, List.length_range] at hlen
      exact hlen.symm
    refine ⟨?_, hdecodes, ?_⟩
    · have hapart := hlinked.apart
      rw [hregions, List.pairwise_map] at hapart
      refine hapart.imp fun {tb tb'} hdisjoint => ?_
      by_contra hboth
      rw [not_or] at hboth
      exact hdisjoint (List.mem_range.mpr (Nat.pos_of_ne_zero hboth.1))
        (List.mem_range.mpr (Nat.pos_of_ne_zero hboth.2))
    · have hlen := length_flatMap_own fun tb htb => (hcount tb htb).mpr (hdecodes tb htb)
      rw [← hlen, ← hhandlers, ← hevidence]
      exact hlinked.short.2.2.2
  · intro hone
    have hlen : ∀ tb ∈ blocks, (ownHandlers image resolver tb).length = tb.handlersCount :=
      fun tb htb => (hcount tb htb).mpr (hone.decodes tb htb)
    have htotal : fact.catchHandlers.length = (blocks.map TryBlockMapEntry.handlersCount).sum := by
      rw [hhandlers, length_flatMap_own hlen]
    have hmost : ∀ tb ∈ blocks, tb.handlersCount ≤ fact.catchHandlers.length := by
      intro tb htb
      rw [htotal]
      exact List.le_sum_of_mem (List.mem_map_of_mem htb)
    have hall : ∀ tb ∈ blocks, tb.handlersCount ≠ 0 →
        fact.catchHandlers = ownHandlers image resolver tb := by
      intro tb htb hne
      rw [hhandlers]
      refine flatMap_eq_of_single ?_ htb fun hnil => hne ?_
      · refine hone.single.imp_of_mem fun {x y} hx hy hxy => ?_
        refine hxy.imp (fun h => ?_) fun h => ?_
        · exact List.eq_nil_of_length_eq_zero ((hlen x hx).trans h)
        · exact List.eq_nil_of_length_eq_zero ((hlen y hy).trans h)
      · rw [← hlen tb htb, hnil, List.length_nil]
    have hbound := hone.short
    refine ⟨?_, ?_, ?_, ?_, ?_⟩
    · rw [hregions, List.length_map]
    · rw [hpairs]
      intro pair hp
      obtain ⟨tb, htb, rfl⟩ := List.mem_map.mp hp
      simp only [tryRegion]
      by_cases hzero : tb.handlersCount = 0
      · rw [hzero, List.eq_nil_of_length_eq_zero ((hlen tb htb).trans hzero)]
        rfl
      · rw [hall tb htb hzero, ← hlen tb htb]
        exact map_getElem?_range _
    · rw [hregions]
      intro r hr k hk
      obtain ⟨tb, htb, rfl⟩ := List.mem_map.mp hr
      exact lt_of_lt_of_le (List.mem_range.mp hk) (hmost tb htb)
    · rw [hregions, List.pairwise_map]
      refine hone.single.imp fun {tb tb'} hor => ?_
      rcases hor with hzero | hzero
      · simp only [tryRegion, hzero, List.range_zero, List.disjoint_nil_left]
      · simp only [tryRegion, hzero, List.range_zero, List.disjoint_nil_right]
    · refine ⟨?_, ?_, by omega, by omega⟩
      · rw [hregions, List.length_map]
        exact hshort
      · rw [hregions]
        intro r hr
        obtain ⟨tb, htb, rfl⟩ := List.mem_map.mp hr
        have hle := hmost tb htb
        rw [tryRegion, List.length_range]
        omega

end Links

/-- The parse goes through without a panic, and links the regions to their own handlers just
when one try block at most declares handlers, all of which are in the file. -/
theorem parseFh3_linked_iff (image : PEImage) (exc : ExceptionRecord) (unwind : UnwindInfo)
    (personality : Personality) (resolver : CatchResolver) (himage : NarrowOffsets image)
    (hexc : exc.unwindRva < 2 ^ 32) (hunwind : parseUnwindInfo image exc = .ok unwind) :
    Checked.NoPanic (parseFh3 image exc unwind personality resolver) ∧
    ∀ fact, parseFh3 image exc unwind personality resolver = .ok fact →
      (Linked image resolver (tryBlocksOf image unwind) fact ↔
        OneBlock image (tryBlocksOf image unwind)) := by
  have hlang : ∀ off, unwind.languageSpecificDataOffset = some off → off < 2 ^ 34 :=
    fun off => parseUnwindInfo_lang himage hexc hunwind
  rcases parseFh3_cases himage hlang personality resolver with
    hnone | ⟨fact, hfact, hregions, hhandlers, hevidence, hshort, hnarrow⟩
  · rw [hnone]
    refine ⟨noPanic_absent, fun fact h => ?_⟩
    cases h
  · rw [hfact]
    refine ⟨Checked.noPanic_ok fact, fun fact' h => ?_⟩
    cases h
    exact linked_iff himage hnarrow hregions hhandlers hevidence hshort

/-- Unwind data of two try blocks with so many handlers, of one array. -/
def triesData (first second : UInt8) (handlers : Nat) : List UInt8 :=
  [9, 0, 0, 0] ++ [0, 0, 0, 0] ++ [12, 16, 0, 0] ++
    [0x20, 0x05, 0x93, 0x19] ++ List.replicate 8 0 ++ [2, 0, 0, 0] ++ [40, 16, 0, 0] ++
    List.replicate 8 0 ++ (List.replicate 12 0 ++ [first, 0, 0, 0] ++ [80, 16, 0, 0]) ++
    (List.replicate 12 0 ++ [second, 0, 0, 0] ++ [80, 16, 0, 0]) ++ List.replicate (20 * handlers) 0

def triesRecord : ExceptionRecord :=
  ⟨4096, 4112, 4096, 0x140001000, 0x140001010, 0x140001000, by decide⟩

def triesUnwind : UnwindInfo := ⟨1, 1, 0, 0, 0, 0, some 0, some 520⟩

def frameHandler : Personality := ⟨some "__CxxFrameHandler3", some 0⟩

/-- What the parse finds, for the positions that the regions name and the number of handlers. -/
def triesFact (indices : List (List Nat)) (handlers : Nat) : EhFunctionFact where
  functionVa := 0x140001000
  functionEndVa := 0x140001010
  personality := some "__CxxFrameHandler3"
  personalityVa := some 0
  unwindRanges := [⟨0x140001000, 0x140001010⟩]
  tryRegions := indices.map fun own => ⟨0x140001000, 0x140001010, some 0, some 0, none, own⟩
  catchHandlers := List.replicate handlers ⟨0x140000000, .ellipsis, 0, some 0, none⟩
  evidence := .sectionAt ".pdata" 0x140001000 :: .rawAddr 0x14000100c ::
    List.replicate handlers (.instruction 0x140000000)

/-- Two handlers of the first block are linked to it. -/
theorem parseFh3_linked_firstTry :
    parseFh3 (fileOf (triesData 2 0 2)) triesRecord triesUnwind frameHandler [] =
        .ok (triesFact [[0, 1], []] 2) ∧
      Linked (fileOf (triesData 2 0 2)) []
        (tryBlocksOf (fileOf (triesData 2 0 2)) triesUnwind) (triesFact [[0, 1], []] 2) := by
  have hfact : parseFh3 (fileOf (triesData 2 0 2)) triesRecord triesUnwind frameHandler [] =
      .ok (triesFact [[0, 1], []] 2) := by decide +kernel
  have hblocks : tryBlocksOf (fileOf (triesData 2 0 2)) triesUnwind =
      [⟨0, 0, 0, 2, 0x1050⟩, ⟨0, 0, 0, 0, 0x1050⟩] := by decide +kernel
  refine ⟨hfact, ((parseFh3_linked_iff _ triesRecord triesUnwind frameHandler [] ?_ (by decide)
    (by decide +kernel)).2 _ hfact).mpr ?_⟩
  · unfold NarrowOffsets
    decide
  · rw [hblocks]
    refine ⟨List.pairwise_pair.mpr (.inr rfl), fun tb htb hne => ?_, by decide +kernel⟩
    rcases List.mem_cons.mp htb with rfl | htb
    · exact ⟨by decide, 592, by decide +kernel, by decide +kernel⟩
    · rw [List.mem_singleton.mp htb] at hne
      exact (hne rfl).elim

/-- Two blocks share an array of one handler. Both regions name the handler at the position 0; the
second one's own is at 1. -/
theorem twoTries_share :
    parseUnwindInfo (fileOf (triesData 1 1 1)) triesRecord = .ok triesUnwind ∧
    parseFh3 (fileOf (triesData 1 1 1)) triesRecord triesUnwind frameHandler [] =
      .ok (triesFact [[0], [0]] 2) ∧
      ¬ Linked (fileOf (triesData 1 1 1)) []
        (tryBlocksOf (fileOf (triesData 1 1 1)) triesUnwind) (triesFact [[0], [0]] 2) := by
  refine ⟨by decide +kernel, by decide +kernel, fun hlinked => ?_⟩
  have hapart := (List.pairwise_cons.mp hlinked.apart).1 _ List.mem_cons_self
  exact hapart List.mem_cons_self List.mem_cons_self

end Axe.Eh
