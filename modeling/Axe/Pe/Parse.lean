import Mathlib.Data.List.Sort
import Axe.Pe.Bytes
import Axe.Pe.Image

/-!
# Parsing a PE file

The header, the data directories and the section table give an image. Imports, exports and
unwind entries are then read through it.
-/
namespace Axe.Pe

open Axe.Static (ExceptionRecord ExportRecord SectionRecord)
open Checked (Fault add forRange slice)

structure Header where
  machine : Nat
  sectionCount : Nat
  optionalSize : Nat
  /-- Where the optional header starts. -/
  opt : Nat
  entryRva : Nat
  base : Nat
  dllCharacteristics : Nat
  numberOfDirs : Nat
  deriving DecidableEq

def readHeader (bytes : List UInt8) : Except Fault Header :=
  if bytes.length < 0x100 then .error (.error "not an MZ PE file") else do
  let magic ← slice bytes 0 2
  if magic ≠ [0x4D, 0x5A] then .error (.error "not an MZ PE file") else
  let peOffset ← readU32 bytes 0x3C
  if bytes.length ≤ peOffset + 24 then .error (.error "invalid PE signature") else
  let signature ← slice bytes peOffset (peOffset + 4)
  if signature ≠ [0x50, 0x45, 0, 0] then .error (.error "invalid PE signature") else
  let coff := peOffset + 4
  let machine ← readU16 bytes coff
  let sectionCount ← readU16 bytes (coff + 2)
  let optionalSize ← readU16 bytes (coff + 16)
  let opt := coff + 20
  let kind ← readU16 bytes opt
  if kind ≠ 0x20B then
    .error (.error "only PE32+ is supported by the native engine in this build")
  else
  let entryRva ← readU32 bytes (opt + 16)
  let base ← readU64 bytes (opt + 24)
  let dllCharacteristics ← readU16 bytes (opt + 70)
  let numberOfDirs ← readU32 bytes (opt + 108)
  return ⟨machine, sectionCount, optionalSize, opt, entryRva, base, dllCharacteristics,
    numberOfDirs⟩

def readDirectory (bytes : List UInt8) (header : Header) (index : Nat) :
    Except Fault (Option DataDirectory) :=
  let offset := header.opt + 112 + index * 8
  if bytes.length < offset + 8 then .ok none else do
  let rva ← readU32 bytes offset
  let size ← readU32 bytes (offset + 4)
  return some ⟨rva, size⟩

def sectionOffset (header : Header) (index : Nat) : Nat :=
  header.opt + header.optionalSize + index * 40

def imageScnMemExecute : Nat := 0x20000000

def readSection (bytes : List UInt8) (header : Header) (index : Nat) :
    Except Fault (Option SectionRecord) :=
  let offset := sectionOffset header index
  if bytes.length < offset + 40 then .ok none else do
  let nameBytes ← slice bytes offset (offset + 8)
  let name := fromUtf8Lossy (nameBytes.takeWhile (· ≠ 0))
  let virtualSize ← readU32 bytes (offset + 8)
  let rva ← readU32 bytes (offset + 12)
  let rawSize ← readU32 bytes (offset + 16)
  let rawStart ← readU32 bytes (offset + 20)
  let characteristics ← readU32 bytes (offset + 36)
  let stop := min (rawStart + rawSize) bytes.length
  let va ← add 64 header.base rva
  -- the bytes whose entropy is taken
  let _ ← slice bytes rawStart stop
  return some {
    name, rva, va, virtualSize, rawStart, rawSize
    dataSize := stop - rawStart
    executable := characteristics &&& imageScnMemExecute ≠ 0
    dataRange := (rawStart, stop) }

/-- The image that imports, exports and unwind entries are read from. -/
def imageOf (bytes : List UInt8) (header : Header) (dataDirectories : List DataDirectory)
    (sections : List SectionRecord) (entryVa : Nat) : PEImage where
  bytes := bytes
  base := header.base
  entryVa := entryVa
  machine := header.machine
  dllCharacteristics := header.dllCharacteristics
  dataDirectories := dataDirectories
  sections := sections.insertionSort fun s s' => s.rva ≤ s'.rva
  imports := []
  exports := []
  exceptions := []
  functionSeedsCache := []
  overlayOffsetCache := none

namespace PEImage

def directory (image : PEImage) (index : Nat) : Option DataDirectory :=
  image.dataDirectories[index]?.filter fun dir => dir.rva ≠ 0 ∧ dir.size ≠ 0

def readCStringRva (image : PEImage) (rva : Nat) : Except Fault (Option String) :=
  match image.rvaToFileOffset rva with
  | none => .ok none
  | some start => do
    let text ← slice image.bytes start (cStringEnd image.bytes start)
    return some (fromUtf8Lossy text)

end PEImage

structure ImportDescriptor where
  originalFirstThunk : Nat
  nameRva : Nat
  firstThunk : Nat
  deriving DecidableEq

def importDescriptorAt (bytes : List UInt8) (offset : Nat) : ImportDescriptor :=
  ⟨u32At bytes offset, u32At bytes (offset + 12), u32At bytes (offset + 16)⟩

def ImportDescriptor.thunkRva (d : ImportDescriptor) : Nat :=
  if d.originalFirstThunk ≠ 0 then d.originalFirstThunk else d.firstThunk

/-- The name and the hint of a thunk: its ordinal, or the entry that it points at. -/
def thunkName (image : PEImage) (value index : Nat) : String × Option Nat :=
  if value &&& 0x8000000000000000 ≠ 0 then ("ord_" ++ toString (value &&& 0xFFFF), none)
  else
    let entry := image.rvaToFileOffset (asU32 value)
    let name := entry.bind fun off => readCString image.bytes (off + 2)
    (name.getD ("ord_" ++ toString index), entry.bind fun off =>
      (readU16 image.bytes off).toOption)

def importThunk (image : PEImage) (dll : String) (firstThunk start index : Nat) :
    Except Fault (Option ImportRecord) :=
  let offset := start + index * 8
  let value := u64At image.bytes offset
  if image.bytes.length < offset + 8 ∨ value = 0 then .ok none else do
  let named := thunkName image value index
  let slot ← add 64 image.base firstThunk
  let va ← add 64 slot (index * 8)
  return some ⟨dll, named.1, dll ++ "!" ++ named.1, va, va - image.base, named.2⟩

def importRowsOf (image : PEImage) (descriptor : ImportDescriptor) :
    Except Fault (Option (List ImportRecord)) := do
  let dll ← image.readCStringRva descriptor.nameRva
  match image.rvaToFileOffset descriptor.thunkRva with
  | none => return some []
  | some thunks =>
    let rows ← forRange (importThunk image (dll.getD "") descriptor.firstThunk thunks) 65536 0
    return some rows

/-- The rows of one descriptor of the table, which ends with a descriptor of zeros. -/
def importRows (image : PEImage) (start index : Nat) : Except Fault (Option (List ImportRecord)) :=
  let offset := start + index * 20
  let descriptor := importDescriptorAt image.bytes offset
  if image.bytes.length < offset + 20 ∨ descriptor = ⟨0, 0, 0⟩ then .ok none
  else importRowsOf image descriptor

def importTable (image : PEImage) : Option Nat :=
  (image.directory 1).bind fun dir => image.rvaToFileOffset dir.rva

def parseImports (image : PEImage) : Except Fault (List ImportRecord) :=
  match importTable image with
  | none => .ok []
  | some start => do
    let rows ← forRange (importRows image start) 4096 0
    return rows.flatten

structure ExportTables where
  ordinalBase : Nat
  numberOfNames : Nat
  names : Nat
  ordinals : Nat
  functions : Nat

/-- The export directory, with the file offsets of its three tables. -/
def exportTables (image : PEImage) : Option ExportTables := do
  let dir ← image.directory 0
  let offset ← image.rvaToFileOffset dir.rva
  if image.bytes.length < offset + 40 then none else
  let names ← image.rvaToFileOffset (u32At image.bytes (offset + 32))
  let ordinals ← image.rvaToFileOffset (u32At image.bytes (offset + 36))
  let functions ← image.rvaToFileOffset (u32At image.bytes (offset + 28))
  return ⟨u32At image.bytes (offset + 16), u32At image.bytes (offset + 24), names, ordinals,
    functions⟩

namespace ExportTables

def nameRva (tables : ExportTables) (bytes : List UInt8) (index : Nat) : Nat :=
  u32At bytes (tables.names + index * 4)

def ordinalIndex (tables : ExportTables) (bytes : List UInt8) (index : Nat) : Nat :=
  u16At bytes (tables.ordinals + index * 2)

def functionRva (tables : ExportTables) (bytes : List UInt8) (index : Nat) : Nat :=
  u32At bytes (tables.functions + tables.ordinalIndex bytes index * 4)

end ExportTables

def exportRow (image : PEImage) (tables : ExportTables) (index : Nat) :
    Except Fault (Option ExportRecord) := do
  let name ← image.readCStringRva (tables.nameRva image.bytes index)
  let ordinal ← add 32 tables.ordinalBase (tables.ordinalIndex image.bytes index)
  let functionRva := tables.functionRva image.bytes index
  let va ← add 64 image.base functionRva
  return some ⟨name.getD ("exp_" ++ toString index), ordinal, va, functionRva⟩

def parseExports (image : PEImage) : Except Fault (List ExportRecord) :=
  match exportTables image with
  | none => .ok []
  | some tables => forRange (exportRow image tables) tables.numberOfNames 0

/-- The file offset of the unwind entries and their size: from the directory, else the section
of that name. -/
def exceptionTable (image : PEImage) : Option (Nat × Nat) :=
  ((image.directory 3).bind fun dir =>
      (image.rvaToFileOffset dir.rva).map fun off => (off, dir.size)).or
    ((image.sections.find? fun s => s.name.toList.map Char.toLower = ".pdata".toList).map
      fun s => (s.rawStart, s.dataSize))

structure RuntimeFunction where
  beginRva : Nat
  endRva : Nat
  unwindRva : Nat

def runtimeFunctionAt (bytes : List UInt8) (offset : Nat) : RuntimeFunction :=
  ⟨u32At bytes offset, u32At bytes (offset + 4), u32At bytes (offset + 8)⟩

/-- An entry is kept when its range is not empty and starts in an executable section. -/
def RuntimeFunction.kept (image : PEImage) (f : RuntimeFunction) : Bool :=
  f.beginRva ≠ 0 && f.beginRva < f.endRva &&
    ((image.sectionForRva f.beginRva).map SectionRecord.executable).getD false

theorem RuntimeFunction.lt_of_kept {image : PEImage} {f : RuntimeFunction}
    (h : f.kept image = true) : f.beginRva < f.endRva := by
  rw [kept, Bool.and_eq_true, Bool.and_eq_true, decide_eq_true_iff] at h
  exact of_decide_eq_true h.1.2

def exceptionRow (image : PEImage) (start stop index : Nat) :
    Except Fault (Option (Option ExceptionRecord)) :=
  let offset := start + index * 12
  let f := runtimeFunctionAt image.bytes offset
  if stop < offset + 12 then .ok none
  else if h : f.kept image = true then do
    let _ ← add 64 image.base f.beginRva
    let _ ← add 64 image.base f.endRva
    let _ ← add 64 image.base f.unwindRva
    return some (some {
      beginRva := f.beginRva
      endRva := f.endRva
      unwindRva := f.unwindRva
      begin := image.base + f.beginRva
      stop := image.base + f.endRva
      unwind := image.base + f.unwindRva
      nonempty := Nat.add_lt_add_left (RuntimeFunction.lt_of_kept h) _ })
  else .ok (some none)

/-- The rows end where the table or the file does, after fewer rows than bytes. -/
def parseExceptions (image : PEImage) : Except Fault (List ExceptionRecord) :=
  match exceptionTable image with
  | none => .ok []
  | some (start, size) => do
    let stop := min (start + size) image.bytes.length
    let rows ← forRange (exceptionRow image start stop) (stop - start) 0
    return (rows.filterMap id).insertionSort fun r r' => r.begin ≤ r'.begin

def overlayOffset (image : PEImage) : Option Nat :=
  let stop := ((image.sections.map fun s => s.rawStart + s.rawSize).max?).getD 0
  if 0 < stop ∧ stop < image.bytes.length then some stop else none

def functionSeeds (image : PEImage) (exports : List ExportRecord)
    (exceptions : List ExceptionRecord) : List Nat :=
  let entry := if image.entryVa ≠ 0 then [image.entryVa] else []
  let begins := (exceptions.map ExceptionRecord.begin).filter (· ≠ 0)
  let exported := (exports.map ExportRecord.va).filter fun va =>
    ((image.sectionForVa va).map SectionRecord.executable).getD false
  ((entry ++ begins ++ exported).insertionSort (· ≤ ·)).eraseReps

/-- Adds what is read through the image. -/
def readTables (image : PEImage) : Except Fault PEImage := do
  let imports ← parseImports image
  let exports ← parseExports image
  let exceptions ← parseExceptions image
  return { image with
    imports, exports, exceptions
    functionSeedsCache := functionSeeds image exports exceptions
    overlayOffsetCache := overlayOffset image }

def readEntry (header : Header) : Except Fault Nat :=
  if header.entryRva = 0 then .ok 0 else add 64 header.base header.entryRva

def parseImage (bytes : List UInt8) (header : Header) : Except Fault PEImage := do
  let dataDirectories ← forRange (readDirectory bytes header) (min header.numberOfDirs 16) 0
  let sections ← forRange (readSection bytes header) header.sectionCount 0
  let entryVa ← readEntry header
  readTables (imageOf bytes header dataDirectories sections entryVa)

def parse (bytes : List UInt8) : Except Fault PEImage := do
  let header ← readHeader bytes
  parseImage bytes header

end Axe.Pe
