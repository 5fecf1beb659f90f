import Axe.Pe.Bytes
import Axe.Pe.Image
import Mathlib.Data.List.Infix
import Mathlib.Data.List.Sort

/-!
# Virtual tables and their class names

Runs of pointers into executable sections are taken for virtual tables, and the eight bytes
before one for the address of its complete object locator. Offsets that come from 32-bit fields
stay inside `usize`; every other sum of addresses is checked.
-/
namespace Axe.Pe

open Checked (Fault add)
open Axe.Static (SectionRecord)

structure StringRecord where
  va : Nat
  rva : Nat
  text : String
  sectionName : Option String

structure RttiRecord where
  va : Nat
  rva : Nat
  text : String
  sectionName : Option String

structure VTableRecord where
  va : Nat
  rva : Nat
  sectionName : String
  methodCount : Nat
  methods : List Nat
  probableClass : Option String
  colVa : Option Nat
  classDescriptorVa : Option Nat
  baseClasses : List String
  constructorCandidates : List Nat
  ownershipConfidence : String

structure ParsedMsvcCol where
  colVa : Nat
  typeDescriptorVa : Nat
  classDescriptorVa : Nat
  className : Option String
  classAttributes : Nat
  numBaseClasses : Nat
  baseClasses : List String

/-- A difference of addresses, which may not go below zero. -/
def sub (a b : Nat) : Except Fault Nat := if b ≤ a then .ok (a - b) else .error (.overflow 64)

def rttiPtr (imageBase signature raw : Nat) : Except Fault Nat :=
  if signature = 1 then add 64 imageBase raw else .ok raw

/-- The bytes from an offset up to the first zero or the end of the file. -/
def textAt (bytes : List UInt8) (start : Nat) : List UInt8 := (bytes.drop start).takeWhile (· ≠ 0)

def readTypeDescriptorName (bytes : List UInt8) (imageBase typeDescriptorVa : Nat) :
    Option String :=
  if typeDescriptorVa < imageBase then none
  else
    let text := textAt bytes (typeDescriptorVa - imageBase + 16)
    if text = [] then none else some (fromUtf8Lossy text)

/-- The name of the base class that an entry of the array leads to. -/
def baseClassName (bytes : List UInt8) (imageBase signature bcdRaw : Nat) :
    Except Fault (Option String) := do
  if bcdRaw = 0 then return none
  let bcdVa ← rttiPtr imageBase signature bcdRaw
  if bcdVa < imageBase then return none
  if bytes.length < bcdVa - imageBase + 4 then return none
  let typeRaw := u32At bytes (bcdVa - imageBase)
  if typeRaw = 0 then return none
  let typeVa ← rttiPtr imageBase signature typeRaw
  return readTypeDescriptorName bytes imageBase typeVa

/-- The names of so many entries of the array from an offset on; an entry outside the file ends
the function. -/
def baseClassNames (bytes : List UInt8) (imageBase signature : Nat) :
    (count entry : Nat) → Except Fault (Option (List String))
  | 0, _ => return some []
  | count + 1, entry => do
    if bytes.length < entry + 4 then return none
    let name ← baseClassName bytes imageBase signature (u32At bytes entry)
    let rest ← baseClassNames bytes imageBase signature count (entry + 4)
    return rest.map (name.toList ++ ·)

def sortNames (names : List String) : List String := (names.insertionSort (· ≤ ·)).eraseDups

def parseClassHierarchy (bytes : List UInt8) (imageBase signature classDescriptorVa : Nat) :
    Except Fault (Option (Nat × Nat × List String)) := do
  if classDescriptorVa < imageBase then return none
  let offset := classDescriptorVa - imageBase
  if bytes.length < offset + 16 then return none
  let attributes := u32At bytes (offset + 4)
  let numBaseClasses := u32At bytes (offset + 8)
  let baseArrayRaw := u32At bytes (offset + 12)
  if numBaseClasses = 0 ∨ 256 < numBaseClasses ∨ baseArrayRaw = 0 then
    return some (attributes, numBaseClasses, [])
  let baseArrayVa ← rttiPtr imageBase signature baseArrayRaw
  if baseArrayVa < imageBase then return none
  let names ← baseClassNames bytes imageBase signature (min numBaseClasses 64)
    (baseArrayVa - imageBase)
  return names.map fun names => (attributes, numBaseClasses, sortNames names)

def parseMsvcCol (bytes : List UInt8) (imageBase colVa : Nat) :
    Except Fault (Option ParsedMsvcCol) := do
  if colVa < imageBase then return none
  let colOffset := colVa - imageBase
  let stop ← add 64 colOffset 20
  if bytes.length < stop then return none
  let signature := u32At bytes colOffset
  let typeDescriptorRaw := u32At bytes (colOffset + 12)
  let classDescriptorRaw := u32At bytes (colOffset + 16)
  if 1 < signature ∨ typeDescriptorRaw = 0 ∨ classDescriptorRaw = 0 then return none
  let typeDescriptorVa ← rttiPtr imageBase signature typeDescriptorRaw
  let classDescriptorVa ← rttiPtr imageBase signature classDescriptorRaw
  let hierarchy ← parseClassHierarchy bytes imageBase signature classDescriptorVa
  let (classAttributes, numBaseClasses, baseClasses) := hierarchy.getD (0, 0, [])
  return some {
    colVa, typeDescriptorVa, classDescriptorVa
    className := readTypeDescriptorName bytes imageBase typeDescriptorVa
    classAttributes, numBaseClasses, baseClasses }

def recoverRtti (strings : List StringRecord) : List RttiRecord :=
  (strings.filter fun row =>
    ".?AV".toList <:+: row.text.toList || ".?AU".toList <:+: row.text.toList).map fun row =>
      ⟨row.va, row.rva, row.text, row.sectionName⟩

def nearestRtti (va : Nat) (rtti : List RttiRecord) : Option String :=
  (rtti.filter fun row => row.va ≤ va && va - row.va < 0x200).getLast?.map RttiRecord.text

/-- What stands in the eight bytes before an offset. -/
def valueBefore (data : List UInt8) (offset : Nat) : Option Nat :=
  if offset < 8 then none else some (u64At data (offset - 8))

namespace PEImage

variable (image : PEImage)

def executableAt (va : Nat) : Bool :=
  ((image.sectionForVa va).map SectionRecord.executable).getD false

/-- The pointers into executable sections from a cursor on, at most `count`. -/
def methodsFrom (data : List UInt8) : (count cursor : Nat) → List Nat
  | 0, _ => []
  | count + 1, cursor =>
    if data.length < cursor + 8 then []
    else
      let ptr := u64At data cursor
      if image.executableAt ptr then ptr :: methodsFrom data count (cursor + 8) else []

def methodsAt (data : List UInt8) (offset : Nat) : List Nat :=
  image.methodsFrom data data.length offset

def tableRow (rtti : List RttiRecord) (sect : SectionRecord) (data : List UInt8)
    (offset va : Nat) : Except Fault VTableRecord := do
  let methods := image.methodsAt data offset
  let col ←
    match valueBefore data offset with
    | some colVa => parseMsvcCol image.bytes image.base colVa
    | none => pure none
  let rva ← sub va image.base
  return {
    va, rva
    sectionName := sect.name
    methodCount := methods.length
    methods := methods.take 64
    probableClass := (col.bind (·.className)).or (nearestRtti va rtti)
    colVa := col.map (·.colVa)
    classDescriptorVa := col.map (·.classDescriptorVa)
    baseClasses := (col.map (·.baseClasses)).getD []
    constructorCandidates := []
    ownershipConfidence := if col.isSome then "high" else "low" }

/-- One round of the loop over the data of a section: a table or none, and the next offset. -/
def tableAt (rtti : List RttiRecord) (sect : SectionRecord) (data : List UInt8)
    (offset : Nat) : Except Fault (Option VTableRecord) := do
  let va ← add 64 sect.va offset
  if 3 ≤ (image.methodsAt data offset).length then
    return some (← image.tableRow rtti sect data offset va)
  else return none

def nextOffset (data : List UInt8) (offset : Nat) : Nat :=
  let methods := image.methodsAt data offset
  if 3 ≤ methods.length then offset + 8 * methods.length else offset + 8

/-- The offsets that the loop over the data of a section comes to, at most `count`. -/
def offsetsFrom (data : List UInt8) : (count offset : Nat) → List Nat
  | 0, _ => []
  | count + 1, offset =>
    if data.length < offset + 24 then []
    else offset :: offsetsFrom data count (image.nextOffset data offset)

def sectionTables (rtti : List RttiRecord) (sect : SectionRecord) :
    Except Fault (List VTableRecord) :=
  if sect.executable ∨ sect.dataSize < 24 then return []
  else do
    let data := sectionData sect image.bytes
    let rows ← (image.offsetsFrom data data.length 0).mapM (image.tableAt rtti sect data)
    return rows.filterMap id

def recoverCpp (strings : List StringRecord) :
    Except Fault (List VTableRecord × List RttiRecord) := do
  let rtti := recoverRtti strings
  let tables ← image.sections.mapM (image.sectionTables rtti)
  return (tables.flatten, rtti)

end PEImage

end Axe.Pe
