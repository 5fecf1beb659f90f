import Axe.Static.Image

/-!
# Images of PE files and snapshots

Relative addresses and sizes are 32 bits wide, so casts to them keep the remainder.
-/
namespace Axe.Pe

open Axe.Static (ExceptionRecord ExportRecord SectionRecord)

structure DataDirectory where
  rva : Nat
  size : Nat
  deriving DecidableEq

structure ImportRecord where
  dll : String
  name : String
  symbol : String
  va : Nat
  rva : Nat
  hint : Option Nat
  deriving DecidableEq

structure PEImage where
  bytes : List UInt8
  base : Nat
  entryVa : Nat
  machine : Nat
  dllCharacteristics : Nat
  dataDirectories : List DataDirectory
  sections : List SectionRecord
  imports : List ImportRecord
  exports : List ExportRecord
  exceptions : List ExceptionRecord
  functionSeedsCache : List Nat
  overlayOffsetCache : Option Nat
  deriving DecidableEq

def asU32 (n : Nat) : Nat := n % 2 ^ 32

def saturatingAddU32 (a b : Nat) : Nat := min (a + b) (2 ^ 32 - 1)

/-- The size of a section in memory. -/
def mappedSize (sect : SectionRecord) : Nat :=
  max (max sect.virtualSize sect.rawSize) (asU32 sect.dataSize)

def containsRva (sect : SectionRecord) (rva : Nat) : Bool :=
  sect.rva ≤ rva && rva < saturatingAddU32 sect.rva (mappedSize sect)

namespace PEImage

def sectionForRva (image : PEImage) (rva : Nat) : Option SectionRecord :=
  image.sections.find? (containsRva · rva)

def sectionForVa (image : PEImage) (va : Nat) : Option SectionRecord :=
  if va < image.base then none else image.sectionForRva (asU32 (va - image.base))

def sectionByRva (image : PEImage) (rva : Nat) : Option SectionRecord :=
  image.sections.find? (·.rva = rva)

def rvaToFileOffset (image : PEImage) (rva : Nat) : Option Nat :=
  (image.sectionForRva rva).bind fun sect =>
    let offset := rva - sect.rva
    if max sect.rawSize (asU32 sect.dataSize) ≤ offset then none else some (sect.rawStart + offset)

end PEImage

/-- The bytes of a section, where its range lies in the file. -/
def sectionData (sect : SectionRecord) (bytes : List UInt8) : List UInt8 :=
  (bytes.drop sect.dataRange.1).take (sect.dataRange.2 - sect.dataRange.1)

theorem containsRva_iff {sect : SectionRecord} {rva : Nat} :
    containsRva sect rva = true ↔
      sect.rva ≤ rva ∧ rva < sect.rva + mappedSize sect ∧ rva < 2 ^ 32 - 1 := by
  rw [containsRva, saturatingAddU32, Bool.and_eq_true, decide_eq_true_iff, decide_eq_true_iff,
    lt_min_iff]

/-- The bytes of a number, the lowest first. -/
def leBytes : (width n : Nat) → List UInt8
  | 0, _ => []
  | width + 1, n => UInt8.ofNat n :: leBytes width (n / 256)

def sectionHeader (sect : SectionRecord) : List UInt8 :=
  let name := sect.name.toList.map fun c => UInt8.ofNat c.toNat
  name ++ List.replicate (8 - name.length) 0 ++ leBytes 4 sect.virtualSize ++ leBytes 4 sect.rva ++
    leBytes 4 sect.rawSize ++ leBytes 4 sect.rawStart ++ List.replicate 12 0 ++
    leBytes 4 (if sect.executable then 0x60000020 else 0x40000040)

/-- The headers of a 64-bit file, filled up to 512 bytes. -/
def fileHeaders (base : Nat) (sections : List SectionRecord) : List UInt8 :=
  let dos := [[0x4D, 0x5A], List.replicate 58 0, leBytes 4 64]
  let coff := [[0x50, 0x45, 0, 0], leBytes 2 0x8664, leBytes 2 sections.length,
    List.replicate 12 0, leBytes 2 240, leBytes 2 0x22]
  let optional := [leBytes 2 0x20B, List.replicate 22 0, leBytes 8 base, leBytes 4 0x1000,
    leBytes 4 0x200, List.replicate 16 0, leBytes 4 0x10000, leBytes 4 0x200, List.replicate 4 0,
    leBytes 2 3, List.replicate 38 0, leBytes 4 16, List.replicate 128 0]
  (dos ++ coff ++ optional ++ sections.map sectionHeader).flatten ++
    List.replicate (184 - 40 * sections.length) 0

/-- A file of one section. -/
def fileOf (data : List UInt8) : PEImage where
  bytes := fileHeaders 0x140000000
    [⟨".rdata", 0x1000, 0x140001000, data.length, 512, data.length, data.length, false,
      (512, 512 + data.length)⟩] ++ data
  base := 0x140000000
  entryVa := 0x140001000
  machine := 0x8664
  dllCharacteristics := 0
  dataDirectories := []
  sections :=
    [⟨".rdata", 0x1000, 0x140001000, data.length, 512, data.length, data.length, false,
      (512, 512 + data.length)⟩]
  imports := []
  exports := []
  exceptions := []
  functionSeedsCache := []
  overlayOffsetCache := none

end Axe.Pe
