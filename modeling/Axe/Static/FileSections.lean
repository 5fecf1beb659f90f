import Mathlib.Data.List.Forall2
import Axe.Lib.Checked
import Axe.Pe.Image

/-!
# Sections of ELF and Mach-O files

The headers of the sections come from a parser that does not compare the file ranges with the
file. A range is cut to 32 bits, and its end to the length of the file.
-/
namespace Axe.Static

open Axe.Pe (asU32)

/-- What the parser of the format tells of a section. -/
structure SectionHeader where
  name : Option String
  address : BitVec 64
  size : BitVec 64
  fileRange : Option (BitVec 64 × BitVec 64)
  isText : Bool
  deriving DecidableEq

/-- The part of the file that a section names. -/
def SectionRecord.data (sect : SectionRecord) (bytes : List UInt8) :
    Except Checked.Fault (List UInt8) :=
  Checked.slice bytes sect.dataRange.1 sect.dataRange.2

/-- The least address that is not zero. -/
def imageBase (headers : List SectionHeader) : Nat :=
  (((headers.map fun h => h.address.toNat).filter fun address => address ≠ 0).min?).getD 0

def rawRange (h : SectionHeader) : Nat × Nat :=
  h.fileRange.elim (0, 0) fun range => (asU32 range.1.toNat, asU32 range.2.toNat)

def collectSection (bytes : List UInt8) (base : Nat) (h : SectionHeader) : SectionRecord :=
  let raw := rawRange h
  { name := h.name.getD ""
    rva := asU32 (h.address.toNat - base)
    va := h.address.toNat
    virtualSize := asU32 h.size.toNat
    rawStart := raw.1
    rawSize := raw.2
    dataSize := raw.2
    executable := h.isText
    dataRange := if 0 < raw.2 then (raw.1, min (raw.1 + raw.2) bytes.length) else (0, 0) }

namespace Elf

def collectSections (headers : List SectionHeader) (bytes : List UInt8) (base : Nat) :
    List SectionRecord :=
  headers.map (collectSection bytes base)

def parseElf (headers : List SectionHeader) (bytes : List UInt8) : List SectionRecord :=
  collectSections headers bytes (imageBase headers)

end Elf

namespace Macho

def collectSections (headers : List SectionHeader) (bytes : List UInt8) (base : Nat) :
    List SectionRecord :=
  headers.map (collectSection bytes base)

def parseMacho (headers : List SectionHeader) (bytes : List UInt8) : List SectionRecord :=
  collectSections headers bytes (imageBase headers)

end Macho

/-- An offset of the file lies in the range of a header. -/
def SectionHeader.InRange (h : SectionHeader) (i : Nat) : Prop :=
  ∃ range, h.fileRange = some range ∧ range.1.toNat ≤ i ∧ i < range.1.toNat + range.2.toNat

structure InFile (bytes : List UInt8) (base : Nat) (h : SectionHeader) (sect : SectionRecord) :
    Prop where
  ordered : sect.dataRange.1 ≤ sect.dataRange.2
  inside : sect.dataRange.2 ≤ bytes.length
  readable : ∃ data, sect.data bytes = .ok data
  covers : ∀ i, sect.dataRange.1 ≤ i ∧ i < sect.dataRange.2 ↔ h.InRange i ∧ i < bytes.length
  near : h.address ≠ 0#64 → (sect.rva : Int) = (sect.va : Int) - base

/-- The cuts to 32 bits leave of a range what the file has of it. -/
def RangeFits (length offset size : Nat) : Prop :=
  if asU32 size = 0 then size = 0 ∨ length ≤ offset
  else asU32 offset = length ∧ length ≤ offset ∨
    offset < length ∧ offset < 2 ^ 32 ∧ (size < 2 ^ 32 ∨ length ≤ offset + asU32 size)

structure FitsFile (length base : Nat) (h : SectionHeader) : Prop where
  range : ∀ range, h.fileRange = some range → RangeFits length range.1.toNat range.2.toNat
  near : h.address ≠ 0#64 → h.address.toNat < base + 2 ^ 32

section Sections
variable {bytes : List UInt8} {base length offset size : Nat} {h : SectionHeader}
  {headers : List SectionHeader}

theorem imageBase_le (hmem : h ∈ headers) (haddress : h.address ≠ 0#64) :
    imageBase headers ≤ h.address.toNat := by
  have hne : h.address.toNat ≠ 0 := fun hzero => haddress (BitVec.eq_of_toNat_eq hzero)
  have hlisted : h.address.toNat ∈
      (headers.map fun h => h.address.toNat).filter fun address => address ≠ 0 :=
    List.mem_filter.mpr ⟨List.mem_map_of_mem (f := fun h : SectionHeader => h.address.toNat) hmem,
      decide_eq_true hne⟩
  rw [imageBase]
  cases hmin : ((headers.map fun h => h.address.toNat).filter fun address => address ≠ 0).min? with
  | none => exact Nat.zero_le _
  | some m => exact (List.min?_eq_some_iff.mp hmin).2 _ hlisted

theorem data_isOk_iff {sect : SectionRecord} : (∃ data, sect.data bytes = .ok data) ↔
    sect.dataRange.1 ≤ sect.dataRange.2 ∧ sect.dataRange.2 ≤ bytes.length := by
  rw [SectionRecord.data, Checked.slice]
  split
  · rename_i hrange
    exact iff_of_true ⟨_, rfl⟩ hrange
  · rename_i hrange
    refine iff_of_false ?_ hrange
    rintro ⟨_, hdata⟩
    cases hdata

/-- Two intervals with the same members are both empty or have the same ends. -/
theorem interval_eq_iff {a b c d : Nat} : (∀ i, a ≤ i ∧ i < b ↔ c ≤ i ∧ i < d) ↔
    b ≤ a ∧ d ≤ c ∨ a < b ∧ a = c ∧ b = d := by
  constructor
  · intro h
    have ha := h a
    have hb := h b
    have hc := h c
    have hd := h d
    have hlast := h (b - 1)
    have hlast' := h (d - 1)
    omega
  · rintro h i
    omega

/-- A cut range against the bytes of the true one that there are. -/
theorem rangeFits_iff (hsize : 0 < asU32 size) :
    (asU32 offset ≤ min (asU32 offset + asU32 size) length ∧
      ∀ i, asU32 offset ≤ i ∧ i < min (asU32 offset + asU32 size) length ↔
        offset ≤ i ∧ i < min (offset + size) length) ↔
    RangeFits length offset size := by
  rw [interval_eq_iff, RangeFits, if_neg hsize.ne']
  simp only [asU32] at hsize ⊢
  omega

theorem rangeFits_zero_iff (hsize : asU32 size = 0) :
    (∀ i, 0 ≤ i ∧ i < 0 ↔ offset ≤ i ∧ i < min (offset + size) length) ↔
      RangeFits length offset size := by
  rw [interval_eq_iff, RangeFits, if_pos hsize]
  rw [asU32] at hsize
  omega

theorem near_iff (hbase : base ≤ h.address.toNat) :
    ((asU32 (h.address.toNat - base) : Nat) : Int) = (h.address.toNat : Int) - base ↔
      h.address.toNat < base + 2 ^ 32 := by
  rw [asU32]
  omega

theorem inRange_iff {range : BitVec 64 × BitVec 64} {i : Nat} (hrange : h.fileRange = some range) :
    h.InRange i ∧ i < length ↔
      range.1.toNat ≤ i ∧ i < min (range.1.toNat + range.2.toNat) length := by
  have hin : h.InRange i ↔
      range.1.toNat ≤ i ∧ i < range.1.toNat + range.2.toNat := by
    constructor
    · rintro ⟨range', hrange', hi⟩
      exact Option.some.inj (hrange.symm.trans hrange') ▸ hi
    · exact fun hi => ⟨range, hrange, hi⟩
  rw [hin, Nat.lt_min, and_assoc]

theorem collectSection_range_iff (bytes : List UInt8) (base : Nat) (h : SectionHeader) :
    ((collectSection bytes base h).dataRange.1 ≤ (collectSection bytes base h).dataRange.2 ∧
        (collectSection bytes base h).dataRange.2 ≤ bytes.length ∧
        ∀ i, (collectSection bytes base h).dataRange.1 ≤ i ∧
          i < (collectSection bytes base h).dataRange.2 ↔ h.InRange i ∧ i < bytes.length) ↔
      ∀ range, h.fileRange = some range →
        RangeFits bytes.length range.1.toNat range.2.toNat := by
  cases hrange : h.fileRange with
  | none =>
    have hnone : ∀ i, ¬ h.InRange i := fun i ⟨range, hsome, _⟩ => by
      rw [hrange] at hsome
      cases hsome
    refine iff_of_true ?_ (by simp)
    simp [collectSection, rawRange, hrange, hnone]
  | some range =>
    simp only [Option.some.injEq, forall_eq', inRange_iff hrange]
    by_cases hsize : 0 < asU32 range.2.toNat
    · have hdata : (collectSection bytes base h).dataRange = (asU32 range.1.toNat,
          min (asU32 range.1.toNat + asU32 range.2.toNat) bytes.length) := by
        simp only [collectSection, rawRange, hrange, Option.elim_some, if_pos hsize]
      rw [hdata, ← rangeFits_iff hsize, and_iff_right (Nat.min_le_right _ _)]
    · have hdata : (collectSection bytes base h).dataRange = (0, 0) := by
        simp only [collectSection, rawRange, hrange, Option.elim_some, if_neg hsize]
      rw [hdata, ← rangeFits_zero_iff (Nat.eq_zero_of_not_pos hsize),
        and_iff_right (Nat.le_refl 0), and_iff_right (Nat.zero_le _)]

/-- The record of a header stays inside the file when its range and its address fit. -/
theorem inFile_iff (hmem : h ∈ headers) :
    InFile bytes (imageBase headers) h (collectSection bytes (imageBase headers) h) ↔
      FitsFile bytes.length (imageBase headers) h := by
  have hnear : (h.address ≠ 0#64 → ((collectSection bytes (imageBase headers) h).rva : Int) =
      ((collectSection bytes (imageBase headers) h).va : Int) - imageBase headers) ↔
      (h.address ≠ 0#64 → h.address.toNat < imageBase headers + 2 ^ 32) :=
    forall_congr' fun haddress => near_iff (imageBase_le hmem haddress)
  have hrange := collectSection_range_iff bytes (imageBase headers) h
  constructor
  · exact fun hin => ⟨hrange.mp ⟨hin.ordered, hin.inside, hin.covers⟩, hnear.mp hin.near⟩
  · intro hfits
    obtain ⟨hordered, hinside, hcovers⟩ := hrange.mpr hfits.range
    exact ⟨hordered, hinside, data_isOk_iff.mpr ⟨hordered, hinside⟩, hcovers,
      hnear.mpr hfits.near⟩

end Sections

theorem collectSections_inFile_iff (bytes : List UInt8) (headers : List SectionHeader) :
    (List.Forall₂ (InFile bytes (imageBase headers)) headers (Elf.parseElf headers bytes) ↔
      ∀ h ∈ headers, FitsFile bytes.length (imageBase headers) h) ∧
    (List.Forall₂ (InFile bytes (imageBase headers)) headers (Macho.parseMacho headers bytes) ↔
      ∀ h ∈ headers, FitsFile bytes.length (imageBase headers) h) := by
  have hall : List.Forall₂ (InFile bytes (imageBase headers)) headers
      (headers.map (collectSection bytes (imageBase headers))) ↔
      ∀ h ∈ headers, FitsFile bytes.length (imageBase headers) h := by
    rw [List.forall₂_map_right_iff, List.forall₂_same]
    exact forall₂_congr fun h hmem => inFile_iff hmem
  exact ⟨hall, hall⟩

/-- An ELF file that ends after its headers, those of the file and of two sections. -/
def truncatedElf : List UInt8 :=
  [0x7F, 0x45, 0x4C, 0x46, 2, 1, 1, 0, 0, 0, 0, 0, 0, 0, 0, 0,
    2, 0, 0x3E, 0, 1, 0, 0, 0, 0, 0x10, 0, 0, 0, 0, 0, 0,
    0, 0, 0, 0, 0, 0, 0, 0, 0x40, 0, 0, 0, 0, 0, 0, 0,
    0, 0, 0, 0, 0x40, 0, 0x38, 0, 0, 0, 0x40, 0, 2, 0, 0, 0] ++
  List.replicate 64 0 ++
  [0, 0, 0, 0, 1, 0, 0, 0, 6, 0, 0, 0, 0, 0, 0, 0,
    0, 0x10, 0, 0, 0, 0, 0, 0, 0, 2, 0, 0, 0, 0, 0, 0,
    4, 0, 0, 0, 0, 0, 0, 0, 0, 0, 0, 0, 0, 0, 0, 0,
    1, 0, 0, 0, 0, 0, 0, 0, 0, 0, 0, 0, 0, 0, 0, 0]

/-- The first section is the empty one, and the second starts past the end. -/
def truncatedHeaders : List SectionHeader :=
  [⟨none, 0#64, 0#64, none, false⟩, ⟨none, 0x1000#64, 4#64, some (0x200#64, 4#64), true⟩]

theorem pastEnd_not_inFile : ¬ List.Forall₂ (InFile truncatedElf (imageBase truncatedHeaders))
    truncatedHeaders (Elf.parseElf truncatedHeaders truncatedElf) := by
  rintro (_ | ⟨-, _ | ⟨hin, -⟩⟩)
  have hlength : truncatedElf.length = 192 := rfl
  have hordered : 0x200 ≤ min (0x200 + 4) truncatedElf.length := hin.ordered
  omega

end Axe.Static
