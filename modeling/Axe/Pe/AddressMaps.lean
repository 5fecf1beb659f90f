import Axe.Pe.Image

/-!
# Addresses and file offsets

An address is cut to 32 bits before its section is looked up, and a relative address may have a
file offset as far as the raw size of the header goes, whatever the file has of it.
-/
namespace Axe.Pe

open Axe.Static (SectionRecord)

/-- The fields of 32 bits of a section. -/
structure Narrow32 (s : SectionRecord) : Prop where
  rva : s.rva < 2 ^ 32
  virtualSize : s.virtualSize < 2 ^ 32
  rawSize : s.rawSize < 2 ^ 32

/-- The address is in the section. -/
def InSection (s : SectionRecord) (va : Nat) : Prop :=
  s.va ≤ va ∧ va < s.va + max (max s.virtualSize s.rawSize) s.dataSize

/-- The file offset is where the data of the section has the relative address. -/
def OffsetOf (image : PEImage) (s : SectionRecord) (rva offset : Nat) : Prop :=
  (s.dataRange.1 ≤ offset ∧ offset < s.dataRange.2 ∧ offset < image.bytes.length) ∧
    offset - s.dataRange.1 = rva - s.rva

/-- The first listed section that holds a relative address. -/
def FirstHolding (image : PEImage) (rva : Nat) (s : SectionRecord) : Prop :=
  ∃ before after, image.sections = before ++ s :: after ∧ containsRva s rva = true ∧
    ∀ t ∈ before, containsRva t rva = false

/-- How many bytes of its data range the file has of a section. -/
def presentSize (image : PEImage) (s : SectionRecord) : Nat :=
  min s.dataRange.2 image.bytes.length - s.dataRange.1

section Lookups
variable {image : PEImage} {s : SectionRecord} {va rva : Nat}

theorem FirstHolding.mem (h : FirstHolding image rva s) : s ∈ image.sections := by
  obtain ⟨before, after, hsections, -, -⟩ := h
  rw [hsections]
  exact List.mem_append_right _ List.mem_cons_self

theorem FirstHolding.bounds (h : FirstHolding image rva s) :
    s.rva ≤ rva ∧ rva < s.rva + mappedSize s := by
  obtain ⟨-, -, -, hholds, -⟩ := h
  have hrva := containsRva_iff.mp hholds
  exact ⟨hrva.1, hrva.2.1⟩

theorem sectionForRva_eq_some :
    image.sectionForRva rva = some s ↔ FirstHolding image rva s := by
  rw [PEImage.sectionForRva, List.find?_eq_some_iff_append]
  constructor
  · rintro ⟨hholds, before, after, hsections, hbefore⟩
    exact ⟨before, after, hsections, hholds, fun t ht => by simpa using hbefore t ht⟩
  · rintro ⟨before, after, hsections, hholds, hbefore⟩
    exact ⟨hholds, before, after, hsections, fun t ht => by simpa using hbefore t ht⟩

/-- An address is looked up under the remainder of its distance from the base. -/
theorem sectionForVa_eq_some : image.sectionForVa va = some s ↔
    image.base ≤ va ∧ FirstHolding image (asU32 (va - image.base)) s := by
  rw [PEImage.sectionForVa]
  split
  · rename_i hbelow
    exact iff_of_false nofun fun h => Nat.not_lt.mpr h.1 hbelow
  · rename_i hbase
    rw [sectionForRva_eq_some, and_iff_right (Nat.le_of_not_lt hbase)]

theorem asU32_le (n : Nat) : asU32 n ≤ n := Nat.mod_le _ _

/-- A section that is found has the address unless it is 4 GiB or more away. -/
theorem inSection_iff (hs : Narrow32 s) (hva : s.va = image.base + s.rva)
    (hbase : image.base ≤ va) (h : FirstHolding image (asU32 (va - image.base)) s) :
    InSection s va ↔ va < image.base + 2 ^ 32 ∨ va < s.va + s.dataSize := by
  obtain ⟨hle, hlt⟩ := h.bounds
  have hcut := asU32_le s.dataSize
  have hdata : asU32 s.dataSize < 2 ^ 32 := Nat.mod_lt _ (by decide)
  have hmapped : mappedSize s = max (max s.virtualSize s.rawSize) (asU32 s.dataSize) := rfl
  have hv := hs.virtualSize
  have hr := hs.rawSize
  rw [InSection, hva]
  rw [asU32] at hle hlt
  constructor
  · rintro ⟨-, hin⟩
    by_contra hfar
    have hmod := Nat.mod_lt (va - image.base) (show 0 < 2 ^ 32 by decide)
    have hdiv := Nat.div_add_mod (va - image.base) (2 ^ 32)
    have hbig : 1 ≤ (va - image.base) / 2 ^ 32 := by omega
    omega
  · rintro (hnear | hin)
    · have hsmall : (va - image.base) % 2 ^ 32 = va - image.base :=
        Nat.mod_eq_of_lt (by omega)
      omega
    · have hrest := Nat.mod_le (va - image.base) (2 ^ 32)
      omega

theorem rvaToFileOffset_iff (h : image.sectionForRva rva = some s) :
    (∀ offset, image.rvaToFileOffset rva = some offset → OffsetOf image s rva offset) ↔
      max s.rawSize (asU32 s.dataSize) ≤ rva - s.rva ∨
        s.rawStart = s.dataRange.1 ∧ rva - s.rva < presentSize image s := by
  rw [PEImage.rvaToFileOffset, h, Option.bind_some]
  dsimp only
  split
  · rename_i hout
    exact iff_of_true nofun (.inl hout)
  · rename_i hin
    rw [or_iff_right hin]
    simp only [Option.some.injEq, forall_eq', OffsetOf, presentSize]
    omega

end Lookups

/-- An address is in the section that is found for it just when it is less than 4 GiB above the
base, or the section has that much data. A file offset is where the section has its data just
when the data starts at the raw start and reaches the offset, or there is no file offset. -/
theorem addressMaps_iff (image : PEImage)
    (hfields : ∀ s ∈ image.sections, Narrow32 s)
    (hvas : ∀ s ∈ image.sections, s.va = image.base + s.rva) (va rva : Nat) :
    ((∀ s, image.sectionForVa va = some s → InSection s va) ↔
      (image.base ≤ va → ∀ s, FirstHolding image ((va - image.base) % 2 ^ 32) s →
        va < image.base + 2 ^ 32 ∨ va < s.va + s.dataSize)) ∧
    ((∀ s offset, image.sectionForRva rva = some s → image.rvaToFileOffset rva = some offset →
        OffsetOf image s rva offset) ↔
      ∀ s, FirstHolding image rva s →
        max s.rawSize (asU32 s.dataSize) ≤ rva - s.rva ∨
          s.rawStart = s.dataRange.1 ∧ rva - s.rva < presentSize image s) := by
  constructor
  · simp only [sectionForVa_eq_some, and_imp]
    rw [forall_comm]
    refine forall_congr' fun hbase => forall_congr' fun s => forall_congr' fun h => ?_
    exact inSection_iff (hfields s h.mem) (hvas s h.mem) hbase h
  · refine forall_congr' fun s => ?_
    rw [forall_comm, ← sectionForRva_eq_some]
    exact forall_congr' fun h => rvaToFileOffset_iff h

/-- Half of the raw data of the section is in the file. -/
def cutImage : PEImage where
  bytes := List.replicate 768 0
  base := 0x140000000
  entryVa := 0x140001000
  machine := 0x8664
  dllCharacteristics := 0
  dataDirectories := []
  sections := [⟨".text", 4096, 0x140001000, 512, 512, 512, 256, true, (512, 768)⟩]
  imports := []
  exports := []
  exceptions := []
  functionSeedsCache := []
  overlayOffsetCache := none

/-- The section is found 4 GiB above itself, and has an offset behind the end of the file. -/
theorem cutImage_misses :
    (∀ s ∈ cutImage.sections, s.va = cutImage.base + s.rva) ∧
    (∃ s, cutImage.sectionForVa 0x240001000 = some s ∧ ¬ InSection s 0x240001000) ∧
    ∃ s, cutImage.sectionForRva 4352 = some s ∧ cutImage.rvaToFileOffset 4352 = some 768 ∧
      ¬ OffsetOf cutImage s 4352 768 := by
  refine ⟨by decide, ⟨_, rfl, ?_⟩, ⟨_, rfl, rfl, ?_⟩⟩
  · unfold InSection
    decide
  · unfold OffsetOf
    decide

/-- Below, what the maps give is right. -/
theorem addressMaps_cutImage :
    (∃ s, cutImage.sectionForVa 0x1400010FF = some s ∧ InSection s 0x1400010FF) ∧
      ∃ s, cutImage.sectionForRva 4351 = some s ∧ cutImage.rvaToFileOffset 4351 = some 767 ∧
        OffsetOf cutImage s 4351 767 := by
  have hfields : ∀ s ∈ cutImage.sections, Narrow32 s := fun s hs => by
    obtain rfl := List.mem_singleton.mp hs
    exact ⟨by decide, by decide, by decide⟩
  obtain ⟨hva, hrva⟩ := addressMaps_iff cutImage hfields (by decide) 0x1400010FF 4351
  refine ⟨⟨_, rfl, hva.mpr (fun _ _ _ => .inl (by decide)) _ rfl⟩,
    ⟨_, rfl, rfl, hrva.mpr (fun s h => .inr ?_) _ _ rfl rfl⟩⟩
  obtain rfl := List.mem_singleton.mp h.mem
  refine ⟨rfl, ?_⟩
  have hlength : cutImage.bytes.length = 768 := List.length_replicate
  rw [presentSize, hlength]
  decide

end Axe.Pe
