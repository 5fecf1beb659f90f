import Mathlib.Data.List.Sort
import Axe.Concolic.OperandParser
import Axe.Pe.Image

/-!
# Loading a snapshot

The regions of a dumped process become the sections of an image. Reading a blob and hashing it
are parameters, and so is the comparison of two confidence scores.
-/
namespace Axe.Pe

open Axe.Static (SectionRecord)

structure RegionDescriptor where
  id : Nat
  vaBase : List Char
  sizeBytes : Nat
  permissions : List Char
  blobPath : String
  blobHashBlake3 : String

structure OepCandidate (Score : Type) where
  va : List Char
  confidenceScore : Score

structure SnapshotManifest (Score : Type) where
  schema : String
  regions : List RegionDescriptor
  oepCandidates : List (OepCandidate Score)

/-- `trim_start_matches` of a two-letter prefix that begins with a zero. -/
def trimStartMatches (x : Char) : List Char → List Char
  | '0' :: y :: rest => if y = x then trimStartMatches x rest else '0' :: y :: rest
  | s => s

def parseHexVa (s : List Char) : Nat :=
  let trimmed := trimStartMatches 'X' (trimStartMatches 'x' (Concolic.trim s))
  ((Concolic.u64FromStrRadix trimmed 16).map BitVec.toNat).getD 0

def parseExecutable (perms : List Char) : Bool := perms[2]? = some 'X'

def snapshotSchema : String := "vuln_discovery.unpack_snapshot.v1"

def regionVa (r : RegionDescriptor) : Nat := parseHexVa r.vaBase

/-- A number with at least two digits. -/
def twoDigits (n : Nat) : String := if n < 10 then "0" ++ toString n else toString n

section

variable (readBlob : String → Except String (List UInt8)) (blake3 : List UInt8 → String)

/-- Reads and checks the blob of a region. -/
def loadRegion (r : RegionDescriptor) : Except String (RegionDescriptor × List UInt8) :=
  match readBlob r.blobPath with
  | .error e => .error ("region " ++ toString r.id ++ " blob " ++ r.blobPath ++ " unreadable: " ++ e)
  | .ok blob =>
    if blob.length ≠ r.sizeBytes then
      .error ("region " ++ toString r.id ++ " size mismatch: manifest says " ++
        toString r.sizeBytes ++ " but blob is " ++ toString blob.length)
    else if blake3 blob ≠ r.blobHashBlake3 then
      .error ("region " ++ toString r.id ++ " hash mismatch: manifest says " ++
        r.blobHashBlake3 ++ " but blob hashes to " ++ blake3 blob)
    else .ok (r, blob)

end

def regionSection (base offset : Nat) (r : RegionDescriptor) (blob : List UInt8) :
    SectionRecord where
  name := "region_" ++ twoDigits r.id
  rva := asU32 (regionVa r - base)
  va := regionVa r
  virtualSize := asU32 blob.length
  rawStart := asU32 offset
  rawSize := asU32 blob.length
  dataSize := blob.length
  executable := parseExecutable r.permissions
  dataRange := (offset, offset + blob.length)

/-- The sections lie one after the other in the bytes of the image. -/
def regionSections (base : Nat) : Nat → List (RegionDescriptor × List UInt8) → List SectionRecord
  | _, [] => []
  | offset, (r, blob) :: rest =>
    regionSection base offset r blob :: regionSections base (offset + blob.length) rest

/-- The last of the candidates with the highest score; scores that do not compare are equal. -/
def bestCandidate {Score : Type} (partialCmp : Score → Score → Option Ordering) :
    List (OepCandidate Score) → Option (OepCandidate Score)
  | [] => none
  | first :: rest => some (rest.foldl (fun best c =>
      if (partialCmp best.confidenceScore c.confidenceScore).getD .eq = .gt then best else c) first)

def fromSnapshot {Score : Type} (readBlob : String → Except String (List UInt8))
    (blake3 : List UInt8 → String) (partialCmp : Score → Score → Option Ordering)
    (manifest : SnapshotManifest Score) : Except String PEImage := do
  if manifest.schema ≠ snapshotSchema then
    throw ("unexpected snapshot schema: " ++ manifest.schema ++ " (expected " ++ snapshotSchema ++
      ")")
  let sortedRegions := manifest.regions.insertionSort fun r r' => regionVa r ≤ regionVa r'
  match sortedRegions with
  | [] => throw "snapshot manifest has no regions"
  | lowest :: _ =>
    let base := regionVa lowest
    let loaded ← sortedRegions.mapM (loadRegion readBlob blake3)
    let entryVa := ((bestCandidate partialCmp manifest.oepCandidates).map
      fun oep => parseHexVa oep.va).getD 0
    return {
      bytes := loaded.flatMap Prod.snd
      base := base
      entryVa := entryVa
      machine := 0x8664
      dllCharacteristics := 0
      dataDirectories := []
      sections := (regionSections base 0 loaded).insertionSort fun s s' => s.rva ≤ s'.rva
      imports := []
      exports := []
      exceptions := []
      functionSeedsCache := if entryVa ≠ 0 then [entryVa] else []
      overlayOffsetCache := none }

variable {Score : Type} {readBlob : String → Except String (List UInt8)}
  {blake3 : List UInt8 → String} {partialCmp : Score → Score → Option Ordering}
  {manifest : SnapshotManifest Score} {image : PEImage} {regions : List RegionDescriptor}
  {loaded : List (RegionDescriptor × List UInt8)} {r r' : RegionDescriptor}
  {blob : List UInt8} {s : SectionRecord} {base offset rva va : Nat}

def RegionHolds (r : RegionDescriptor) (va : Nat) : Prop :=
  regionVa r ≤ va ∧ va < regionVa r + r.sizeBytes

def lowestVa (regions : List RegionDescriptor) : Nat := ((regions.map regionVa).min?).getD 0

/-- The address of a region as the sections have it. -/
def regionRva (base : Nat) (r : RegionDescriptor) : Nat := asU32 (regionVa r - base)

/-- The section that was made for a region. -/
def IsSectionOf (r : RegionDescriptor) (s : SectionRecord) : Prop :=
  s.va = regionVa r ∧ s.dataSize = r.sizeBytes ∧ s.name = "region_" ++ twoDigits r.id

theorem loadRegion_ok {entry : RegionDescriptor × List UInt8}
    (h : loadRegion readBlob blake3 r = .ok entry) :
    entry.1 = r ∧ readBlob r.blobPath = .ok entry.2 ∧ entry.2.length = r.sizeBytes := by
  rw [loadRegion] at h
  split at h
  · cases h
  · rename_i blob hblob
    split at h
    · cases h
    · rename_i hsize
      split at h
      · cases h
      · obtain rfl := Except.ok.inj h
        exact ⟨rfl, hblob, not_not.mp hsize⟩

/-- Each region is loaded, and nothing else. -/
theorem loadRegions_ok (h : regions.mapM (loadRegion readBlob blake3) = .ok loaded) :
    (∀ entry ∈ loaded, ∃ r ∈ regions, loadRegion readBlob blake3 r = .ok entry) ∧
      ∀ r ∈ regions, ∃ entry ∈ loaded, loadRegion readBlob blake3 r = .ok entry := by
  induction regions generalizing loaded with
  | nil =>
    obtain rfl := Except.ok.inj h
    exact ⟨fun _ h => absurd h List.not_mem_nil, fun _ h => absurd h List.not_mem_nil⟩
  | cons r rest ih =>
    rw [List.mapM_cons] at h
    cases hr : loadRegion readBlob blake3 r with
    | error e =>
      rw [hr] at h
      cases h
    | ok entry =>
      rw [hr] at h
      cases hrest : rest.mapM (loadRegion readBlob blake3) with
      | error e =>
        rw [hrest] at h
        cases h
      | ok tail =>
        rw [hrest] at h
        obtain rfl := Except.ok.inj h
        obtain ⟨hsound, hcomplete⟩ := ih hrest
        refine ⟨fun e he => ?_, fun r' hr' => ?_⟩
        · rcases List.mem_cons.mp he with rfl | he
          · exact ⟨r, List.mem_cons_self, hr⟩
          · exact (hsound e he).imp fun r' hr' => ⟨List.mem_cons_of_mem _ hr'.1, hr'.2⟩
        · rcases List.mem_cons.mp hr' with rfl | hr'
          · exact ⟨entry, List.mem_cons_self, hr⟩
          · exact (hcomplete r' hr').imp fun e he => ⟨List.mem_cons_of_mem _ he.1, he.2⟩

theorem mem_regionSections :
    s ∈ regionSections base offset loaded ↔ ∃ before r blob after,
      loaded = before ++ (r, blob) :: after ∧
        s = regionSection base (offset + (before.flatMap Prod.snd).length) r blob := by
  induction loaded generalizing offset with
  | nil => simp [regionSections]
  | cons entry rest ih =>
    obtain ⟨r, blob⟩ := entry
    rw [regionSections, List.mem_cons, ih]
    constructor
    · rintro (rfl | ⟨before, r', blob', after, rfl, rfl⟩)
      · exact ⟨[], r, blob, rest, rfl, by simp⟩
      · refine ⟨(r, blob) :: before, r', blob', after, rfl, ?_⟩
        rw [List.flatMap_cons, List.length_append, Nat.add_assoc]
    · rintro ⟨before, r', blob', after, heq, rfl⟩
      cases before with
      | nil =>
        obtain ⟨hentry, _⟩ := List.cons.inj heq
        obtain ⟨rfl, rfl⟩ := Prod.mk.inj hentry
        exact Or.inl (by simp)
      | cons head before =>
        obtain ⟨rfl, hrest⟩ := List.cons.inj heq
        refine Or.inr ⟨before, r', blob', after, hrest, ?_⟩
        rw [List.flatMap_cons, List.length_append, Nat.add_assoc]

/-- The bytes of a region's section are those of its blob. -/
theorem sectionData_regionSection {before after : List (RegionDescriptor × List UInt8)}
    (hloaded : loaded = before ++ (r, blob) :: after) :
    sectionData (regionSection base (before.flatMap Prod.snd).length r blob)
      (loaded.flatMap Prod.snd) = blob := by
  rw [sectionData, regionSection, hloaded, List.flatMap_append, List.flatMap_cons,
    List.drop_left, Nat.add_sub_cancel_left, List.take_left]

theorem mappedSize_regionSection :
    mappedSize (regionSection base offset r blob) = asU32 blob.length := by
  rw [mappedSize, regionSection, max_self, max_self]

/-- What the lookups of a loaded image answer. -/
structure Lookups (readBlob : String → Except String (List UInt8))
    (regions : List RegionDescriptor) (image : PEImage) : Prop where
  base : image.base = lowestVa regions
  lowest : ∀ r ∈ regions, image.base ≤ regionVa r
  size : ∀ r ∈ regions, ∃ blob, readBlob r.blobPath = .ok blob ∧ blob.length = r.sizeBytes
  sound : ∀ rva s, image.sectionForRva rva = some s → ∃ r ∈ regions, IsSectionOf r s ∧
    regionRva image.base r ≤ rva ∧ rva < regionRva image.base r + asU32 r.sizeBytes ∧
      rva < 2 ^ 32 - 1 ∧ ∃ blob, readBlob r.blobPath = .ok blob ∧ sectionData s image.bytes = blob
  complete : ∀ r ∈ regions, ∀ rva, regionRva image.base r ≤ rva →
    rva < regionRva image.base r + asU32 r.sizeBytes → rva < 2 ^ 32 - 1 →
    ∃ s, image.sectionForRva rva = some s

theorem lowest_of_sorted {lowest : RegionDescriptor} {rest : List RegionDescriptor}
    (h : regions.insertionSort (fun r r' => regionVa r ≤ regionVa r') = lowest :: rest) :
    regionVa lowest = lowestVa regions ∧ ∀ r ∈ regions, regionVa lowest ≤ regionVa r := by
  have hsorted := List.pairwise_insertionSort (fun r r' => regionVa r ≤ regionVa r') regions
  have hmem : ∀ r, r ∈ regions ↔ r ∈ lowest :: rest := fun r => by
    rw [← h, List.mem_insertionSort]
  rw [h] at hsorted
  have hle : ∀ r ∈ regions, regionVa lowest ≤ regionVa r := by
    intro r hr
    rcases List.mem_cons.mp ((hmem r).mp hr) with rfl | hr
    · exact Nat.le_refl _
    · exact (List.pairwise_cons.mp hsorted).1 r hr
  refine ⟨?_, hle⟩
  have hmin : (regions.map regionVa).min? = some (regionVa lowest) := by
    refine List.min?_eq_some_iff.mpr ⟨?_, fun va hva => ?_⟩
    · exact List.mem_map_of_mem ((hmem lowest).mpr List.mem_cons_self)
    · obtain ⟨r, hr, rfl⟩ := List.mem_map.mp hva
      exact hle r hr
  rw [lowestVa, hmin]
  rfl

theorem fromSnapshot_ok (h : fromSnapshot readBlob blake3 partialCmp manifest = .ok image) :
    ∃ lowest rest loaded,
      manifest.regions.insertionSort (fun r r' => regionVa r ≤ regionVa r') = lowest :: rest ∧
      (lowest :: rest).mapM (loadRegion readBlob blake3) = .ok loaded ∧
      image.bytes = loaded.flatMap Prod.snd ∧ image.base = regionVa lowest ∧
      image.sections = (regionSections (regionVa lowest) 0 loaded).insertionSort
        fun s s' => s.rva ≤ s'.rva := by
  rw [fromSnapshot] at h
  split at h
  · cases h
  · cases hsort : manifest.regions.insertionSort (fun r r' => regionVa r ≤ regionVa r') with
    | nil =>
      rw [hsort] at h
      cases h
    | cons lowest rest =>
      rw [hsort] at h
      cases hload : (lowest :: rest).mapM (loadRegion readBlob blake3) with
      | error e =>
        simp only [hload] at h
        cases h
      | ok loaded =>
        simp only [hload] at h
        obtain rfl := Except.ok.inj h
        exact ⟨lowest, rest, loaded, rfl, hload, rfl, rfl, rfl⟩

theorem lookups_of_snapshot (h : fromSnapshot readBlob blake3 partialCmp manifest = .ok image) :
    Lookups readBlob manifest.regions image := by
  obtain ⟨lowest, rest, loaded, hsort, hload, hbytes, hbase, hsections⟩ := fromSnapshot_ok h
  obtain ⟨hlowest, hle⟩ := lowest_of_sorted hsort
  obtain ⟨hsound, hcomplete⟩ := loadRegions_ok hload
  have hmem : ∀ r, r ∈ manifest.regions ↔ r ∈ lowest :: rest := fun r => by
    rw [← hsort, List.mem_insertionSort]
  have hloaded : ∀ entry ∈ loaded, entry.1 ∈ manifest.regions ∧
      readBlob entry.1.blobPath = .ok entry.2 ∧ entry.2.length = entry.1.sizeBytes := by
    intro entry hentry
    obtain ⟨r, hr, hok⟩ := hsound entry hentry
    obtain ⟨rfl, hblob⟩ := loadRegion_ok hok
    exact ⟨(hmem _).mpr hr, hblob⟩
  have hentry : ∀ r ∈ manifest.regions, ∃ blob, (r, blob) ∈ loaded := by
    intro r hr
    obtain ⟨entry, hentry, hok⟩ := hcomplete r ((hmem r).mp hr)
    obtain ⟨rfl, _⟩ := loadRegion_ok hok
    exact ⟨entry.2, hentry⟩
  refine ⟨hbase.trans hlowest, fun r hr => hbase ▸ hle r hr, fun r hr => ?_, fun rva s hs => ?_,
    fun r hr rva hlo hhi hmax => ?_⟩
  · obtain ⟨blob, hblob⟩ := hentry r hr
    exact ⟨blob, (hloaded _ hblob).2⟩
  · rw [PEImage.sectionForRva] at hs
    have hcontains : containsRva s rva = true := by simpa using List.find?_some hs
    have hs := List.mem_of_find?_eq_some hs
    rw [hsections, List.mem_insertionSort, mem_regionSections] at hs
    obtain ⟨before, r, blob, after, hsplit, rfl⟩ := hs
    obtain ⟨hr, hblob, hlength⟩ := hloaded (r, blob) (by simp [hsplit])
    obtain ⟨hlo, hhi, hmax⟩ := containsRva_iff.mp hcontains
    rw [mappedSize_regionSection] at hhi
    simp only at hr hblob hlength
    rw [hlength] at hhi
    refine ⟨r, hr, ⟨rfl, hlength, rfl⟩, hbase ▸ hlo, hbase ▸ hhi, hmax, blob, hblob, ?_⟩
    rw [hbytes, Nat.zero_add]
    exact sectionData_regionSection hsplit
  · obtain ⟨blob, hblob⟩ := hentry r hr
    obtain ⟨before, after, hsplit⟩ := List.append_of_mem hblob
    have hs : regionSection (regionVa lowest) (0 + (before.flatMap Prod.snd).length) r blob ∈
        image.sections := by
      rw [hsections, List.mem_insertionSort, mem_regionSections]
      exact ⟨before, r, blob, after, hsplit, rfl⟩
    have hcontains : containsRva
        (regionSection (regionVa lowest) (0 + (before.flatMap Prod.snd).length) r blob) rva =
          true := by
      refine containsRva_iff.mpr ⟨hbase ▸ hlo, ?_, hmax⟩
      rw [mappedSize_regionSection, (hloaded _ hblob).2.2]
      exact hbase ▸ hhi
    rw [PEImage.sectionForRva]
    exact Option.isSome_iff_exists.mp (List.find?_isSome.mpr ⟨_, hs, hcontains⟩)

/-- The ranges of any two regions are disjoint. -/
def DisjointRegions (regions : List RegionDescriptor) : Prop :=
  regions.Pairwise fun r r' => ∀ va, ¬ (RegionHolds r va ∧ RegionHolds r' va)

/-- Each address of a region is found in its section, with the byte of the region's blob. -/
def Reproduces (readBlob : String → Except String (List UInt8))
    (regions : List RegionDescriptor) (image : PEImage) : Prop :=
  ∀ r ∈ regions, ∀ blob, readBlob r.blobPath = .ok blob → ∀ k, k < r.sizeBytes →
    ∃ s, image.sectionForVa (regionVa r + k) = some s ∧ IsSectionOf r s ∧
      (sectionData s image.bytes)[k]? = blob[k]?

/-- No address of the address space outside the regions is found in a section. -/
def NothingElse (regions : List RegionDescriptor) (image : PEImage) : Prop :=
  ∀ va, va < 2 ^ 64 → (∀ r ∈ regions, ¬ RegionHolds r va) → image.sectionForVa va = none

/-- Taken modulo `2 ^ 32` the regions do not wrap around, leave the last address free and do
not meet. -/
def ApartIn32Bits (regions : List RegionDescriptor) : Prop :=
  (∀ r ∈ regions, 0 < r.sizeBytes →
    regionRva (lowestVa regions) r + r.sizeBytes < 2 ^ 32) ∧
  ∀ r ∈ regions, ∀ r' ∈ regions, 0 < r.sizeBytes → 0 < r'.sizeBytes → regionVa r ≠ regionVa r' →
    regionRva (lowestVa regions) r + r.sizeBytes ≤ regionRva (lowestVa regions) r' ∨
      regionRva (lowestVa regions) r' + r'.sizeBytes ≤ regionRva (lowestVa regions) r

/-- The regions end less than `2 ^ 32` bytes above the lowest and lie in the last `2 ^ 32`
bytes of the address space. -/
def InLast4GiB (regions : List RegionDescriptor) : Prop :=
  ∀ r ∈ regions, 0 < r.sizeBytes →
    regionVa r - lowestVa regions + r.sizeBytes < 2 ^ 32 ∧ 2 ^ 64 ≤ regionVa r + 2 ^ 32

/-- Of disjoint regions only one has a given address. -/
theorem DisjointRegions.eq_of_holds (hd : DisjointRegions regions) (hr : r ∈ regions)
    (hr' : r' ∈ regions) (va : Nat) (h : RegionHolds r va) (h' : RegionHolds r' va) : r = r' := by
  by_contra hne
  have hsymm : Std.Symm fun r r' => ∀ va, ¬ (RegionHolds r va ∧ RegionHolds r' va) :=
    ⟨fun _ _ hnone va hboth => hnone va hboth.symm⟩
  exact List.Pairwise.forall hd hr hr' hne va ⟨h, h'⟩

theorem sectionForVa_of_le (hle : image.base ≤ va) :
    image.sectionForVa va = image.sectionForRva (asU32 (va - image.base)) := by
  rw [PEImage.sectionForVa, if_neg (Nat.not_lt_of_le hle)]

/-- Up to `2 ^ 32` the addresses of a region follow each other as its offsets do. -/
theorem asU32_add {k : Nat} (hle : base ≤ regionVa r) (hlt : regionRva base r + k < 2 ^ 32) :
    asU32 (regionVa r + k - base) = regionRva base r + k := by
  rw [regionRva, asU32] at *
  rw [asU32]
  omega

section

variable (hl : Lookups readBlob regions image)

include hl

theorem Lookups.apart (h : Reproduces readBlob regions image) : ApartIn32Bits regions := by
  rw [ApartIn32Bits, ← hl.base]
  -- the address of a region with a given remainder is found, and there in the region
  have hfound : ∀ r ∈ regions, ∀ rva, regionRva image.base r ≤ rva →
      rva < regionRva image.base r + r.sizeBytes → rva < 2 ^ 32 →
      ∃ s, image.sectionForRva rva = some s ∧ s.va = regionVa r := by
    intro r hr rva hlo hhi hmax
    obtain ⟨blob, hblob, _⟩ := hl.size r hr
    have hk : rva - regionRva image.base r < r.sizeBytes := by omega
    obtain ⟨s, hs, hof, _⟩ := h r hr blob hblob _ hk
    have hle := hl.lowest r hr
    rw [sectionForVa_of_le (by omega)] at hs
    have hrva := asU32_add hle (k := rva - regionRva image.base r) (by omega)
    rw [Nat.add_sub_cancel' hlo] at hrva
    rw [hrva] at hs
    exact ⟨s, hs, hof.1⟩
  refine ⟨fun r hr hpos => ?_, fun r hr r' hr' hpos hpos' hne => ?_⟩
  · by_contra hge
    have hlt : regionRva image.base r < 2 ^ 32 := Nat.mod_lt _ (by decide)
    obtain ⟨s, hs, _⟩ := hfound r hr (2 ^ 32 - 1) (by omega) (by omega) (by omega)
    obtain ⟨_, _, _, _, _, hmax, _⟩ := hl.sound _ s hs
    omega
  · by_contra hmeet
    have hlt : regionRva image.base r < 2 ^ 32 := Nat.mod_lt _ (by decide)
    have hlt' : regionRva image.base r' < 2 ^ 32 := Nat.mod_lt _ (by decide)
    obtain ⟨s, hs, hva⟩ := hfound r hr (max (regionRva image.base r) (regionRva image.base r'))
      (by omega) (by omega) (by omega)
    obtain ⟨s', hs', hva'⟩ := hfound r' hr'
      (max (regionRva image.base r) (regionRva image.base r')) (by omega) (by omega) (by omega)
    rw [hs, Option.some.injEq] at hs'
    exact hne (by rw [← hva, ← hva', hs'])

theorem Lookups.reproduces (hd : DisjointRegions regions) (h : ApartIn32Bits regions) :
    Reproduces readBlob regions image := by
  rw [ApartIn32Bits, ← hl.base] at h
  intro r hr blob hblob k hk
  have hpos : 0 < r.sizeBytes := by omega
  have hfit := h.1 r hr hpos
  have hle := hl.lowest r hr
  have hsize : asU32 r.sizeBytes = r.sizeBytes := Nat.mod_eq_of_lt (by omega)
  have hrva := asU32_add hle (k := k) (by omega)
  rw [sectionForVa_of_le (by omega), hrva]
  obtain ⟨s, hs⟩ := hl.complete r hr (regionRva image.base r + k) (by omega) (by omega) (by omega)
  obtain ⟨r', hr', hof, hlo, hhi, _, blob', hblob', hdata⟩ := hl.sound _ s hs
  have hsize' := Nat.mod_le r'.sizeBytes (2 ^ 32)
  have hpos' : 0 < r'.sizeBytes := by
    rw [asU32] at hhi
    omega
  have hva : regionVa r' = regionVa r := by
    by_contra hne
    have hmeet := h.2 r' hr' r hr hpos' hpos hne
    rw [asU32] at hhi
    omega
  have hsame : r' = r := hd.eq_of_holds hr' hr (regionVa r)
    ⟨hva.le, by omega⟩ ⟨Nat.le_refl _, by omega⟩
  subst hsame
  rw [hblob, Except.ok.injEq] at hblob'
  exact ⟨s, hs, hof, by rw [hdata, hblob']⟩

/-- An address found where a region begins lies in that region. -/
theorem Lookups.holds_of_alias (hd : DisjointRegions regions)
    (h : Reproduces readBlob regions image) (hn : NothingElse regions image) (hr : r ∈ regions)
    (hpos : 0 < r.sizeBytes) (va : Nat) (hle : image.base ≤ va) (hlt : va < 2 ^ 64)
    (halias : asU32 (va - image.base) = regionRva image.base r) : RegionHolds r va := by
  obtain ⟨blob, hblob, _⟩ := hl.size r hr
  obtain ⟨s, hs, hof, _⟩ := h r hr blob hblob 0 hpos
  rw [Nat.add_zero, sectionForVa_of_le (hl.lowest r hr)] at hs
  have hfound : image.sectionForVa va = some s := by
    rw [sectionForVa_of_le hle, halias]
    exact hs
  by_contra hnot
  by_cases hany : ∃ r' ∈ regions, RegionHolds r' va
  · obtain ⟨r', hr', hlo, hhi⟩ := hany
    obtain ⟨blob', hblob', _⟩ := hl.size r' hr'
    obtain ⟨s', hs', hof', _⟩ := h r' hr' blob' hblob' (va - regionVa r') (by omega)
    rw [Nat.add_sub_cancel' hlo, hfound, Option.some.injEq] at hs'
    have hva : regionVa r = regionVa r' := by rw [← hof.1, ← hof'.1, hs']
    have hsame : r = r' := hd.eq_of_holds hr hr' (regionVa r)
      ⟨Nat.le_refl _, by omega⟩ ⟨hva.ge, by omega⟩
    exact hnot (hsame ▸ ⟨hlo, hhi⟩)
  · push Not at hany
    rw [hn va hlt hany] at hfound
    exact absurd hfound.symm (Option.some_ne_none s)

omit hl in
theorem regionVa_lt (r : RegionDescriptor) : regionVa r < 2 ^ 64 := by
  rw [regionVa, parseHexVa]
  cases Concolic.u64FromStrRadix _ 16 with
  | none => decide
  | some v => exact v.isLt

theorem Lookups.inLast4GiB (hd : DisjointRegions regions) (h : Reproduces readBlob regions image)
    (hn : NothingElse regions image) : InLast4GiB regions := by
  intro r hr hpos
  rw [← hl.base]
  have hle := hl.lowest r hr
  have hlt := regionVa_lt r
  have hnear : regionVa r - image.base < 2 ^ 32 := by
    by_contra hfar
    have hholds := hl.holds_of_alias hd h hn hr hpos (regionVa r - 2 ^ 32) (by omega)
      (by omega) (by rw [regionRva, asU32, asU32]; omega)
    have := hholds.1
    omega
  have hfit := (hl.apart h).1 r hr hpos
  rw [← hl.base, regionRva, asU32, Nat.mod_eq_of_lt hnear] at hfit
  refine ⟨hfit, ?_⟩
  by_contra hbelow
  have hholds := hl.holds_of_alias hd h hn hr hpos (regionVa r + 2 ^ 32) (by omega)
    (by omega) (by rw [regionRva, asU32, asU32]; omega)
  have := hholds.2
  omega

theorem Lookups.regionRva_eq (h : InLast4GiB regions) (hr : r ∈ regions)
    (hpos : 0 < r.sizeBytes) : regionRva image.base r = regionVa r - image.base := by
  have hfit := (h r hr hpos).1
  rw [← hl.base] at hfit
  exact Nat.mod_eq_of_lt (by omega)

theorem Lookups.apart_of_inLast4GiB (hd : DisjointRegions regions) (h : InLast4GiB regions) :
    ApartIn32Bits regions := by
  rw [ApartIn32Bits, ← hl.base]
  refine ⟨fun r hr hpos => ?_, fun r hr r' hr' hpos hpos' hne => ?_⟩
  · have hfit := (h r hr hpos).1
    rw [hl.regionRva_eq h hr hpos, hl.base]
    exact hfit
  · rw [hl.regionRva_eq h hr hpos, hl.regionRva_eq h hr' hpos']
    have hle := hl.lowest r hr
    have hle' := hl.lowest r' hr'
    by_contra hmeet
    have hsame : r = r' := hd.eq_of_holds hr hr' (max (regionVa r) (regionVa r'))
      ⟨by omega, by omega⟩ ⟨by omega, by omega⟩
    exact hne (congrArg regionVa hsame)

theorem Lookups.nothingElse (h : InLast4GiB regions) : NothingElse regions image := by
  intro va hlt hnone
  by_cases hle : image.base ≤ va
  · cases hfound : image.sectionForVa va with
    | none => rfl
    | some s =>
      rw [sectionForVa_of_le hle] at hfound
      obtain ⟨r, hr, _, hlo, hhi, _, _⟩ := hl.sound _ s hfound
      have hpos : 0 < r.sizeBytes := by
        have hmod : asU32 r.sizeBytes ≤ r.sizeBytes := Nat.mod_le _ _
        omega
      obtain ⟨hfit, hlast⟩ := h r hr hpos
      rw [← hl.base] at hfit
      rw [hl.regionRva_eq h hr hpos] at hlo hhi
      have hlowest := hl.lowest r hr
      have hsize : asU32 r.sizeBytes = r.sizeBytes := Nat.mod_eq_of_lt (by omega)
      rw [hsize] at hhi
      rw [asU32] at hlo hhi
      refine absurd ?_ (hnone r hr)
      constructor <;> omega
  · rw [PEImage.sectionForVa, if_pos (Nat.lt_of_not_le hle)]

end

/-- The first part is about the addresses of the regions, the second also about all others. -/
theorem snapshot_reproduced_iff
    (hok : fromSnapshot readBlob blake3 partialCmp manifest = .ok image)
    (hd : DisjointRegions manifest.regions) :
    (Reproduces readBlob manifest.regions image ↔ ApartIn32Bits manifest.regions) ∧
      (Reproduces readBlob manifest.regions image ∧ NothingElse manifest.regions image ↔
        InLast4GiB manifest.regions) := by
  have hl := lookups_of_snapshot hok
  refine ⟨⟨hl.apart, hl.reproduces hd⟩, fun h => hl.inLast4GiB hd h.1 h.2, fun h => ?_⟩
  exact ⟨hl.reproduces hd (hl.apart_of_inLast4GiB hd h), hl.nothingElse h⟩

/-- A region of one byte. -/
def byteRegion (id : Nat) (vaBase blobPath : String) : RegionDescriptor :=
  ⟨id, vaBase.toList, 1, "R-X".toList, blobPath, "hash"⟩

theorem holds_byteRegion (id : Nat) (vaBase blobPath : String) (va : Nat) :
    RegionHolds (byteRegion id vaBase blobPath) va ↔
      va = regionVa (byteRegion id vaBase blobPath) := by
  have hsize : (byteRegion id vaBase blobPath).sizeBytes = 1 := rfl
  rw [RegionHolds, hsize]
  omega

theorem disjoint_byteRegions {id id' : Nat} {vaBase vaBase' blobPath blobPath' : String}
    (hne : regionVa (byteRegion id vaBase blobPath) ≠ regionVa (byteRegion id' vaBase' blobPath')) :
    DisjointRegions [byteRegion id vaBase blobPath, byteRegion id' vaBase' blobPath'] := by
  refine List.pairwise_cons.mpr ⟨fun r hr va hboth => ?_, List.pairwise_singleton _ _⟩
  rw [List.mem_singleton.mp hr, holds_byteRegion, holds_byteRegion] at hboth
  exact hne (hboth.1.symm.trans hboth.2)

def byteBlob (path : String) : Except String (List UInt8) :=
  if path = "low" then .ok [0xAA] else .ok [0xBB]

/-- Two regions of one byte in the last four GiB. -/
def topManifest : SnapshotManifest Nat :=
  ⟨snapshotSchema,
    [byteRegion 0 "0xffffffff00000000" "low", byteRegion 1 "0xffffffff00001000" "high"], []⟩

def topImage : PEImage where
  bytes := [0xAA, 0xBB]
  base := 0xffffffff00000000
  entryVa := 0
  machine := 0x8664
  dllCharacteristics := 0
  dataDirectories := []
  sections :=
    [⟨"region_00", 0, 0xffffffff00000000, 1, 0, 1, 1, true, (0, 1)⟩,
      ⟨"region_01", 0x1000, 0xffffffff00001000, 1, 1, 1, 1, true, (1, 2)⟩]
  imports := []
  exports := []
  exceptions := []
  functionSeedsCache := []
  overlayOffsetCache := none

theorem snapshot_reproduced_top :
    Reproduces byteBlob topManifest.regions topImage ∧
      NothingElse topManifest.regions topImage := by
  have hok : fromSnapshot byteBlob (fun _ => "hash") (fun a b => some (compare a b)) topManifest =
      .ok topImage := by decide
  have hd : DisjointRegions topManifest.regions := disjoint_byteRegions (by decide)
  have htop : ∀ r ∈ topManifest.regions,
      regionVa r - lowestVa topManifest.regions + r.sizeBytes < 2 ^ 32 ∧
        2 ^ 64 ≤ regionVa r + 2 ^ 32 := by decide
  exact (snapshot_reproduced_iff hok hd).2.mpr fun r hr _ => htop r hr

/-- Two regions of one byte, `2 ^ 32` apart. -/
def farManifest : SnapshotManifest Nat :=
  ⟨snapshotSchema, [byteRegion 0 "0x140001000" "low", byteRegion 1 "0x240001000" "high"], []⟩

def farImage : PEImage where
  bytes := [0xAA, 0xBB]
  base := 0x140001000
  entryVa := 0
  machine := 0x8664
  dllCharacteristics := 0
  dataDirectories := []
  sections :=
    [⟨"region_00", 0, 0x140001000, 1, 0, 1, 1, true, (0, 1)⟩,
      ⟨"region_01", 0, 0x240001000, 1, 1, 1, 1, true, (1, 2)⟩]
  imports := []
  exports := []
  exceptions := []
  functionSeedsCache := []
  overlayOffsetCache := none

/-- The upper region is found in the section of the lower one, and so is an address outside. -/
theorem far_regions_collide :
    fromSnapshot byteBlob (fun _ => "hash") (fun a b => some (compare a b)) farManifest =
        .ok farImage ∧ DisjointRegions farManifest.regions ∧
      ¬ Reproduces byteBlob farManifest.regions farImage ∧
      ¬ NothingElse farManifest.regions farImage := by
  have hlow : regionVa (byteRegion 0 "0x140001000" "low") = 0x140001000 := by decide
  have hhigh : regionVa (byteRegion 1 "0x240001000" "high") = 0x240001000 := by decide
  refine ⟨by decide, disjoint_byteRegions (by decide), fun h => ?_, fun h => ?_⟩
  · obtain ⟨s, hs, hof, _⟩ := h (byteRegion 1 "0x240001000" "high")
      (List.mem_cons_of_mem _ (List.mem_singleton_self _)) [0xBB] (by decide) 0
      Nat.zero_lt_one
    have hfound : farImage.sectionForVa (0x240001000 + 0) =
        some ⟨"region_00", 0, 0x140001000, 1, 0, 1, 1, true, (0, 1)⟩ := by decide
    rw [hhigh, hfound, Option.some.injEq] at hs
    have hva := hof.1
    rw [← hs, hhigh] at hva
    exact absurd hva (by decide)
  · have hnone := h 0x340001000 (by decide) fun r hr hholds => by
      simp only [farManifest, List.mem_cons, List.not_mem_nil, or_false] at hr
      rcases hr with rfl | rfl
      · rw [holds_byteRegion, hlow] at hholds
        omega
      · rw [holds_byteRegion, hhigh] at hholds
        omega
    have hfound : (farImage.sectionForVa 0x340001000).isSome = true := by decide
    rw [hnone] at hfound
    cases hfound

end Axe.Pe
