import Axe.Pe.Parse

/-!
# When parsing a PE file does not panic

Every site of the parser that can panic asks something of the file. The file is parsed without
a panic exactly when it has what all the sites that are reached ask for.
-/
namespace Axe.Pe

open Axe.Static (ExceptionRecord ExportRecord SectionRecord)
open Checked

variable {bytes : List UInt8} {header : Header} {image : PEImage} {index start stop : Nat}

def directoryAt (bytes : List UInt8) (header : Header) (index : Nat) : DataDirectory :=
  ⟨u32At bytes (header.opt + 112 + index * 8), u32At bytes (header.opt + 112 + index * 8 + 4)⟩

/-- The section that a header of the section table describes. -/
def sectionAt (bytes : List UInt8) (header : Header) (index : Nat) : SectionRecord :=
  let offset := sectionOffset header index
  let rawStart := u32At bytes (offset + 20)
  let rawSize := u32At bytes (offset + 16)
  let stop := min (rawStart + rawSize) bytes.length
  { name := fromUtf8Lossy (((bytes.drop offset).take 8).takeWhile (· ≠ 0))
    rva := u32At bytes (offset + 12)
    va := header.base + u32At bytes (offset + 12)
    virtualSize := u32At bytes (offset + 8)
    rawStart := rawStart
    rawSize := rawSize
    dataSize := stop - rawStart
    executable := u32At bytes (offset + 36) &&& imageScnMemExecute ≠ 0
    dataRange := (rawStart, stop) }

/-- The directories and the sections whose headers lie in the file. -/
def layout (bytes : List UInt8) (header : Header) : PEImage :=
  imageOf bytes header
    (((List.range' 0 (min header.numberOfDirs 16)).takeWhile fun i =>
      header.opt + 112 + i * 8 + 8 ≤ bytes.length).map (directoryAt bytes header))
    (((List.range' 0 header.sectionCount).takeWhile fun i =>
      sectionOffset header i + 40 ≤ bytes.length).map (sectionAt bytes header))
    (if header.entryRva = 0 then 0 else header.base + header.entryRva)

def HasDescriptor (image : PEImage) (start index : Nat) : Prop :=
  start + index * 20 + 20 ≤ image.bytes.length ∧
    importDescriptorAt image.bytes (start + index * 20) ≠ ⟨0, 0, 0⟩

def HasThunk (image : PEImage) (start index : Nat) : Prop :=
  start + index * 8 + 8 ≤ image.bytes.length ∧ u64At image.bytes (start + index * 8) ≠ 0

/-- A section starts inside the file and inside the address space. -/
def SectionFits (bytes : List UInt8) (header : Header) (index : Nat) : Prop :=
  u32At bytes (sectionOffset header index + 20) ≤ bytes.length ∧
    header.base + u32At bytes (sectionOffset header index + 12) < 2 ^ 64

/-- A text starts inside the file. -/
def NameFits (image : PEImage) (rva : Nat) : Prop :=
  ∀ off, image.rvaToFileOffset rva = some off → off ≤ image.bytes.length

/-- The slots of the thunks of a descriptor have addresses. -/
def ThunksFit (image : PEImage) (descriptor : ImportDescriptor) : Prop :=
  ∀ thunks, image.rvaToFileOffset descriptor.thunkRva = some thunks → ∀ i < 65536,
    (∀ j ≤ i, HasThunk image thunks j) → image.base + descriptor.firstThunk + i * 8 < 2 ^ 64

def ImportsFit (image : PEImage) : Prop :=
  ∀ start, importTable image = some start → ∀ k < 4096, (∀ j ≤ k, HasDescriptor image start j) →
    NameFits image (importDescriptorAt image.bytes (start + k * 20)).nameRva ∧
      ThunksFit image (importDescriptorAt image.bytes (start + k * 20))

def ExportsFit (image : PEImage) : Prop :=
  ∀ tables, exportTables image = some tables → ∀ i < tables.numberOfNames,
    NameFits image (tables.nameRva image.bytes i) ∧
      tables.ordinalBase + tables.ordinalIndex image.bytes i < 2 ^ 32 ∧
      image.base + tables.functionRva image.bytes i < 2 ^ 64

def ExceptionsFit (image : PEImage) : Prop :=
  ∀ start size, exceptionTable image = some (start, size) → ∀ i,
    start + i * 12 + 12 ≤ min (start + size) image.bytes.length →
    (runtimeFunctionAt image.bytes (start + i * 12)).kept image = true →
    image.base + (runtimeFunctionAt image.bytes (start + i * 12)).endRva < 2 ^ 64 ∧
      image.base + (runtimeFunctionAt image.bytes (start + i * 12)).unwindRva < 2 ^ 64

structure Fits (bytes : List UInt8) (header : Header) : Prop where
  sections : ∀ i < header.sectionCount, sectionOffset header i + 40 ≤ bytes.length →
    SectionFits bytes header i
  entry : header.entryRva ≠ 0 → header.base + header.entryRva < 2 ^ 64
  imports : ImportsFit (layout bytes header)
  exports : ExportsFit (layout bytes header)
  exceptions : ExceptionsFit (layout bytes header)

theorem noPanic_readHeader : NoPanic (readHeader bytes) := by
  rw [readHeader, noPanic_ite]
  refine ⟨fun _ => noPanic_text _, fun hlen => noPanic_bind.mpr ⟨?_, fun magic _ => ?_⟩⟩
  · exact noPanic_slice.mpr ⟨Nat.zero_le _, by omega⟩
  refine noPanic_ite.mpr ⟨fun _ => noPanic_text _, fun _ => noPanic_bind.mpr
    ⟨noPanic_readLe, fun peOffset _ => noPanic_ite.mpr ⟨fun _ => noPanic_text _, fun hpe => ?_⟩⟩⟩
  refine noPanic_bind.mpr ⟨noPanic_slice.mpr ⟨Nat.le_add_right _ _, by omega⟩,
    fun signature _ => noPanic_ite.mpr ⟨fun _ => noPanic_text _, fun _ => ?_⟩⟩
  refine noPanic_bind.mpr ⟨noPanic_readLe, fun machine _ => ?_⟩
  refine noPanic_bind.mpr ⟨noPanic_readLe, fun sectionCount _ => ?_⟩
  refine noPanic_bind.mpr ⟨noPanic_readLe, fun optionalSize _ => ?_⟩
  refine noPanic_bind.mpr ⟨noPanic_readLe, fun kind _ => ?_⟩
  refine noPanic_ite.mpr ⟨fun _ => noPanic_text _, fun _ => ?_⟩
  refine noPanic_bind.mpr ⟨noPanic_readLe, fun entryRva _ => ?_⟩
  refine noPanic_bind.mpr ⟨noPanic_readLe, fun base _ => ?_⟩
  refine noPanic_bind.mpr ⟨noPanic_readLe, fun dllCharacteristics _ => ?_⟩
  exact noPanic_bind.mpr ⟨noPanic_readLe, fun numberOfDirs _ => noPanic_pure _⟩

theorem readDirectory_describes : Describes (readDirectory bytes header)
    (fun i => header.opt + 112 + i * 8 + 8 ≤ bytes.length) (fun _ => True) where
  stop i hi := if_pos (Nat.lt_of_not_le hi)
  go i hi _ := ⟨directoryAt bytes header i, (if_neg (Nat.not_lt_of_le hi)).trans
    (bind_eq_ok.mpr ⟨_, readU32_eq_ok (by omega), bind_eq_ok.mpr
      ⟨_, readU32_eq_ok (by omega), rfl⟩⟩)⟩
  panic i _ hfits := absurd trivial hfits

theorem eq_of_readDirectory {row : Option DataDirectory}
    (hin : header.opt + 112 + index * 8 + 8 ≤ bytes.length)
    (h : readDirectory bytes header index = .ok row) :
    row = some (directoryAt bytes header index) := by
  rw [readDirectory, if_neg (by omega)] at h
  obtain ⟨rva, hrva, h⟩ := bind_eq_ok.mp h
  obtain ⟨size, hsize, h⟩ := bind_eq_ok.mp h
  rw [eq_of_readLe hrva, eq_of_readLe hsize] at h
  cases h
  rfl

/-- A section header inside the file is read as it stands, up to the sum and the slice. -/
theorem readSection_eq (hin : sectionOffset header index + 40 ≤ bytes.length) :
    readSection bytes header index =
      (add 64 header.base (sectionAt bytes header index).rva >>= fun va =>
        slice bytes (sectionAt bytes header index).rawStart
          (sectionAt bytes header index).dataRange.2 >>= fun _ =>
        .ok (some { sectionAt bytes header index with va })) := by
  have hread {k : Nat} (hk : k + 4 ≤ 40) :
      readU32 bytes (sectionOffset header index + k) =
        .ok (u32At bytes (sectionOffset header index + k)) := readU32_eq_ok (by omega)
  rw [readSection, if_neg (by omega), slice_eq_ok ⟨Nat.le_add_right _ _, by omega⟩,
    Nat.add_sub_cancel_left, hread (show 8 + 4 ≤ 40 by decide),
    hread (show 12 + 4 ≤ 40 by decide), hread (show 16 + 4 ≤ 40 by decide),
    hread (show 20 + 4 ≤ 40 by decide), hread (show 36 + 4 ≤ 40 by decide)]
  rfl

theorem readSection_describes : Describes (readSection bytes header)
    (fun i => sectionOffset header i + 40 ≤ bytes.length) (SectionFits bytes header) where
  stop i hi := if_pos (Nat.lt_of_not_le hi)
  go i hi hfits := by
    have hadd := add_eq_ok.mpr ⟨hfits.2, rfl⟩
    have hslice : (sectionAt bytes header i).rawStart ≤ (sectionAt bytes header i).dataRange.2 ∧
        (sectionAt bytes header i).dataRange.2 ≤ bytes.length :=
      ⟨Nat.le_min.mpr ⟨Nat.le_add_right _ _, hfits.1⟩, Nat.min_le_right _ _⟩
    refine ⟨sectionAt bytes header i, ?_⟩
    rw [readSection_eq hi]
    exact bind_eq_ok.mpr ⟨_, hadd, bind_eq_ok.mpr ⟨_, slice_eq_ok hslice, rfl⟩⟩
  panic i hi hfits hno := by
    rw [readSection_eq hi, noPanic_add_bind, noPanic_bind, noPanic_slice] at hno
    exact hfits ⟨hno.2.1.1.trans (Nat.min_le_right _ _), hno.1⟩

theorem eq_of_readSection {row : Option SectionRecord}
    (hin : sectionOffset header index + 40 ≤ bytes.length)
    (h : readSection bytes header index = .ok row) :
    row = some (sectionAt bytes header index) := by
  rw [readSection_eq hin] at h
  obtain ⟨va, hva, h⟩ := bind_eq_ok.mp h
  obtain ⟨data, _, h⟩ := bind_eq_ok.mp h
  rw [(add_eq_ok.mp hva).2] at h
  cases h
  rfl

/-- The file has the bytes of a section that was read. -/
theorem dataRange_of_readSection {s : SectionRecord}
    (h : readSection bytes header index = .ok (some s)) :
    s.dataRange.1 ≤ s.dataRange.2 ∧ s.dataRange.2 ≤ bytes.length := by
  have hreached := readSection_describes.goesOn ⟨s, h⟩
  have heq := eq_of_readSection hreached.1 h
  cases heq
  exact ⟨Nat.le_min.mpr ⟨Nat.le_add_right _ _, hreached.2.1⟩, Nat.min_le_right _ _⟩

theorem noPanic_readCStringRva {rva : Nat} :
    NoPanic (image.readCStringRva rva) ↔ NameFits image rva := by
  rw [PEImage.readCStringRva, NameFits]
  cases image.rvaToFileOffset rva with
  | none => exact ⟨fun _ off hoff => (Option.some_ne_none off hoff.symm).elim, fun _ => noPanic_ok _⟩
  | some start =>
    rw [noPanic_bind, noPanic_slice]
    constructor
    · intro hno off hoff
      cases hoff
      exact hno.1.1.trans hno.1.2
    · exact fun hfits => ⟨⟨Nat.le_add_right _ _, cStringEnd_le (hfits start rfl)⟩,
        fun text _ => noPanic_pure _⟩

theorem exists_readCStringRva {rva : Nat} (h : NameFits image rva) :
    ∃ name, image.readCStringRva rva = .ok name := by
  rw [PEImage.readCStringRva]
  cases hoff : image.rvaToFileOffset rva with
  | none => exact ⟨none, rfl⟩
  | some start =>
    refine ⟨_, bind_eq_ok.mpr ⟨_, slice_eq_ok ⟨Nat.le_add_right _ _, ?_⟩, rfl⟩⟩
    exact cStringEnd_le (h start hoff)

theorem importThunk_describes (dll : String) (firstThunk thunks : Nat) :
    Describes (importThunk image dll firstThunk thunks) (HasThunk image thunks)
      (fun i => image.base + firstThunk + i * 8 < 2 ^ 64) where
  stop i hi := by
    refine if_pos ?_
    by_contra hgo
    push Not at hgo
    exact hi ⟨by omega, hgo.2⟩
  go i hi hfits := by
    have habsent : ¬ (image.bytes.length < thunks + i * 8 + 8 ∨
        u64At image.bytes (thunks + i * 8) = 0) := not_or.mpr ⟨by have := hi.1; omega, hi.2⟩
    refine ⟨_, (if_neg habsent).trans (bind_eq_ok.mpr ⟨_, add_eq_ok.mpr ⟨?_, rfl⟩,
      bind_eq_ok.mpr ⟨_, add_eq_ok.mpr ⟨hfits, rfl⟩, rfl⟩⟩)⟩
    omega
  panic i hi hfits hno := by
    have habsent : ¬ (image.bytes.length < thunks + i * 8 + 8 ∨
        u64At image.bytes (thunks + i * 8) = 0) := not_or.mpr ⟨by have := hi.1; omega, hi.2⟩
    rw [importThunk, if_neg habsent, noPanic_add_bind, noPanic_add_bind] at hno
    exact hfits hno.2.1

theorem noPanic_thunks {dll : String} {descriptor : ImportDescriptor} {thunks : Nat}
    (hat : image.rvaToFileOffset descriptor.thunkRva = some thunks) :
    NoPanic (forRange (importThunk image dll descriptor.firstThunk thunks) 65536 0) ↔
      ThunksFit image descriptor := by
  rw [(importThunk_describes dll descriptor.firstThunk thunks).noPanic_forRange]
  constructor
  · intro hfits thunks' hat'
    cases hat.symm.trans hat'
    exact hfits
  · exact fun hfits => hfits thunks hat

theorem noPanic_importRowsOf (descriptor : ImportDescriptor) :
    NoPanic (importRowsOf image descriptor) ↔
      NameFits image descriptor.nameRva ∧ ThunksFit image descriptor := by
  rw [importRowsOf, noPanic_bind, noPanic_readCStringRva]
  refine and_congr_right fun hname => ?_
  obtain ⟨name, hok⟩ := exists_readCStringRva hname
  cases hat : image.rvaToFileOffset descriptor.thunkRva with
  | none =>
    refine ⟨fun _ thunks hat' => ?_, fun _ _ _ => noPanic_pure _⟩
    rw [hat] at hat'
    cases hat'
  | some thunks =>
    constructor
    · exact fun hno => (noPanic_thunks hat).mp (noPanic_bind.mp (hno name hok)).1
    · exact fun hfits dll _ => noPanic_bind.mpr ⟨(noPanic_thunks hat).mpr hfits,
        fun rows _ => noPanic_pure _⟩

theorem importRowsOf_goesOn {descriptor : ImportDescriptor}
    (hname : NameFits image descriptor.nameRva) (hthunks : ThunksFit image descriptor) :
    ∃ rows, importRowsOf image descriptor = .ok (some rows) := by
  obtain ⟨name, hok⟩ := exists_readCStringRva hname
  rw [importRowsOf, hok]
  cases hat : image.rvaToFileOffset descriptor.thunkRva with
  | none => exact ⟨[], rfl⟩
  | some thunks =>
    obtain ⟨rows, hrows⟩ := (importThunk_describes (name.getD "") _ thunks).exists_ok
      ((noPanic_thunks hat).mpr hthunks)
    exact ⟨rows, bind_eq_ok.mpr ⟨name, rfl, bind_eq_ok.mpr ⟨rows, hrows, rfl⟩⟩⟩

theorem importRows_eq {k : Nat} (hk : HasDescriptor image start k) :
    importRows image start k = importRowsOf image (importDescriptorAt image.bytes (start + k * 20)) :=
  if_neg (not_or.mpr ⟨Nat.not_lt_of_le hk.1, hk.2⟩)

theorem importRows_describes (start : Nat) :
    Describes (importRows image start) (HasDescriptor image start)
      (fun k => NameFits image (importDescriptorAt image.bytes (start + k * 20)).nameRva ∧
        ThunksFit image (importDescriptorAt image.bytes (start + k * 20))) where
  stop k hk := by
    refine if_pos ?_
    by_contra hgo
    push Not at hgo
    exact hk ⟨hgo.1, hgo.2⟩
  go k hk hfits := by
    obtain ⟨rows, hrows⟩ := importRowsOf_goesOn hfits.1 hfits.2
    exact ⟨rows, (importRows_eq hk).trans hrows⟩
  panic k hk hfits hno := by
    rw [importRows_eq hk, noPanic_importRowsOf] at hno
    exact hfits hno

theorem noPanic_parseImports : NoPanic (parseImports image) ↔ ImportsFit image := by
  rw [parseImports, ImportsFit]
  cases importTable image with
  | none => exact ⟨fun _ start hstart => (Option.some_ne_none _ hstart.symm).elim,
      fun _ => noPanic_ok _⟩
  | some start =>
    rw [noPanic_bind, (importRows_describes start).noPanic_forRange]
    constructor
    · intro hno start' hstart
      cases hstart
      exact hno.1
    · exact fun hfits => ⟨hfits start rfl, fun rows _ => noPanic_pure _⟩

theorem exportRow_describes (tables : ExportTables) :
    Describes (exportRow image tables) (fun _ => True) (fun i =>
      NameFits image (tables.nameRva image.bytes i) ∧
        tables.ordinalBase + tables.ordinalIndex image.bytes i < 2 ^ 32 ∧
        image.base + tables.functionRva image.bytes i < 2 ^ 64) where
  stop i hi := absurd trivial hi
  go i _ hfits := by
    obtain ⟨name, hname⟩ := exists_readCStringRva hfits.1
    exact ⟨_, bind_eq_ok.mpr ⟨name, hname, bind_eq_ok.mpr ⟨_, add_eq_ok.mpr ⟨hfits.2.1, rfl⟩,
      bind_eq_ok.mpr ⟨_, add_eq_ok.mpr ⟨hfits.2.2, rfl⟩, rfl⟩⟩⟩⟩
  panic i _ hfits hno := by
    rw [exportRow, noPanic_bind, noPanic_readCStringRva] at hno
    obtain ⟨name, hname⟩ := exists_readCStringRva hno.1
    have hsums := hno.2 name hname
    rw [noPanic_add_bind, noPanic_add_bind] at hsums
    exact hfits ⟨hno.1, hsums.1, hsums.2.1⟩

theorem noPanic_parseExports : NoPanic (parseExports image) ↔ ExportsFit image := by
  rw [parseExports, ExportsFit]
  cases exportTables image with
  | none => exact ⟨fun _ tables htables => (Option.some_ne_none _ htables.symm).elim,
      fun _ => noPanic_ok _⟩
  | some tables =>
    rw [(exportRow_describes tables).noPanic_forRange]
    constructor
    · intro hfits tables' htables i hi
      cases htables
      exact hfits i hi fun _ _ => trivial
    · exact fun hfits i hi _ => hfits tables rfl i hi

theorem exceptionRow_describes (start stop : Nat) :
    Describes (exceptionRow image start stop) (fun i => start + i * 12 + 12 ≤ stop) (fun i =>
      (runtimeFunctionAt image.bytes (start + i * 12)).kept image = true →
        image.base + (runtimeFunctionAt image.bytes (start + i * 12)).endRva < 2 ^ 64 ∧
          image.base + (runtimeFunctionAt image.bytes (start + i * 12)).unwindRva < 2 ^ 64) where
  stop i hi := if_pos (Nat.lt_of_not_le hi)
  go i hi hfits := by
    rw [GoesOn, exceptionRow, if_neg (Nat.not_lt_of_le hi)]
    by_cases hkept : (runtimeFunctionAt image.bytes (start + i * 12)).kept image = true
    · obtain ⟨hend, hunwind⟩ := hfits hkept
      have hbegin := RuntimeFunction.lt_of_kept hkept
      rw [dif_pos hkept]
      exact ⟨_, bind_eq_ok.mpr ⟨_, add_eq_ok.mpr ⟨by omega, rfl⟩, bind_eq_ok.mpr
        ⟨_, add_eq_ok.mpr ⟨hend, rfl⟩, bind_eq_ok.mpr ⟨_, add_eq_ok.mpr ⟨hunwind, rfl⟩, rfl⟩⟩⟩⟩
    · rw [dif_neg hkept]
      exact ⟨none, rfl⟩
  panic i hi hfits hno := by
    rw [exceptionRow, if_neg (Nat.not_lt_of_le hi)] at hno
    refine hfits fun hkept => ?_
    rw [dif_pos hkept, noPanic_add_bind, noPanic_add_bind, noPanic_add_bind] at hno
    exact ⟨hno.2.1, hno.2.2.1⟩

/-- The iterations are enough for all rows of the table. -/
theorem noPanic_parseExceptions : NoPanic (parseExceptions image) ↔ ExceptionsFit image := by
  rw [parseExceptions, ExceptionsFit]
  cases exceptionTable image with
  | none => exact ⟨fun _ start size htable => (Option.some_ne_none _ htable.symm).elim,
      fun _ => noPanic_ok _⟩
  | some table =>
    obtain ⟨start, size⟩ := table
    rw [noPanic_bind, (exceptionRow_describes start _).noPanic_forRange]
    constructor
    · intro hno start' size' htable i hin hkept
      cases htable
      exact hno.1 i (by omega) (fun j hj => by omega) hkept
    · exact fun hfits => ⟨fun i _ hpresent => hfits start size rfl i (hpresent i le_rfl),
        fun rows _ => noPanic_pure _⟩

theorem exists_parseImports (h : NoPanic (parseImports image)) :
    ∃ rows, parseImports image = .ok rows := by
  rw [parseImports] at h ⊢
  cases hstart : importTable image with
  | none => exact ⟨[], rfl⟩
  | some start =>
    rw [hstart] at h
    obtain ⟨rows, hrows⟩ := (importRows_describes start).exists_ok (noPanic_bind.mp h).1
    exact ⟨_, bind_eq_ok.mpr ⟨rows, hrows, rfl⟩⟩

theorem exists_parseExports (h : NoPanic (parseExports image)) :
    ∃ rows, parseExports image = .ok rows := by
  rw [parseExports] at h ⊢
  cases htables : exportTables image with
  | none => exact ⟨[], rfl⟩
  | some tables =>
    rw [htables] at h
    exact (exportRow_describes tables).exists_ok h

theorem noPanic_readTables : NoPanic (readTables image) ↔
    ImportsFit image ∧ ExportsFit image ∧ ExceptionsFit image := by
  rw [← noPanic_parseImports, ← noPanic_parseExports, ← noPanic_parseExceptions]
  refine noPanic_bind_iff exists_parseImports fun imports _ => ?_
  refine noPanic_bind_iff exists_parseExports fun exports _ => ?_
  exact noPanic_bind.trans (and_iff_left fun exceptions _ => noPanic_pure _)

theorem noPanic_readEntry : NoPanic (readEntry header) ↔
    (header.entryRva ≠ 0 → header.base + header.entryRva < 2 ^ 64) := by
  rw [readEntry, noPanic_ite, noPanic_add]
  exact ⟨And.right, fun h => ⟨fun _ => noPanic_ok _, h⟩⟩

theorem eq_of_readEntry {va : Nat} (h : readEntry header = .ok va) :
    va = if header.entryRva = 0 then 0 else header.base + header.entryRva := by
  rw [readEntry] at h
  by_cases hz : header.entryRva = 0
  · rw [if_pos hz] at h ⊢
    cases h
    rfl
  · rw [if_neg hz] at h ⊢
    exact (add_eq_ok.mp h).2

theorem exists_readEntry (h : NoPanic (readEntry header)) : ∃ va, readEntry header = .ok va := by
  by_cases hz : header.entryRva = 0
  · exact ⟨0, if_pos hz⟩
  · exact ⟨_, (if_neg hz).trans (add_eq_ok.mpr ⟨noPanic_readEntry.mp h hz, rfl⟩)⟩

/-- Whatever loops yield when they end well, the image is the one of the layout. -/
theorem imageOf_eq_layout {dirs : List DataDirectory} {sections : List SectionRecord} {va : Nat}
    (hdirs : forRange (readDirectory bytes header) (min header.numberOfDirs 16) 0 = .ok dirs)
    (hsections : forRange (readSection bytes header) header.sectionCount 0 = .ok sections)
    (hva : readEntry header = .ok va) :
    imageOf bytes header dirs sections va = layout bytes header := by
  have hdirs' := forRange_eq_ok (directoryAt bytes header)
    (fun i => header.opt + 112 + i * 8 + 8 ≤ bytes.length)
    (fun i hi => readDirectory_describes.stop i (of_decide_eq_false hi))
    (fun i r hi hr => eq_of_readDirectory (of_decide_eq_true hi) hr) hdirs
  have hsections' := forRange_eq_ok (sectionAt bytes header)
    (fun i => sectionOffset header i + 40 ≤ bytes.length)
    (fun i hi => readSection_describes.stop i (of_decide_eq_false hi))
    (fun i r hi hr => eq_of_readSection (of_decide_eq_true hi) hr) hsections
  rw [layout, hdirs', hsections', eq_of_readEntry hva]

theorem noPanic_parseImage : NoPanic (parseImage bytes header) ↔ Fits bytes header := by
  have hdirs : NoPanic (forRange (readDirectory bytes header) (min header.numberOfDirs 16) 0) :=
    readDirectory_describes.noPanic_forRange.mpr fun _ _ _ => trivial
  have hsites : NoPanic (parseImage bytes header) ↔
      NoPanic (forRange (readDirectory bytes header) (min header.numberOfDirs 16) 0) ∧
        NoPanic (forRange (readSection bytes header) header.sectionCount 0) ∧
        NoPanic (readEntry header) ∧ NoPanic (readTables (layout bytes header)) := by
    refine noPanic_bind_iff readDirectory_describes.exists_ok fun dirs hd => ?_
    refine noPanic_bind_iff readSection_describes.exists_ok fun sections hs => ?_
    refine noPanic_bind_iff exists_readEntry fun va hva => ?_
    rw [imageOf_eq_layout hd hs hva]
  rw [hsites, readSection_describes.noPanic_forRange, noPanic_readEntry, noPanic_readTables]
  constructor
  · intro h
    refine ⟨fun i hi hin => h.2.1 i hi fun j hj => ?_, h.2.2.1, h.2.2.2.1, h.2.2.2.2.1,
      h.2.2.2.2.2⟩
    rw [sectionOffset] at hin ⊢
    omega
  · exact fun h => ⟨hdirs, fun i hi hin => h.sections i hi (hin i le_rfl), h.entry, h.imports,
      h.exports, h.exceptions⟩

/-- A parsed file has the bytes of all its sections. -/
theorem dataRange_of_parse {s : SectionRecord} (h : parse bytes = .ok image)
    (hs : s ∈ image.sections) : s.dataRange.1 ≤ s.dataRange.2 ∧ s.dataRange.2 ≤ bytes.length := by
  obtain ⟨header, _, h⟩ := bind_eq_ok.mp h
  obtain ⟨dirs, _, h⟩ := bind_eq_ok.mp h
  obtain ⟨sections, hsections, h⟩ := bind_eq_ok.mp h
  obtain ⟨va, _, h⟩ := bind_eq_ok.mp h
  obtain ⟨imports, _, h⟩ := bind_eq_ok.mp h
  obtain ⟨exports, _, h⟩ := bind_eq_ok.mp h
  obtain ⟨exceptions, _, h⟩ := bind_eq_ok.mp h
  cases h
  obtain ⟨i, hi⟩ := mem_forRange hsections ((List.mem_insertionSort _).mp hs)
  exact dataRange_of_readSection hi

/-- The file is parsed without a panic exactly when its header is not accepted or every site
that the parser reaches has what it asks for. -/
theorem parse_total_iff (bytes : List UInt8) :
    (NoPanic (parse bytes) ∧ ∀ image, parse bytes = .ok image → ∀ s ∈ image.sections,
        s.dataRange.1 ≤ s.dataRange.2 ∧ s.dataRange.2 ≤ bytes.length) ↔
      ∀ header, readHeader bytes = .ok header → Fits bytes header := by
  have hpanic : NoPanic (parse bytes) ↔
      ∀ header, readHeader bytes = .ok header → Fits bytes header := by
    rw [parse, noPanic_bind, and_iff_right noPanic_readHeader]
    exact forall₂_congr fun header _ => noPanic_parseImage
  rw [hpanic]
  exact and_iff_left fun image himage s hs => dataRange_of_parse himage hs

/-- A file of 256 bytes whose only section starts at 4096. -/
def cutFile : List UInt8 :=
  [0x4D, 0x5A] ++ List.replicate 58 0 ++ [0x40, 0, 0, 0] ++ [0x50, 0x45, 0, 0] ++
    [0x64, 0x86, 1, 0] ++ List.replicate 12 0 ++ [112, 0, 0, 0] ++ [0x0B, 0x02] ++
    List.replicate 130 0 ++ [0, 0x10, 0, 0] ++ List.replicate 32 0

theorem cutFile_panics :
    ¬ (NoPanic (parse cutFile) ∧ ∀ image, parse cutFile = .ok image → ∀ s ∈ image.sections,
      s.dataRange.1 ≤ s.dataRange.2 ∧ s.dataRange.2 ≤ cutFile.length) := by
  have hrun : parse cutFile = .error (.range 4096 256 256) := by decide +kernel
  exact fun h => h.1 _ hrun trivial

end Axe.Pe
