import Axe.Pe.Rtti
import Mathlib.Data.List.TakeWhile

/-!
# Where class names are read

The locator of a class and what it points to lie in the memory that the sections map. The reader
takes an address minus the image base for an offset in the file. It finds the names of the memory
where the file has the same bytes at these offsets, and its sums of addresses have to fit.
-/
namespace Axe.Pe

open Checked (Fault add add_eq_ok bind_eq_ok)
open Axe.Static (SectionRecord)

/-- The byte at an address, where there is one. -/
abbrev Memory := Nat → Option UInt8

/-- The byte that the section containing an address maps there; behind its data it maps zeros. -/
def PEImage.memory (image : PEImage) : Memory := fun va =>
  if va < image.base then none
  else
    (image.sections.find? fun sect =>
      sect.rva ≤ va - image.base && va - image.base < sect.rva + mappedSize sect).map fun sect =>
        ((sectionData sect image.bytes)[va - image.base - sect.rva]?).getD 0

/-- The byte of the file at the offset that an address has from the image base. -/
def fileMemory (bytes : List UInt8) (imageBase : Nat) : Memory := fun va =>
  if va < imageBase then none else bytes[va - imageBase]?

namespace Memory

def bytesFrom (mem : Memory) (va : Nat) : Nat → Option (List UInt8)
  | 0 => some []
  | n + 1 => (mem va).bind fun b => (bytesFrom mem (va + 1) n).map (b :: ·)

/-- The little-endian number of four bytes. -/
def u32 (mem : Memory) (va : Nat) : Option Nat := (mem.bytesFrom va 4).map fromLeBytes

end Memory

/-- A text that is not empty and ends with a zero. -/
structure TextAt (mem : Memory) (va : Nat) (text : List UInt8) : Prop where
  nonempty : text ≠ []
  inside : ∀ i b, text[i]? = some b → b ≠ 0 ∧ mem (va + i) = some b
  terminated : mem (va + text.length) = some 0

/-- The name of the type descriptor at an address, behind its two pointers. -/
def NameAt (mem : Memory) (va : Nat) (name : String) : Prop :=
  (mem.bytesFrom va 16).isSome ∧ ∃ text, TextAt mem (va + 16) text ∧ name = fromUtf8Lossy text

/-- Where a pointer of a locator leads: with signature 1 it is relative to the image base. -/
def target (imageBase signature raw : Nat) : Nat := if signature = 1 then imageBase + raw else raw

/-- The name of the class whose locator stands at an address. -/
def ClassNameAt (mem : Memory) (imageBase col : Nat) (name : String) : Prop :=
  ∃ signature raw, mem.u32 col = some signature ∧ mem.u32 (col + 12) = some raw ∧
    NameAt mem (target imageBase signature raw) name

/-- The name that an entry of the array of base classes leads to. -/
def EntryNameAt (mem : Memory) (imageBase signature entry : Nat) (name : String) : Prop :=
  ∃ bcd type, mem.u32 entry = some bcd ∧ bcd ≠ 0 ∧
    mem.u32 (target imageBase signature bcd) = some type ∧ type ≠ 0 ∧
    NameAt mem (target imageBase signature type) name

/-- A name of the class hierarchy at an address. -/
def HierarchyNameAt (mem : Memory) (imageBase signature chd : Nat) (name : String) : Prop :=
  (mem.bytesFrom chd 16).isSome ∧ ∃ count array, mem.u32 (chd + 8) = some count ∧
    mem.u32 (chd + 12) = some array ∧ array ≠ 0 ∧
    ∃ i < count, EntryNameAt mem imageBase signature (target imageBase signature array + 4 * i) name

/-- The name of a base class of the class whose locator stands at an address. -/
def BaseNameAt (mem : Memory) (imageBase col : Nat) (name : String) : Prop :=
  ∃ signature raw, mem.u32 col = some signature ∧ mem.u32 (col + 16) = some raw ∧
    HierarchyNameAt mem imageBase signature (target imageBase signature raw) name

def Alike (file mem : Memory) (va n : Nat) : Prop := ∀ i < n, file (va + i) = mem (va + i)

/-- A type descriptor is the same in both, up to the zero behind its name, and the file does not
end inside the name. -/
structure NameAlike (file mem : Memory) (va : Nat) : Prop where
  header : Alike file mem va 16
  text : ∀ n, (∀ i < n, ∃ b, file (va + 16 + i) = some b ∧ b ≠ 0) →
    file (va + 16 + n) = mem (va + 16 + n) ∧ (0 < n → file (va + 16 + n) ≠ none)

/-- An entry of the array of base classes is there, and what it leads to is the same in both. -/
structure EntryAlike (file mem : Memory) (imageBase signature entry : Nat) : Prop where
  present : (file.u32 entry).isSome
  pointer : Alike file mem entry 4
  descriptor : ∀ bcd, file.u32 entry = some bcd → bcd ≠ 0 →
    Alike file mem (target imageBase signature bcd) 4
  name : ∀ bcd type, file.u32 entry = some bcd → bcd ≠ 0 →
    file.u32 (target imageBase signature bcd) = some type → type ≠ 0 →
    NameAlike file mem (target imageBase signature type)

/-- A class hierarchy is the same in both and has at most 64 base classes. -/
structure HierarchyAlike (file mem : Memory) (imageBase signature chd : Nat) : Prop where
  header : Alike file mem chd 16
  entries : ∀ count array, (file.bytesFrom chd 16).isSome → file.u32 (chd + 8) = some count →
    file.u32 (chd + 12) = some array → array ≠ 0 → count ≤ 64 ∧ ∀ i < count,
      EntryAlike file mem imageBase signature (target imageBase signature array + 4 * i)

/-- The locator at an address and all that it leads to are the same in both. -/
structure LocatorAlike (file mem : Memory) (imageBase col : Nat) : Prop where
  locator : Alike file mem col 20
  className : ∀ signature raw, file.u32 col = some signature → file.u32 (col + 12) = some raw →
    NameAlike file mem (target imageBase signature raw)
  hierarchy : ∀ signature raw, file.u32 col = some signature → file.u32 (col + 16) = some raw →
    HierarchyAlike file mem imageBase signature (target imageBase signature raw)

section Transfer
variable {file mem : Memory} {va n imageBase signature entry chd col : Nat} {name : String}

theorem Alike.mono (h : Alike file mem va n) {start count : Nat} (hle : start + count ≤ n) :
    Alike file mem (va + start) count := fun i hi => by
  rw [Nat.add_assoc]
  exact h (start + i) (by omega)

theorem Alike.bytesFrom (h : Alike file mem va n) : file.bytesFrom va n = mem.bytesFrom va n := by
  induction n generalizing va with
  | zero => rfl
  | succ n ih =>
    have htail : Alike file mem (va + 1) n := h.mono (by omega)
    have hhead := h 0 (Nat.succ_pos n)
    rw [Nat.add_zero] at hhead
    rw [Memory.bytesFrom, Memory.bytesFrom, hhead, ih htail]

theorem Alike.u32 (h : Alike file mem va n) {start : Nat} (hle : start + 4 ≤ n) :
    file.u32 (va + start) = mem.u32 (va + start) := by
  rw [Memory.u32, Memory.u32, (h.mono hle).bytesFrom]

theorem NameAlike.nameAt (h : NameAlike file mem va) :
    NameAt mem va name ↔ NameAt file va name := by
  rw [NameAt, NameAt, h.header.bytesFrom]
  refine and_congr_right fun _ => exists_congr fun text => and_congr_left fun _ => ?_
  constructor
  · intro ht
    -- by induction on the length read so far, the file has the text too
    have hfile : ∀ n ≤ text.length, ∀ i < n, ∃ b, file (va + 16 + i) = some b ∧ b ≠ 0 := by
      intro n
      induction n with
      | zero => exact fun _ i hi => absurd hi (Nat.not_lt_zero i)
      | succ n ih =>
        intro hn i hi
        rcases Nat.lt_succ_iff_lt_or_eq.mp hi with hlt | rfl
        · exact ih (by omega) i hlt
        · obtain ⟨hne, hmem⟩ := ht.inside i _ (List.getElem?_eq_getElem (by omega))
          exact ⟨_, ((h.text i (ih (by omega))).1.trans hmem), hne⟩
    refine ⟨ht.nonempty, fun i b hb => ?_, ?_⟩
    · have hi : i < text.length := (List.getElem?_eq_some_iff.mp hb).1
      obtain ⟨hne, hmem⟩ := ht.inside i b hb
      exact ⟨hne, (h.text i fun j hj => hfile i hi.le j hj).1.trans hmem⟩
    · exact (h.text _ (hfile _ le_rfl)).1.trans ht.terminated
  · intro ht
    have hfile : ∀ i < text.length, ∃ b, file (va + 16 + i) = some b ∧ b ≠ 0 := fun i hi => by
      obtain ⟨hne, hmem⟩ := ht.inside i _ (List.getElem?_eq_getElem hi)
      exact ⟨_, hmem, hne⟩
    refine ⟨ht.nonempty, fun i b hb => ?_, ?_⟩
    · have hi : i < text.length := (List.getElem?_eq_some_iff.mp hb).1
      obtain ⟨hne, hmem⟩ := ht.inside i b hb
      exact ⟨hne, (h.text i fun j hj => hfile j (hj.trans hi)).1.symm.trans hmem⟩
    · exact (h.text _ hfile).1.symm.trans ht.terminated

theorem EntryAlike.entryNameAt (h : EntryAlike file mem imageBase signature entry) :
    EntryNameAt mem imageBase signature entry name ↔
      EntryNameAt file imageBase signature entry name := by
  have hentry : file.u32 entry = mem.u32 entry := h.pointer.u32 (Nat.le_refl 4)
  have htype : ∀ bcd, file.u32 entry = some bcd → bcd ≠ 0 →
      file.u32 (target imageBase signature bcd) = mem.u32 (target imageBase signature bcd) :=
    fun bcd hbcd hne => (h.descriptor bcd hbcd hne).u32 (Nat.le_refl 4)
  constructor
  · rintro ⟨bcd, type, hbcd, hbcd0, htyp, htype0, hname⟩
    rw [← hentry] at hbcd
    rw [← htype bcd hbcd hbcd0] at htyp
    exact ⟨bcd, type, hbcd, hbcd0, htyp, htype0,
      (h.name bcd type hbcd hbcd0 htyp htype0).nameAt.mp hname⟩
  · rintro ⟨bcd, type, hbcd, hbcd0, htyp, htype0, hname⟩
    refine ⟨bcd, type, hentry ▸ hbcd, hbcd0, htype bcd hbcd hbcd0 ▸ htyp, htype0,
      (h.name bcd type hbcd hbcd0 htyp htype0).nameAt.mpr hname⟩

theorem HierarchyAlike.hierarchyNameAt (h : HierarchyAlike file mem imageBase signature chd) :
    HierarchyNameAt mem imageBase signature chd name ↔
      HierarchyNameAt file imageBase signature chd name := by
  rw [HierarchyNameAt, HierarchyNameAt, ← h.header.bytesFrom, ← h.header.u32 (by decide),
    ← h.header.u32 (by decide)]
  refine and_congr_right fun hheader => exists_congr fun count => exists_congr fun array =>
    and_congr_right fun hcount => and_congr_right fun harray => and_congr_right fun hne => ?_
  obtain ⟨-, halike⟩ := h.entries count array hheader hcount harray hne
  exact exists_congr fun i => and_congr_right fun hi => (halike i hi).entryNameAt

theorem LocatorAlike.classNameAt (h : LocatorAlike file mem imageBase col) :
    ClassNameAt mem imageBase col name ↔ ClassNameAt file imageBase col name := by
  have hcol : file.u32 col = mem.u32 col := h.locator.u32 (by decide : 0 + 4 ≤ 20)
  rw [ClassNameAt, ClassNameAt, ← hcol, ← h.locator.u32 (by decide)]
  exact exists_congr fun signature => exists_congr fun raw => and_congr_right fun hsig =>
    and_congr_right fun hraw => (h.className signature raw hsig hraw).nameAt

theorem LocatorAlike.baseNameAt (h : LocatorAlike file mem imageBase col) :
    BaseNameAt mem imageBase col name ↔ BaseNameAt file imageBase col name := by
  have hcol : file.u32 col = mem.u32 col := h.locator.u32 (by decide : 0 + 4 ≤ 20)
  rw [BaseNameAt, BaseNameAt, ← hcol, ← h.locator.u32 (by decide)]
  exact exists_congr fun signature => exists_congr fun raw => and_congr_right fun hsig =>
    and_congr_right fun hraw => (h.hierarchy signature raw hsig hraw).hierarchyNameAt

end Transfer

section File
variable {bytes : List UInt8} {imageBase signature va n raw count entry col : Nat} {name : String}

theorem fileMemory_of_le (h : imageBase ≤ va) :
    fileMemory bytes imageBase va = bytes[va - imageBase]? := if_neg (Nat.not_lt.mpr h)

theorem bytesFrom_fileMemory (h : imageBase ≤ va) (hn : va - imageBase + n ≤ bytes.length) :
    (fileMemory bytes imageBase).bytesFrom va n = some ((bytes.drop (va - imageBase)).take n) := by
  induction n generalizing va with
  | zero => rfl
  | succ n ih =>
    have hlt : va - imageBase < bytes.length := by omega
    have hsub : va + 1 - imageBase = va - imageBase + 1 := by omega
    rw [Memory.bytesFrom, fileMemory_of_le h, List.getElem?_eq_getElem hlt, Option.bind_some,
      ih (by omega) (by omega), Option.map_some, hsub, List.drop_eq_getElem_cons hlt,
      List.take_succ_cons]

/-- Bytes that are there lie in the file and not below the image base. -/
theorem inside_of_bytesFrom (hn : 0 < n)
    (h : ((fileMemory bytes imageBase).bytesFrom va n).isSome) :
    imageBase ≤ va ∧ va - imageBase + n ≤ bytes.length := by
  induction n generalizing va with
  | zero => exact absurd hn (Nat.lt_irrefl 0)
  | succ n ih =>
    obtain ⟨bs, hbs⟩ := Option.isSome_iff_exists.mp h
    rw [Memory.bytesFrom] at hbs
    obtain ⟨b, hb, hrest⟩ := Option.bind_eq_some_iff.mp hbs
    have hle : imageBase ≤ va := by
      by_contra hlt
      rw [fileMemory, if_pos (Nat.lt_of_not_le hlt)] at hb
      cases hb
    rw [fileMemory_of_le hle] at hb
    have hlt := (List.getElem?_eq_some_iff.mp hb).1
    refine ⟨hle, ?_⟩
    rcases Nat.eq_zero_or_pos n with rfl | hpos
    · omega
    · obtain ⟨tail, htail, -⟩ := Option.map_eq_some_iff.mp hrest
      have := (ih hpos (Option.isSome_iff_exists.mpr ⟨tail, htail⟩)).2
      omega

theorem u32_fileMemory (h : imageBase ≤ va) (hn : va - imageBase + 4 ≤ bytes.length) :
    (fileMemory bytes imageBase).u32 va = some (u32At bytes (va - imageBase)) := by
  rw [Memory.u32, bytesFrom_fileMemory h hn, u32At, orZero, readU32, readLe, if_pos hn]
  rfl

theorem inside_of_u32 (h : (fileMemory bytes imageBase).u32 va = some n) :
    imageBase ≤ va ∧ va - imageBase + 4 ≤ bytes.length ∧ n = u32At bytes (va - imageBase) := by
  obtain ⟨bs, hbs, -⟩ := Option.map_eq_some_iff.mp h
  obtain ⟨hle, hn⟩ := inside_of_bytesFrom (by decide) (Option.isSome_iff_exists.mpr ⟨bs, hbs⟩)
  rw [u32_fileMemory hle hn] at h
  exact ⟨hle, hn, (Option.some.inj h).symm⟩

/-- The text is what stands before the first zero. -/
theorem takeWhile_eq_of_text {l text : List UInt8}
    (h : ∀ (i : Nat) (b : UInt8), text[i]? = some b → b ≠ 0 ∧ l[i]? = some b)
    (hend : l[text.length]? = some 0) : l.takeWhile (· ≠ 0) = text := by
  induction text generalizing l with
  | nil =>
    cases l with
    | nil => rfl
    | cons b rest =>
      have hb : b = 0 := Option.some.inj hend
      rw [hb]
      rfl
  | cons b text ih =>
    obtain ⟨hne, hl⟩ := h 0 b rfl
    cases l with
    | nil => cases hl
    | cons head rest =>
      cases hl
      rw [List.takeWhile_cons_of_pos (by simpa using hne)]
      exact congrArg _ (ih (fun i c hc => h (i + 1) c hc) hend)

theorem text_inside {l : List UInt8} {i : Nat} {b : UInt8}
    (h : (l.takeWhile (· ≠ 0))[i]? = some b) : b ≠ 0 ∧ l[i]? = some b := by
  refine ⟨?_, ?_⟩
  · have := List.mem_takeWhile_imp (List.mem_of_getElem? h)
    simpa using this
  · have hprefix := List.takeWhile_prefix (l := l) (· ≠ 0)
    obtain ⟨rest, hrest⟩ := hprefix
    have hlt := (List.getElem?_eq_some_iff.mp h).1
    rw [← hrest, List.getElem?_append_left hlt, h]

theorem text_end (l : List UInt8) :
    l[(l.takeWhile (· ≠ 0)).length]? = none ∨ l[(l.takeWhile (· ≠ 0)).length]? = some 0 := by
  induction l with
  | nil => exact .inl rfl
  | cons b rest ih =>
    by_cases hb : b = 0
    · subst hb
      exact .inr rfl
    · rw [List.takeWhile_cons_of_pos (by simpa using hb)]
      exact ih

/-- The memory does not end inside the name of a type descriptor. -/
def EndsBefore (mem : Memory) (va : Nat) : Prop :=
  ∀ n, (∀ i < n, ∃ b, mem (va + 16 + i) = some b ∧ b ≠ 0) → 0 < n → mem (va + 16 + n) ≠ none

theorem NameAlike.endsBefore {file mem : Memory} (h : NameAlike file mem va) : EndsBefore file va :=
  fun n hn => (h.text n hn).2

theorem readTypeDescriptorName_iff (hend : EndsBefore (fileMemory bytes imageBase) va) :
    readTypeDescriptorName bytes imageBase va = some name ↔
      NameAt (fileMemory bytes imageBase) va name := by
  have hdrop : ∀ i, imageBase ≤ va → (bytes.drop (va - imageBase + 16))[i]? =
      fileMemory bytes imageBase (va + 16 + i) := fun i hle => by
    rw [List.getElem?_drop, fileMemory_of_le (by omega)]
    congr 1
    omega
  unfold readTypeDescriptorName NameAt
  constructor
  · intro h
    split at h
    · cases h
    · next hlt =>
      have hle := Nat.le_of_not_lt hlt
      simp only [Option.ite_none_left_eq_some, Option.some.injEq] at h
      obtain ⟨hne, rfl⟩ := h
      have hinside : ∀ i b, (textAt bytes (va - imageBase + 16))[i]? = some b →
          b ≠ 0 ∧ fileMemory bytes imageBase (va + 16 + i) = some b := fun i b hb => by
        obtain ⟨hb0, hget⟩ := text_inside hb
        exact ⟨hb0, (hdrop i hle).symm.trans hget⟩
      have hpos : 0 < (textAt bytes (va - imageBase + 16)).length := List.length_pos_iff.mpr hne
      refine ⟨?_, _, ⟨hne, hinside, ?_⟩, rfl⟩
      · obtain ⟨-, hfirst⟩ := hinside 0 _ (List.getElem?_eq_getElem hpos)
        rw [fileMemory_of_le (by omega)] at hfirst
        have hlt := (List.getElem?_eq_some_iff.mp hfirst).1
        rw [bytesFrom_fileMemory hle (by omega)]
        rfl
      · have hnone := hend (textAt bytes (va - imageBase + 16)).length (fun i hi => by
          obtain ⟨hb0, hget⟩ := hinside i _ (List.getElem?_eq_getElem hi)
          exact ⟨_, hget, hb0⟩) hpos
        rw [← hdrop _ hle] at hnone ⊢
        exact (text_end _).resolve_left hnone
  · rintro ⟨hheader, text, htext, rfl⟩
    obtain ⟨hle, -⟩ := inside_of_bytesFrom (by decide) hheader
    have heq : textAt bytes (va - imageBase + 16) = text := by
      refine takeWhile_eq_of_text (fun i b hb => ?_) ?_
      · obtain ⟨hb0, hget⟩ := htext.inside i b hb
        exact ⟨hb0, (hdrop i hle).trans hget⟩
      · rw [hdrop _ hle]
        exact htext.terminated
    rw [if_neg (Nat.not_lt.mpr hle), heq, if_neg htext.nonempty]

/-- The sum for a pointer stays inside 64 bits. -/
def PtrFits (imageBase signature raw : Nat) : Prop := signature = 1 → imageBase + raw < 2 ^ 64

theorem rttiPtr_eq_ok {va : Nat} : rttiPtr imageBase signature raw = .ok va ↔
    PtrFits imageBase signature raw ∧ va = target imageBase signature raw := by
  unfold rttiPtr PtrFits target
  by_cases hsig : signature = 1
  · simp only [hsig, if_true, add_eq_ok, forall_const]
  · simp only [hsig, if_false, Except.ok.injEq, false_implies, true_and]
    exact eq_comm

theorem rttiPtr_bind_eq_ok {α : Type} {f : Nat → Except Fault α} {r : α} :
    (rttiPtr imageBase signature raw >>= f) = .ok r ↔
      PtrFits imageBase signature raw ∧ f (target imageBase signature raw) = .ok r := by
  simp only [bind_eq_ok, rttiPtr_eq_ok]
  constructor
  · rintro ⟨va, ⟨hfits, rfl⟩, h⟩
    exact ⟨hfits, h⟩
  · rintro ⟨hfits, h⟩
    exact ⟨_, ⟨hfits, rfl⟩, h⟩

theorem pure_eq_ok {α : Type} {a r : α} : (pure a : Except Fault α) = .ok r ↔ r = a :=
  ⟨fun h => (Except.ok.inj h).symm, fun h => congrArg _ h.symm⟩

def EntryFits (bytes : List UInt8) (imageBase signature raw : Nat) : Prop :=
  raw ≠ 0 → PtrFits imageBase signature raw ∧
    (imageBase ≤ target imageBase signature raw →
      target imageBase signature raw - imageBase + 4 ≤ bytes.length →
      u32At bytes (target imageBase signature raw - imageBase) ≠ 0 →
      PtrFits imageBase signature (u32At bytes (target imageBase signature raw - imageBase)))

/-- What an entry of the array leads to, all sums left unchecked. -/
def entryName (bytes : List UInt8) (imageBase signature raw : Nat) : Option String :=
  let bcd := target imageBase signature raw
  let type := u32At bytes (bcd - imageBase)
  if raw = 0 ∨ bcd < imageBase ∨ bytes.length < bcd - imageBase + 4 ∨ type = 0 then none
  else readTypeDescriptorName bytes imageBase (target imageBase signature type)

theorem baseClassName_eq_ok {r : Option String} :
    baseClassName bytes imageBase signature raw = .ok r ↔
      EntryFits bytes imageBase signature raw ∧ r = entryName bytes imageBase signature raw := by
  unfold baseClassName EntryFits entryName
  by_cases h0 : raw = 0
  · simp only [h0, if_true, true_or, ne_eq, not_true_eq_false, false_implies, true_and, pure_eq_ok]
  · simp only [h0, if_false, rttiPtr_bind_eq_ok, false_or, ne_eq, not_false_eq_true, forall_const,
      and_assoc]
    refine and_congr_right fun _ => ?_
    by_cases h1 : target imageBase signature raw < imageBase
    · simp only [h1, if_true, true_or, pure_eq_ok, Nat.not_le.mpr h1, false_implies, true_and]
    · by_cases h2 : bytes.length < target imageBase signature raw - imageBase + 4
      · simp only [h1, h2, if_true, if_false, true_or, or_true, pure_eq_ok, Nat.not_le.mpr h2,
          false_implies, implies_true, true_and]
      · by_cases h3 : u32At bytes (target imageBase signature raw - imageBase) = 0
        · simp only [h1, h2, h3, if_true, if_false, or_true, pure_eq_ok, not_true_eq_false,
            false_implies, implies_true, true_and]
        · simp only [h1, h2, h3, if_false, or_false, rttiPtr_bind_eq_ok, pure_eq_ok,
            not_false_eq_true, Nat.le_of_not_lt h1, Nat.le_of_not_lt h2, forall_const]

theorem entryName_iff (hentry : (fileMemory bytes imageBase).u32 entry = some raw)
    (hend : ∀ type, raw ≠ 0 →
      (fileMemory bytes imageBase).u32 (target imageBase signature raw) = some type → type ≠ 0 →
      EndsBefore (fileMemory bytes imageBase) (target imageBase signature type)) :
    entryName bytes imageBase signature raw = some name ↔
      EntryNameAt (fileMemory bytes imageBase) imageBase signature entry name := by
  unfold entryName EntryNameAt
  simp only [Option.ite_none_left_eq_some, not_or, Nat.not_lt]
  constructor
  · rintro ⟨⟨h0, hle, hlen, htype⟩, h⟩
    have hu32 := u32_fileMemory hle hlen
    exact ⟨raw, _, hentry, h0, hu32, htype,
      (readTypeDescriptorName_iff (hend _ h0 hu32 htype)).mp h⟩
  · rintro ⟨bcd, type, hbcd, h0, hu32, htype, hname⟩
    obtain rfl : raw = bcd := Option.some.inj (hentry.symm.trans hbcd)
    obtain ⟨hle, hlen, rfl⟩ := inside_of_u32 hu32
    exact ⟨⟨h0, hle, hlen, htype⟩,
      (readTypeDescriptorName_iff (hend _ h0 hu32 htype)).mpr hname⟩

/-- The sums for the entries from an offset on, as far as the file has them. -/
def ArrayFits (bytes : List UInt8) (imageBase signature : Nat) : (count entry : Nat) → Prop
  | 0, _ => True
  | count + 1, entry => entry + 4 ≤ bytes.length →
    EntryFits bytes imageBase signature (u32At bytes entry) ∧
      ArrayFits bytes imageBase signature count (entry + 4)

theorem baseClassNames_isOk :
    (∃ r, baseClassNames bytes imageBase signature count entry = .ok r) ↔
      ArrayFits bytes imageBase signature count entry := by
  induction count generalizing entry with
  | zero => exact ⟨fun _ => trivial, fun _ => ⟨_, rfl⟩⟩
  | succ count ih =>
    unfold baseClassNames ArrayFits
    by_cases hlen : bytes.length < entry + 4
    · simp only [hlen, if_true, Nat.not_le.mpr hlen, false_implies, iff_true]
      exact ⟨_, rfl⟩
    · simp only [hlen, if_false, Nat.le_of_not_lt hlen, forall_const, bind_eq_ok,
        baseClassName_eq_ok, ← ih]
      constructor
      · rintro ⟨r, name, ⟨hfits, -⟩, rest, hrest, -⟩
        exact ⟨hfits, rest, hrest⟩
      · rintro ⟨hfits, rest, hrest⟩
        exact ⟨_, _, ⟨hfits, rfl⟩, rest, hrest, rfl⟩

/-- Where the whole array lies in the file, its names are those of its entries. -/
theorem mem_baseClassNames {r : Option (List String)}
    (h : baseClassNames bytes imageBase signature count entry = .ok r)
    (hlen : entry + 4 * count ≤ bytes.length) : ∃ names, r = some names ∧
      (name ∈ names ↔ ∃ i < count,
        entryName bytes imageBase signature (u32At bytes (entry + 4 * i)) = some name) := by
  induction count generalizing entry r with
  | zero =>
    cases h
    exact ⟨[], rfl, by simp⟩
  | succ count ih =>
    unfold baseClassNames at h
    simp only [Nat.not_lt.mpr (show entry + 4 ≤ bytes.length by omega), if_false, bind_eq_ok,
      baseClassName_eq_ok, pure_eq_ok] at h
    obtain ⟨first, ⟨-, rfl⟩, rest, hrest, rfl⟩ := h
    obtain ⟨names, rfl, hnames⟩ := ih hrest (by omega)
    refine ⟨_, rfl, ?_⟩
    rw [List.mem_append, Option.mem_toList, hnames]
    constructor
    · rintro (hfirst | ⟨i, hi, hname⟩)
      · exact ⟨0, Nat.succ_pos count, hfirst⟩
      · refine ⟨i + 1, Nat.succ_lt_succ hi, ?_⟩
        rw [show entry + 4 * (i + 1) = entry + 4 + 4 * i by omega]
        exact hname
    · rintro ⟨i, hi, hname⟩
      cases i with
      | zero => exact .inl hname
      | succ i =>
        refine .inr ⟨i, Nat.lt_of_succ_lt_succ hi, ?_⟩
        rw [show entry + 4 * (i + 1) = entry + 4 + 4 * i by omega] at hname
        exact hname

theorem mem_sortNames {names : List String} : name ∈ sortNames names ↔ name ∈ names := by
  rw [sortNames, List.mem_eraseDups]
  exact (List.perm_insertionSort _ _).mem_iff

variable {chd : Nat}

def HierarchyFits (bytes : List UInt8) (imageBase signature chd : Nat) : Prop :=
  let offset := chd - imageBase
  let numBaseClasses := u32At bytes (offset + 8)
  let baseArrayRaw := u32At bytes (offset + 12)
  let baseArrayVa := target imageBase signature baseArrayRaw
  imageBase ≤ chd → offset + 16 ≤ bytes.length →
    ¬ (numBaseClasses = 0 ∨ 256 < numBaseClasses ∨ baseArrayRaw = 0) →
    PtrFits imageBase signature baseArrayRaw ∧ (imageBase ≤ baseArrayVa →
      ArrayFits bytes imageBase signature (min numBaseClasses 64) (baseArrayVa - imageBase))

theorem parseClassHierarchy_isOk :
    (∃ r, parseClassHierarchy bytes imageBase signature chd = .ok r) ↔
      HierarchyFits bytes imageBase signature chd := by
  unfold parseClassHierarchy HierarchyFits
  by_cases h1 : chd < imageBase
  · simp only [h1, if_true, Nat.not_le.mpr h1, false_implies, iff_true]
    exact ⟨_, rfl⟩
  by_cases h2 : bytes.length < chd - imageBase + 16
  · simp only [h1, h2, if_true, if_false, Nat.not_le.mpr h2, false_implies, implies_true, iff_true]
    exact ⟨_, rfl⟩
  by_cases h3 : u32At bytes (chd - imageBase + 8) = 0 ∨ 256 < u32At bytes (chd - imageBase + 8) ∨
      u32At bytes (chd - imageBase + 12) = 0
  · simp only [h1, h2, h3, if_true, if_false, not_true_eq_false, false_implies, implies_true,
      iff_true]
    exact ⟨_, rfl⟩
  simp only [h1, h2, h3, if_false, not_false_eq_true, Nat.le_of_not_lt h1, Nat.le_of_not_lt h2,
    forall_const, rttiPtr_bind_eq_ok, exists_and_left]
  refine and_congr_right fun _ => ?_
  by_cases h4 : target imageBase signature (u32At bytes (chd - imageBase + 12)) < imageBase
  · simp only [h4, if_true, Nat.not_le.mpr h4, false_implies, iff_true]
    exact ⟨_, rfl⟩
  · simp only [h4, if_false, Nat.le_of_not_lt h4, forall_const, bind_eq_ok, ← baseClassNames_isOk]
    constructor
    · rintro ⟨r, names, hnames, -⟩
      exact ⟨names, hnames⟩
    · rintro ⟨names, hnames⟩
      exact ⟨_, names, hnames, rfl⟩

theorem mem_parseClassHierarchy {mem : Memory} {r : Option (Nat × Nat × List String)}
    (h : parseClassHierarchy bytes imageBase signature chd = .ok r)
    (halike : HierarchyAlike (fileMemory bytes imageBase) mem imageBase signature chd) :
    name ∈ (r.getD (0, 0, [])).2.2 ↔
      HierarchyNameAt (fileMemory bytes imageBase) imageBase signature chd name := by
  unfold parseClassHierarchy at h
  by_cases hheader : imageBase ≤ chd ∧ chd - imageBase + 16 ≤ bytes.length
  case neg =>
    have hr : r = none := by
      by_cases h1 : chd < imageBase
      · simp only [h1, if_true, pure_eq_ok] at h
        exact h
      · have h2 : bytes.length < chd - imageBase + 16 :=
          Nat.lt_of_not_le fun hle => hheader ⟨Nat.le_of_not_lt h1, hle⟩
        simp only [h1, h2, if_true, if_false, pure_eq_ok] at h
        exact h
    rw [hr]
    refine ⟨fun hname => absurd hname List.not_mem_nil, fun hname => ?_⟩
    exact (hheader (inside_of_bytesFrom (by decide) hname.1)).elim
  case pos =>
    obtain ⟨hle, hlen⟩ := hheader
    have hbytes : ((fileMemory bytes imageBase).bytesFrom chd 16).isSome := by
      rw [bytesFrom_fileMemory hle hlen]
      rfl
    have hcount := @u32_fileMemory bytes imageBase (chd + 8) (by omega) (by omega)
    have harray := @u32_fileMemory bytes imageBase (chd + 12) (by omega) (by omega)
    rw [show chd + 8 - imageBase = chd - imageBase + 8 by omega] at hcount
    rw [show chd + 12 - imageBase = chd - imageBase + 12 by omega] at harray
    simp only [Nat.not_lt.mpr hle, Nat.not_lt.mpr hlen, if_false] at h
    generalize u32At bytes (chd - imageBase + 8) = count at h hcount
    generalize u32At bytes (chd - imageBase + 12) = array at h harray
    have hiff : HierarchyNameAt (fileMemory bytes imageBase) imageBase signature chd name ↔
        array ≠ 0 ∧ ∃ i < count, EntryNameAt (fileMemory bytes imageBase) imageBase signature
          (target imageBase signature array + 4 * i) name := by
      constructor
      · rintro ⟨-, count', array', hcount', harray', hne, hentry⟩
        cases hcount.symm.trans hcount'
        cases harray.symm.trans harray'
        exact ⟨hne, hentry⟩
      · rintro ⟨hne, hentry⟩
        exact ⟨hbytes, count, array, hcount, harray, hne, hentry⟩
    rw [hiff]
    by_cases h3 : count = 0 ∨ array = 0
    · have hr : r = some (u32At bytes (chd - imageBase + 4), count, []) := by
        have h3' : count = 0 ∨ 256 < count ∨ array = 0 := h3.imp_right .inr
        simp only [h3', if_true, pure_eq_ok] at h
        exact h
      rw [hr]
      refine ⟨fun hname => absurd hname List.not_mem_nil, ?_⟩
      rintro ⟨hne, i, hi, -⟩
      rcases h3 with h3 | h3
      · omega
      · exact (hne h3).elim
    · rw [not_or] at h3
      obtain ⟨hsmall, hentries⟩ := halike.entries count array hbytes hcount harray h3.2
      have hinside : ∀ i < count, imageBase ≤ target imageBase signature array + 4 * i ∧
          target imageBase signature array + 4 * i - imageBase + 4 ≤ bytes.length := fun i hi => by
        obtain ⟨raw, hraw⟩ := Option.isSome_iff_exists.mp (hentries i hi).present
        exact ⟨(inside_of_u32 hraw).1, (inside_of_u32 hraw).2.1⟩
      have hbase : imageBase ≤ target imageBase signature array :=
        (hinside 0 (Nat.pos_of_ne_zero h3.1)).1
      have h3' : ¬ (count = 0 ∨ 256 < count ∨ array = 0) := by
        rintro (h | h | h)
        · exact h3.1 h
        · omega
        · exact h3.2 h
      simp only [h3', if_false, rttiPtr_bind_eq_ok, Nat.not_lt.mpr hbase,
        Nat.min_eq_left hsmall] at h
      have hentry : ∀ i < count, entryName bytes imageBase signature
            (u32At bytes (target imageBase signature array - imageBase + 4 * i)) = some name ↔
          EntryNameAt (fileMemory bytes imageBase) imageBase signature
            (target imageBase signature array + 4 * i) name := by
        intro i hi
        obtain ⟨hle, hlen⟩ := hinside i hi
        have hu32 := u32_fileMemory hle hlen
        rw [show target imageBase signature array - imageBase + 4 * i =
          target imageBase signature array + 4 * i - imageBase by omega]
        exact entryName_iff hu32 fun type hraw htype hne =>
          ((hentries i hi).name _ type hu32 hraw htype hne).endsBefore
      obtain ⟨-, h⟩ := h
      obtain ⟨names, hnames, h⟩ := bind_eq_ok.mp h
      obtain rfl := pure_eq_ok.mp h
      have hlast := (hinside (count - 1) (by omega)).2
      have hwhole : target imageBase signature array - imageBase + 4 * count ≤ bytes.length := by
        omega
      obtain ⟨list, rfl, hmem⟩ := @mem_baseClassNames _ _ _ _ _ name _ hnames hwhole
      refine mem_sortNames.trans (hmem.trans ?_)
      constructor
      · rintro ⟨i, hi, hname⟩
        exact ⟨h3.2, i, hi, (hentry i hi).mp hname⟩
      · rintro ⟨-, i, hi, hname⟩
        exact ⟨i, hi, (hentry i hi).mpr hname⟩

def LocatorFits (bytes : List UInt8) (imageBase col : Nat) : Prop :=
  let offset := col - imageBase
  let signature := u32At bytes offset
  let typeDescriptorRaw := u32At bytes (offset + 12)
  let classDescriptorRaw := u32At bytes (offset + 16)
  imageBase ≤ col → offset + 20 < 2 ^ 64 ∧ (offset + 20 ≤ bytes.length →
    ¬ (1 < signature ∨ typeDescriptorRaw = 0 ∨ classDescriptorRaw = 0) →
    PtrFits imageBase signature typeDescriptorRaw ∧
      PtrFits imageBase signature classDescriptorRaw ∧
      HierarchyFits bytes imageBase signature (target imageBase signature classDescriptorRaw))

theorem add_bind_eq_ok {α : Type} {a b : Nat} {f : Nat → Except Fault α} {r : α} :
    (add 64 a b >>= f) = .ok r ↔ a + b < 2 ^ 64 ∧ f (a + b) = .ok r := by
  simp only [bind_eq_ok, add_eq_ok]
  constructor
  · rintro ⟨c, ⟨hfits, rfl⟩, h⟩
    exact ⟨hfits, h⟩
  · rintro ⟨hfits, h⟩
    exact ⟨_, ⟨hfits, rfl⟩, h⟩

theorem parseMsvcCol_isOk : (∃ r, parseMsvcCol bytes imageBase col = .ok r) ↔
    LocatorFits bytes imageBase col := by
  unfold parseMsvcCol LocatorFits
  by_cases h1 : col < imageBase
  · simp only [h1, if_true, Nat.not_le.mpr h1, false_implies, iff_true]
    exact ⟨_, rfl⟩
  simp only [h1, if_false, Nat.le_of_not_lt h1, forall_const, add_bind_eq_ok, exists_and_left]
  refine and_congr_right fun _ => ?_
  by_cases h2 : bytes.length < col - imageBase + 20
  · simp only [h2, if_true, Nat.not_le.mpr h2, false_implies, iff_true]
    exact ⟨_, rfl⟩
  by_cases h3 : 1 < u32At bytes (col - imageBase) ∨ u32At bytes (col - imageBase + 12) = 0 ∨
      u32At bytes (col - imageBase + 16) = 0
  · simp only [h2, h3, if_true, if_false, not_true_eq_false, false_implies, implies_true, iff_true]
    exact ⟨_, rfl⟩
  simp only [h2, h3, if_false, not_false_eq_true, Nat.le_of_not_lt h2, forall_const,
    rttiPtr_bind_eq_ok, exists_and_left, ← parseClassHierarchy_isOk]
  refine and_congr_right fun _ => and_congr_right fun _ => ?_
  constructor
  · rintro ⟨r, h⟩
    obtain ⟨hierarchy, hok, -⟩ := bind_eq_ok.mp h
    exact ⟨hierarchy, hok⟩
  · rintro ⟨hierarchy, hok⟩
    exact ⟨_, bind_eq_ok.mpr ⟨hierarchy, hok, rfl⟩⟩

/-- What a locator that is read has. -/
theorem parseMsvcCol_spec {r : ParsedMsvcCol}
    (h : parseMsvcCol bytes imageBase col = .ok (some r)) :
    r.colVa = col ∧ ∃ signature type class',
      (fileMemory bytes imageBase).u32 col = some signature ∧
      (fileMemory bytes imageBase).u32 (col + 12) = some type ∧
      (fileMemory bytes imageBase).u32 (col + 16) = some class' ∧
      r.className = readTypeDescriptorName bytes imageBase (target imageBase signature type) ∧
      ∃ hierarchy, parseClassHierarchy bytes imageBase signature
          (target imageBase signature class') = .ok hierarchy ∧
        r.baseClasses = (hierarchy.getD (0, 0, [])).2.2 := by
  unfold parseMsvcCol at h
  by_cases h1 : col < imageBase
  · simp only [h1, if_true, pure_eq_ok] at h
    cases h
  have hle := Nat.le_of_not_lt h1
  simp only [h1, if_false, add_bind_eq_ok] at h
  obtain ⟨-, h⟩ := h
  by_cases h2 : bytes.length < col - imageBase + 20
  · simp only [h2, if_true, pure_eq_ok] at h
    cases h
  simp only [h2, if_false] at h
  split at h
  · cases pure_eq_ok.mp h
  obtain ⟨-, h⟩ := rttiPtr_bind_eq_ok.mp h
  obtain ⟨-, h⟩ := rttiPtr_bind_eq_ok.mp h
  obtain ⟨hierarchy, hok, h⟩ := bind_eq_ok.mp h
  cases pure_eq_ok.mp h
  refine ⟨rfl, _, _, _, u32_fileMemory hle (by omega), u32_fileMemory (by omega) (by omega),
    u32_fileMemory (by omega) (by omega), ?_, hierarchy, ?_, rfl⟩
  · rw [show col + 12 - imageBase = col - imageBase + 12 by omega]
  · rw [show col + 16 - imageBase = col - imageBase + 16 by omega]
    exact hok

/-- Where the file is like the memory, the names of a locator are those of the memory. -/
theorem parseMsvcCol_names {mem : Memory} {r : ParsedMsvcCol}
    (h : parseMsvcCol bytes imageBase col = .ok (some r))
    (halike : LocatorAlike (fileMemory bytes imageBase) mem imageBase col) :
    (r.className = some name ↔ ClassNameAt mem imageBase col name) ∧
      (name ∈ r.baseClasses ↔ BaseNameAt mem imageBase col name) := by
  obtain ⟨-, signature, type, class', hsig, htype, hclass, hname, hierarchy, hok, hbases⟩ :=
    parseMsvcCol_spec h
  rw [halike.classNameAt, halike.baseNameAt]
  constructor
  · rw [hname, readTypeDescriptorName_iff (halike.className _ _ hsig htype).endsBefore]
    constructor
    · intro hname
      exact ⟨signature, type, hsig, htype, hname⟩
    · rintro ⟨signature', type', hsig', htype', hname⟩
      cases hsig.symm.trans hsig'
      cases htype.symm.trans htype'
      exact hname
  · rw [hbases, mem_parseClassHierarchy hok (halike.hierarchy _ _ hsig hclass)]
    constructor
    · intro hname
      exact ⟨signature, class', hsig, hclass, hname⟩
    · rintro ⟨signature', class'', hsig', hclass', hname⟩
      cases hsig.symm.trans hsig'
      cases hclass.symm.trans hclass'
      exact hname

end File

section Tables
variable {image : PEImage} {rtti : List RttiRecord} {sect : SectionRecord} {data : List UInt8}
  {offset va c : Nat} {row : VTableRecord}

/-- The sums that the search for tables in an image computes. -/
def SumsFit (image : PEImage) : Prop :=
  ∀ sect ∈ image.sections, ¬ (sect.executable ∨ sect.dataSize < 24) →
    let data := sectionData sect image.bytes
    ∀ offset ∈ image.offsetsFrom data data.length 0, sect.va + offset < 2 ^ 64 ∧
      (3 ≤ (image.methodsAt data offset).length → image.base ≤ sect.va + offset ∧
        ∀ c, valueBefore data offset = some c → LocatorFits image.bytes image.base c)

/-- The address stands in the data of a section just before the first method of the table. -/
def StoredBefore (image : PEImage) (row : VTableRecord) (c : Nat) : Prop :=
  ∃ sect ∈ image.sections, ∃ offset, row.va = sect.va + offset ∧
    row.methods.head? = some (u64At (sectionData sect image.bytes) offset) ∧ 8 ≤ offset ∧
    offset ≤ (sectionData sect image.bytes).length ∧
    c = u64At (sectionData sect image.bytes) (offset - 8)

/-- The names of the row are those that the memory has for the locator. -/
structure NamesFound (image : PEImage) (row : VTableRecord) (c : Nat) : Prop where
  probableClass : ∀ name, row.probableClass = some name ↔
    ClassNameAt image.memory image.base c name
  baseClasses : ∀ name, name ∈ row.baseClasses ↔ BaseNameAt image.memory image.base c name

theorem sub_eq_ok {a b c : Nat} : sub a b = .ok c ↔ b ≤ a ∧ c = a - b := by
  unfold sub
  by_cases h : b ≤ a
  · simp only [h, if_true, Except.ok.injEq, true_and]
    exact eq_comm
  · simp only [h, if_false, false_and, reduceCtorEq]

theorem tableRow_isOk (rtti : List RttiRecord) (sect : SectionRecord) :
    (∃ row, image.tableRow rtti sect data offset va = .ok row) ↔
    image.base ≤ va ∧
      ∀ c, valueBefore data offset = some c → LocatorFits image.bytes image.base c := by
  unfold PEImage.tableRow
  cases hvalue : valueBefore data offset with
  | none =>
    simp only [pure_bind, bind_eq_ok, sub_eq_ok, reduceCtorEq, false_implies, implies_true,
      and_true]
    constructor
    · rintro ⟨row, rva, ⟨hle, -⟩, -⟩
      exact hle
    · intro hle
      exact ⟨_, _, ⟨hle, rfl⟩, rfl⟩
  | some c =>
    simp only [bind_eq_ok, sub_eq_ok, Option.some.injEq, forall_eq', ← parseMsvcCol_isOk]
    constructor
    · rintro ⟨row, col, hcol, _, ⟨hle, -⟩, -⟩
      exact ⟨hle, col, hcol⟩
    · rintro ⟨hle, col, hcol⟩
      exact ⟨_, col, hcol, _, ⟨hle, rfl⟩, rfl⟩

theorem tableRow_spec (h : image.tableRow rtti sect data offset va = .ok row)
    (hc : row.colVa = some c) : row.va = va ∧ row.methods = (image.methodsAt data offset).take 64 ∧
      valueBefore data offset = some c ∧ ∃ r, parseMsvcCol image.bytes image.base c = .ok (some r) ∧
        row.probableClass = r.className.or (nearestRtti va rtti) ∧
        row.baseClasses = r.baseClasses := by
  unfold PEImage.tableRow at h
  cases hvalue : valueBefore data offset with
  | none =>
    simp only [hvalue, pure_bind, bind_eq_ok, sub_eq_ok, pure_eq_ok] at h
    obtain ⟨rva, -, rfl⟩ := h
    cases hc
  | some value =>
    simp only [hvalue, bind_eq_ok, sub_eq_ok, pure_eq_ok] at h
    obtain ⟨col, hcol, rva, -, rfl⟩ := h
    cases col with
    | none => cases hc
    | some r =>
      have hva : r.colVa = value := (parseMsvcCol_spec hcol).1
      have heq : value = c := by
        rw [← hva]
        exact Option.some.inj hc
      subst heq
      exact ⟨rfl, rfl, rfl, r, hcol, rfl, rfl⟩

theorem tableAt_isOk (rtti : List RttiRecord) (sect : SectionRecord) :
    (∃ r, image.tableAt rtti sect data offset = .ok r) ↔
    sect.va + offset < 2 ^ 64 ∧ (3 ≤ (image.methodsAt data offset).length →
      image.base ≤ sect.va + offset ∧
        ∀ c, valueBefore data offset = some c → LocatorFits image.bytes image.base c) := by
  unfold PEImage.tableAt
  simp only [add_bind_eq_ok, exists_and_left]
  refine and_congr_right fun _ => ?_
  by_cases hmethods : 3 ≤ (image.methodsAt data offset).length
  · simp only [hmethods, if_true, forall_const]
    rw [← tableRow_isOk rtti sect]
    constructor
    · rintro ⟨r, h⟩
      obtain ⟨row, hrow, -⟩ := bind_eq_ok.mp h
      exact ⟨row, hrow⟩
    · rintro ⟨row, hrow⟩
      exact ⟨_, bind_eq_ok.mpr ⟨row, hrow, rfl⟩⟩
  · simp only [hmethods, if_false, false_implies, iff_true]
    exact ⟨_, rfl⟩

theorem sectionTables_isOk (rtti : List RttiRecord) : (∃ r, image.sectionTables rtti sect = .ok r) ↔
    (¬ (sect.executable ∨ sect.dataSize < 24) →
      ∀ offset ∈ image.offsetsFrom (sectionData sect image.bytes)
          (sectionData sect image.bytes).length 0, sect.va + offset < 2 ^ 64 ∧
        (3 ≤ (image.methodsAt (sectionData sect image.bytes) offset).length →
          image.base ≤ sect.va + offset ∧ ∀ c,
            valueBefore (sectionData sect image.bytes) offset = some c →
              LocatorFits image.bytes image.base c)) := by
  unfold PEImage.sectionTables
  by_cases hskip : sect.executable ∨ sect.dataSize < 24
  · simp only [hskip, if_true, not_true_eq_false, false_implies, iff_true]
    exact ⟨_, rfl⟩
  · simp only [hskip, if_false, not_false_eq_true, forall_const, ← tableAt_isOk rtti sect]
    rw [← Checked.mapM_isOk]
    constructor
    · rintro ⟨r, h⟩
      obtain ⟨rows, hrows, -⟩ := bind_eq_ok.mp h
      exact ⟨rows, hrows⟩
    · rintro ⟨rows, hrows⟩
      exact ⟨_, bind_eq_ok.mpr ⟨rows, hrows, rfl⟩⟩

theorem recoverCpp_isOk {strings : List StringRecord} :
    (∃ out, image.recoverCpp strings = .ok out) ↔ SumsFit image := by
  unfold PEImage.recoverCpp SumsFit
  simp only [← sectionTables_isOk (recoverRtti strings)]
  rw [← Checked.mapM_isOk]
  constructor
  · rintro ⟨out, h⟩
    obtain ⟨tables, htables, -⟩ := bind_eq_ok.mp h
    exact ⟨tables, htables⟩
  · rintro ⟨tables, htables⟩
    exact ⟨_, bind_eq_ok.mpr ⟨tables, htables, rfl⟩⟩

theorem methodsFrom_head {count cursor : Nat} (h : image.methodsFrom data count cursor ≠ []) :
    (image.methodsFrom data count cursor).head? = some (u64At data cursor) := by
  cases count with
  | zero => exact (h rfl).elim
  | succ count =>
    simp only [PEImage.methodsFrom] at h ⊢
    split
    · next hlen =>
      rw [if_pos hlen] at h
      exact (h rfl).elim
    · next hlen =>
      rw [if_neg hlen] at h
      split
      · rfl
      · next hexec =>
        simp only [hexec, Bool.false_eq_true, if_false] at h
        exact (h rfl).elim

theorem length_of_mem_offsetsFrom {count start : Nat}
    (h : offset ∈ image.offsetsFrom data count start) : offset ≤ data.length := by
  induction count generalizing start with
  | zero => cases h
  | succ count ih =>
    rw [PEImage.offsetsFrom] at h
    split at h
    · cases h
    · rcases List.mem_cons.mp h with rfl | h
      · omega
      · exact ih h

/-- A row comes from an offset in the data of a section. -/
theorem mem_recoverCpp {strings : List StringRecord} {tables : List VTableRecord}
    (h : image.recoverCpp strings = .ok (tables, rtti)) (hrow : row ∈ tables) :
    rtti = recoverRtti strings ∧ ∃ sect ∈ image.sections, ∃ offset,
      offset ≤ (sectionData sect image.bytes).length ∧
      3 ≤ (image.methodsAt (sectionData sect image.bytes) offset).length ∧
      image.tableRow rtti sect (sectionData sect image.bytes) offset (sect.va + offset) =
        .ok row := by
  unfold PEImage.recoverCpp at h
  obtain ⟨lists, hlists, h⟩ := bind_eq_ok.mp h
  cases pure_eq_ok.mp h
  obtain ⟨list, hlist, hrow⟩ := List.mem_flatten.mp hrow
  obtain ⟨sect, hsect, htables⟩ := Checked.mem_mapM hlists hlist
  unfold PEImage.sectionTables at htables
  split at htables
  · cases pure_eq_ok.mp htables
    cases hrow
  · obtain ⟨rows, hrows, htables⟩ := bind_eq_ok.mp htables
    cases pure_eq_ok.mp htables
    obtain ⟨found, hfound, hid⟩ := List.mem_filterMap.mp hrow
    obtain ⟨offset, hoffset, htable⟩ := Checked.mem_mapM hrows hfound
    refine ⟨rfl, sect, hsect, offset, length_of_mem_offsetsFrom hoffset, ?_⟩
    unfold PEImage.tableAt at htable
    obtain ⟨-, htable⟩ := add_bind_eq_ok.mp htable
    split at htable
    · next hmethods =>
      obtain ⟨r, hr, htable⟩ := bind_eq_ok.mp htable
      cases pure_eq_ok.mp htable
      cases hid
      exact ⟨hmethods, hr⟩
    · cases pure_eq_ok.mp htable
      cases hid

end Tables

def zeros (n : Nat) : List UInt8 := List.replicate n 0

/-- A section behind the headers, at some place in memory, and one for the methods. -/
def rttiSections (rva : Nat) : List SectionRecord :=
  [⟨".rdata", rva, rva, 108, 512, 108, 108, false, (512, 620)⟩,
    ⟨".text", 1024, 1024, 8, 620, 0, 0, true, (620, 620)⟩]

/-- A locator address, a table of three methods, two locators, two names and an empty hierarchy. -/
def rttiData (locator : Nat) (types : Nat × Nat) : List UInt8 :=
  [leBytes 8 locator, leBytes 8 1024, leBytes 8 1024, leBytes 8 1024,
    leBytes 4 1, zeros 8, leBytes 4 types.1, leBytes 4 604,
    leBytes 4 1, zeros 8, leBytes 4 types.2, leBytes 4 604,
    zeros 16, [0x41, 0], [0x42, 0], zeros 16].flatten

def rttiImage (rva locator : Nat) (types : Nat × Nat) : PEImage where
  bytes := fileHeaders 0 (rttiSections rva) ++ rttiData locator types
  base := 0
  entryVa := 0
  machine := 0x8664
  dllCharacteristics := 0
  dataDirectories := []
  sections := rttiSections rva
  imports := []
  exports := []
  exceptions := []
  functionSeedsCache := []
  overlayOffsetCache := none

/-- The file is laid out like the memory. -/
def flatImage : PEImage := rttiImage 512 544 (584, 584)

theorem flatImage_alike {va n : Nat} (hle : 512 ≤ va) (h : va + n ≤ 620) :
    Alike (fileMemory flatImage.bytes flatImage.base) flatImage.memory va n := by
  intro i hi
  have hlength : flatImage.bytes.length = 620 := by decide +kernel
  have hbase : flatImage.base = 0 := rfl
  have hsect : flatImage.sections.find? (fun sect => sect.rva ≤ va + i &&
      va + i < sect.rva + mappedSize sect) =
        some ⟨".rdata", 512, 512, 108, 512, 108, 108, false, (512, 620)⟩ := by
    refine List.find?_cons_of_pos ?_
    rw [Bool.and_eq_true, decide_eq_true_iff, decide_eq_true_iff]
    exact ⟨hle.trans (Nat.le_add_right _ _), Nat.lt_of_lt_of_le (Nat.add_lt_add_left hi va) h⟩
  have hsum : 512 + (va + i - 512) = va + i := by omega
  have hfile : (sectionData ⟨".rdata", 512, 512, 108, 512, 108, 108, false, (512, 620)⟩
      flatImage.bytes)[va + i - 512]? = flatImage.bytes[va + i]? := by
    rw [sectionData, List.getElem?_take_of_lt (by dsimp only; omega), List.getElem?_drop, hsum]
  rw [fileMemory, PEImage.memory, hbase]
  simp only [Nat.not_lt_zero, if_false, Nat.sub_zero, hsect, Option.map_some, hfile]
  rw [List.getElem?_eq_getElem (by omega), Option.getD_some]

theorem flatImage_nameAlike :
    NameAlike (fileMemory flatImage.bytes flatImage.base) flatImage.memory 584 where
  header := flatImage_alike (by decide) (by decide)
  text := by
    intro n hn
    have hend : fileMemory flatImage.bytes flatImage.base 601 = some 0 := by decide +kernel
    have hle : n ≤ 1 := by
      by_contra hlt
      obtain ⟨b, hb, hne⟩ := hn 1 (by omega)
      exact hne (Option.some.inj (hb.symm.trans hend))
    have hsame := flatImage_alike (by omega) (show 584 + 16 + n + 1 ≤ 620 by omega) 0 Nat.one_pos
    refine ⟨hsame, fun hpos hnone => ?_⟩
    obtain rfl : n = 1 := by omega
    cases hend.symm.trans hnone

theorem flatImage_locator : LocatorAlike (fileMemory flatImage.bytes flatImage.base)
    flatImage.memory flatImage.base 544 where
  locator := flatImage_alike (by decide) (by decide)
  className := by
    intro signature raw hsig hraw
    have hsig' : (fileMemory flatImage.bytes flatImage.base).u32 544 = some 1 := by
      decide +kernel
    have hraw' : (fileMemory flatImage.bytes flatImage.base).u32 556 = some 584 := by
      decide +kernel
    cases hsig'.symm.trans hsig
    cases hraw'.symm.trans hraw
    exact flatImage_nameAlike
  hierarchy := by
    intro signature raw hsig hraw
    have hsig' : (fileMemory flatImage.bytes flatImage.base).u32 544 = some 1 := by
      decide +kernel
    have hraw' : (fileMemory flatImage.bytes flatImage.base).u32 560 = some 604 := by
      decide +kernel
    have harray' : (fileMemory flatImage.bytes flatImage.base).u32 616 = some 0 := by
      decide +kernel
    cases hsig'.symm.trans hsig
    cases hraw'.symm.trans hraw
    refine ⟨flatImage_alike (by decide) (by decide), fun count array _ _ harray hne => ?_⟩
    cases harray'.symm.trans harray
    exact (hne rfl).elim

/-- The only row of a run, where its locator and its class are known. -/
theorem one_row {image : PEImage} {colVa : Option Nat} {probableClass : Option String}
    (h : (image.recoverCpp []).map (fun out =>
      out.1.map fun row => (row.colVa, row.probableClass)) = .ok [(colVa, probableClass)]) :
    ∃ tables rtti row, image.recoverCpp [] = .ok (tables, rtti) ∧
      row ∈ tables ∧ row.colVa = colVa ∧ row.probableClass = probableClass := by
  cases hrun : image.recoverCpp [] with
  | error fault =>
    rw [hrun] at h
    cases h
  | ok out =>
    rw [hrun] at h
    obtain ⟨row, rest, hout, hrow, -⟩ := List.map_eq_cons_iff.mp (Except.ok.inj h)
    refine ⟨out.1, out.2, row, rfl, ?_, congrArg Prod.fst hrow, congrArg Prod.snd hrow⟩
    rw [hout]
    exact List.mem_cons_self

theorem textAt_one {mem : Memory} {va : Nat} {b : UInt8} (hb : b ≠ 0) (hfirst : mem va = some b)
    (hend : mem (va + 1) = some 0) : TextAt mem va [b] where
  nonempty := List.cons_ne_nil b []
  inside := by
    intro i c hc
    cases i with
    | zero =>
      cases hc
      exact ⟨hb, hfirst⟩
    | succ i => cases hc
  terminated := hend

/-- A section mapped behind its place in the file, with another locator where the file has it. -/
def decoyImage : PEImage := rttiImage 532 564 (604, 586)

end Axe.Pe
