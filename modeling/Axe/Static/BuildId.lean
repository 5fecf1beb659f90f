import Mathlib.Data.List.Basic
import Mathlib.Data.Nat.Bitwise
import Axe.Lib.Checked
import Axe.Lib.Loops
import Axe.Pe.Bytes

/-!
# The build identifier in the notes of an ELF file

A note is a header of three numbers, a name and a descriptor, each padded to four bytes. The
parser goes from note to note with a cursor that it aligns itself, and it ends at the first
build identifier, at a length that leaves the data, or where no header fits any more.
-/
namespace Axe.Static.BuildId

open Checked (Fault add slice)
open Axe.Pe (fromLeBytes)
open Loops (Turn)

def elfNoteGnuBuildId : Nat := 3

/-- The data of a section. No slice is longer than `isize::MAX`. -/
structure SectionData where
  bytes : List UInt8
  length_lt : bytes.length < 2 ^ 63

def readU32 (bytes : List UInt8) (littleEndian : Bool) : Option Nat :=
  if bytes.length ≠ 4 then none
  else some (fromLeBytes (if littleEndian then bytes else bytes.reverse))

/-- `value & !3` of the next multiple of four. -/
def align4 (value : Nat) : Except Fault Nat := do
  let sum ← add 64 value 3
  return sum &&& (2 ^ 64 - (3 + 1))

def hex (bytes : List UInt8) : String :=
  String.ofList (bytes.flatMap fun byte =>
    let digits := Nat.toDigits 16 byte.toNat
    List.replicate (2 - digits.length) '0' ++ digits)

def checkedAdd (a b : Nat) : Option Nat := if a + b < 2 ^ 64 then some (a + b) else none

structure ParsedNote where
  name : List UInt8
  desc : List UInt8
  noteType : Nat
  deriving DecidableEq

def fieldAt (data : List UInt8) (cursor : Nat) (littleEndian : Bool) :
    Except Fault (Option Nat) := do
  return readU32 (← slice data cursor (cursor + 4)) littleEndian

/-- The name and the descriptor behind a header, with the cursor behind them. -/
def readBody (data : List UInt8) (cursor namesz descsz noteType : Nat) :
    Except Fault (Option (ParsedNote × Nat)) := do
  let some nameEnd := checkedAdd cursor namesz | return none
  if nameEnd > data.length then return none
  let name ← slice data cursor nameEnd
  let cursor ← align4 nameEnd
  let some descEnd := checkedAdd cursor descsz | return none
  if descEnd > data.length then return none
  let desc ← slice data cursor descEnd
  return some (⟨name, desc, noteType⟩, ← align4 descEnd)

def readNote (data : List UInt8) (littleEndian : Bool) (cursor : Nat) :
    Except Fault (Option (ParsedNote × Nat)) := do
  let some namesz ← fieldAt data cursor littleEndian | return none
  let some descsz ← fieldAt data (cursor + 4) littleEndian | return none
  let some noteType ← fieldAt data (cursor + 8) littleEndian | return none
  readBody data (cursor + 12) namesz descsz noteType

/-- `b"GNU"`. -/
def gnu : List UInt8 := [0x47, 0x4E, 0x55]

def isBuildId (noteType : Nat) (name desc : List UInt8) : Bool :=
  noteType == elfNoteGnuBuildId && gnu.isPrefixOf name && !desc.isEmpty

def turn (data : List UInt8) (littleEndian : Bool) (cursor : Nat) :
    Turn Nat (Except Fault (Option String)) :=
  match add 64 cursor 12 with
  | .error fault => .ended (.error fault)
  | .ok stop =>
    if stop ≤ data.length then
      match readNote data littleEndian cursor with
      | .error fault => .ended (.error fault)
      | .ok none => .ended (.ok none)
      | .ok (some (note, next)) =>
        if isBuildId note.noteType note.name note.desc then .ended (.ok (some (hex note.desc)))
        else .next next
    else .ended (.ok none)

/-- The result, when the loop ends within as many turns as there are bytes. -/
def parseGnuBuildId (data : SectionData) (littleEndian : Bool) :
    Option (Except Fault (Option String)) :=
  Loops.run (turn data.bytes littleEndian) (data.bytes.length + 1) 0

structure Note where
  name : List UInt8
  desc : List UInt8
  noteType : Nat
  name_lt : name.length < 2 ^ 32
  desc_lt : desc.length < 2 ^ 32
  type_lt : noteType < 2 ^ 32

/-- How many bytes are missing to a multiple of four. -/
def padding (length : Nat) : Nat := (4 - length % 4) % 4

def zeros (count : Nat) : List UInt8 := List.replicate count 0

def u32Bytes (littleEndian : Bool) (n : Nat) : List UInt8 :=
  let bytes := [n, n / 2 ^ 8, n / 2 ^ 16, n / 2 ^ 24].map UInt8.ofNat
  if littleEndian then bytes else bytes.reverse

def header (littleEndian : Bool) (note : Note) : List UInt8 :=
  u32Bytes littleEndian note.name.length ++ u32Bytes littleEndian note.desc.length ++
    u32Bytes littleEndian note.noteType

def encodeNote (littleEndian : Bool) (note : Note) : List UInt8 :=
  header littleEndian note ++ note.name ++ zeros (padding note.name.length) ++
    note.desc ++ zeros (padding note.desc.length)

def encodeNotes (littleEndian : Bool) (notes : List Note) : List UInt8 :=
  notes.flatMap (encodeNote littleEndian)

/-- The padding that ends the encoding of a note. -/
def finalPadding (note : Note) : Nat :=
  if note.desc = [] then padding note.name.length else padding note.desc.length

/-- An encoding of some notes, the final padding of which may be left out. -/
def Encodes (littleEndian : Bool) (notes : List Note) (data : List UInt8) : Prop :=
  ∃ cut ≤ (notes.getLast?.map finalPadding).getD 0,
    data ++ zeros cut = encodeNotes littleEndian notes

def lowerDigit (n : Nat) : Char := "0123456789abcdef".toList.getD n '0'

def lowerHex (bytes : List UInt8) : String :=
  String.ofList (bytes.flatMap fun byte =>
    [lowerDigit (byte.toNat / 16), lowerDigit (byte.toNat % 16)])

/-- The descriptor of the first build identifier. -/
def buildId (notes : List Note) : Option String :=
  (notes.find? fun note =>
    note.noteType = 3 ∧ gnu <+: note.name ∧ note.desc ≠ []).map fun note => lowerHex note.desc

section
variable {data before part after : List UInt8} {littleEndian : Bool} {note : Note} {n c e : Nat}

theorem align4_eq (h : n < 2 ^ 63 + 3) : align4 n = .ok (n + padding n) := by
  have hclear : (n + 3) &&& (2 ^ 64 - (3 + 1)) = 2 ^ 2 * ((n + 3) / 2 ^ 2) := by
    refine Nat.eq_of_testBit_eq fun i => ?_
    have hbound : n + 3 < 2 ^ 64 := by omega
    rw [Nat.testBit_and, Nat.testBit_two_pow_sub_succ (by decide), Nat.testBit_two_pow_mul,
      Nat.testBit_div_two_pow]
    rcases lt_or_ge i 2 with hi | hi
    · have hthree : (3 : Nat).testBit i = true := by
        obtain rfl | rfl : i = 0 ∨ i = 1 := by omega
        · rfl
        · rfl
      simp [hthree, hi.not_ge]
    · have hthree : (3 : Nat).testBit i = false :=
        Nat.testBit_lt_two_pow (lt_of_lt_of_le (by decide : 3 < 2 ^ 2)
          (Nat.pow_le_pow_right (by decide) hi))
      rcases lt_or_ge i 64 with hi64 | hi64
      · simp [hthree, hi, hi64]
      · have hhigh : (n + 3).testBit i = false :=
          Nat.testBit_lt_two_pow (hbound.trans_le (Nat.pow_le_pow_right (by decide) hi64))
        have hshift : i - 2 + 2 = i := by omega
        simp [hhigh, hi64.not_gt, hshift]
  have hsum : add 64 n 3 = .ok (n + 3) := Checked.add_eq_ok.mpr ⟨by omega, rfl⟩
  rw [align4, hsum]
  refine congrArg Except.ok (hclear.trans ?_)
  rw [padding]
  omega

@[simp] theorem length_u32Bytes : (u32Bytes littleEndian n).length = 4 := by
  cases littleEndian <;> rfl

theorem fromLeBytes_words (h : n < 2 ^ 32) :
    fromLeBytes ([n, n / 2 ^ 8, n / 2 ^ 16, n / 2 ^ 24].map UInt8.ofNat) = n := by
  simp only [List.map_cons, List.map_nil, fromLeBytes, List.foldr_cons, List.foldr_nil,
    UInt8.toNat_ofNat']
  omega

/-- A number is read back from its bytes. -/
theorem readU32_u32Bytes (h : n < 2 ^ 32) :
    readU32 (u32Bytes littleEndian n) littleEndian = some n := by
  rw [readU32, if_neg (by simp)]
  cases littleEndian
  · simp only [u32Bytes, Bool.false_eq_true, if_false, List.reverse_reverse]
    exact congrArg some (fromLeBytes_words h)
  · simp only [u32Bytes, if_true]
    exact congrArg some (fromLeBytes_words h)

theorem slice_middle (hdata : data = before ++ (part ++ after)) (hc : c = before.length)
    (he : e = c + part.length) : slice data c e = .ok part := by
  subst hdata hc he
  rw [Checked.slice_eq_ok (by simp), List.drop_left, Nat.add_sub_cancel_left, List.take_left]

theorem fieldAt_u32Bytes (h : n < 2 ^ 32)
    (hdata : data = before ++ (u32Bytes littleEndian n ++ after)) (hc : c = before.length) :
    fieldAt data c littleEndian = .ok (some n) := by
  rw [fieldAt, slice_middle hdata hc (by rw [length_u32Bytes]), ← readU32_u32Bytes h]
  rfl

/-- Where a field fits, it has some number. -/
theorem exists_fieldAt (h : c + 4 ≤ data.length) :
    ∃ n < 2 ^ 32, fieldAt data c littleEndian = .ok (some n) := by
  have hlength : ((data.drop c).take (c + 4 - c)).length = 4 := by
    rw [List.length_take, List.length_drop]
    omega
  have hread : ∀ bytes : List UInt8, bytes.length = 4 →
      ∃ n < 2 ^ 32, readU32 bytes littleEndian = some n := by
    intro bytes hbytes
    rw [readU32, if_neg (by simpa using hbytes)]
    refine ⟨_, ?_, rfl⟩
    refine lt_of_lt_of_eq (Pe.fromLeBytes_lt _) ?_
    cases littleEndian <;> simp [hbytes]
  obtain ⟨n, hn, hread⟩ := hread _ hlength
  refine ⟨n, hn, ?_⟩
  rw [fieldAt, Checked.slice_eq_ok ⟨by omega, h⟩, ← hread]
  rfl

theorem hex_eq_lowerHex (bytes : List UInt8) : hex bytes = lowerHex bytes := by
  refine congrArg String.ofList (List.flatMap_congr fun byte _ => ?_)
  have hdigit : ∀ d < 16, Nat.digitChar d = lowerDigit d := by decide
  have hlow := Nat.mod_lt byte.toNat (show 16 > 0 by decide)
  rw [← hdigit _ hlow]
  rcases lt_or_ge byte.toNat 16 with h | h
  · have hdigits := Nat.toDigits_of_lt_base h
    rw [hdigits, Nat.div_eq_of_lt h, Nat.mod_eq_of_lt h]
    rfl
  · have hhigh : byte.toNat / 16 < 16 := by
      have := byte.toNat_lt
      omega
    rw [Nat.toDigits_of_base_le (by decide) h, Nat.toDigits_of_lt_base hhigh, hdigit _ hhigh]
    rfl

theorem isBuildId_iff :
    isBuildId note.noteType note.name note.desc = true ↔
      note.noteType = 3 ∧ gnu <+: note.name ∧ note.desc ≠ [] := by
  simp [isBuildId, elfNoteGnuBuildId, and_assoc]

theorem checkedAdd_of_lt {a b : Nat} (h : a + b < 2 ^ 64) : checkedAdd a b = some (a + b) :=
  if_pos h

/-- What stands behind a header, by the places alone. -/
def bodyAt (data : List UInt8) (c namesz descsz noteType : Nat) : Option (ParsedNote × Nat) :=
  let nameEnd := c + namesz
  let start := nameEnd + padding nameEnd
  let stop := start + descsz
  if nameEnd ≤ data.length ∧ stop ≤ data.length then
    some (⟨(data.drop c).take namesz, (data.drop start).take descsz, noteType⟩,
      stop + padding stop)
  else none

/-- The body of a note is read without a fault, whatever the lengths in its header. -/
theorem readBody_eq {namesz descsz noteType : Nat} (hdata : data.length < 2 ^ 63)
    (hc : c ≤ data.length) (hname : namesz < 2 ^ 32) (hdesc : descsz < 2 ^ 32) :
    readBody data c namesz descsz noteType = .ok (bodyAt data c namesz descsz noteType) := by
  have hpad : ∀ n, padding n ≤ 3 := fun n => by
    rw [padding]
    omega
  have hp := hpad (c + namesz)
  rw [readBody, bodyAt, checkedAdd_of_lt (by omega)]
  dsimp only
  by_cases hn : c + namesz ≤ data.length
  · rw [if_neg (by omega), Checked.slice_eq_ok ⟨by omega, hn⟩, align4_eq (by omega),
      Nat.add_sub_cancel_left]
    simp only [bind, Except.bind]
    rw [checkedAdd_of_lt (by omega)]
    dsimp only
    by_cases hd : c + namesz + padding (c + namesz) + descsz ≤ data.length
    · rw [if_neg (by omega), Checked.slice_eq_ok ⟨by omega, hd⟩, if_pos ⟨hn, hd⟩,
        Nat.add_sub_cancel_left]
      dsimp only
      rw [align4_eq (by omega)]
      rfl
    · rw [if_pos (by omega), if_neg fun h => hd h.2]
      rfl
  · rw [if_pos (by omega), if_neg fun h => hn h.1]
    rfl

theorem readNote_eq {namesz descsz noteType : Nat} (hdata : data.length < 2 ^ 63)
    (hc : c + 12 ≤ data.length) (hname : namesz < 2 ^ 32) (hdesc : descsz < 2 ^ 32)
    (hnamesz : fieldAt data c littleEndian = .ok (some namesz))
    (hdescsz : fieldAt data (c + 4) littleEndian = .ok (some descsz))
    (htype : fieldAt data (c + 8) littleEndian = .ok (some noteType)) :
    readNote data littleEndian c = .ok (bodyAt data (c + 12) namesz descsz noteType) := by
  rw [← readBody_eq hdata hc hname hdesc, readNote, hnamesz, hdescsz, htype]
  rfl

/-- At every place where a header fits, a note is read or the parse ends. -/
theorem exists_readNote (hdata : data.length < 2 ^ 63) (hc : c + 12 ≤ data.length) :
    readNote data littleEndian c = .ok none ∨
      ∃ note next, readNote data littleEndian c = .ok (some (note, next)) ∧ c < next ∧
        next ≤ data.length + 3 := by
  obtain ⟨namesz, hname, hnamesz⟩ :=
    @exists_fieldAt data littleEndian c (by omega)
  obtain ⟨descsz, hdesc, hdescsz⟩ :=
    @exists_fieldAt data littleEndian (c + 4) (by omega)
  obtain ⟨noteType, -, htype⟩ :=
    @exists_fieldAt data littleEndian (c + 8) (by omega)
  rw [readNote_eq hdata hc hname hdesc hnamesz hdescsz htype, bodyAt]
  split
  · rename_i h
    refine .inr ⟨_, _, rfl, by omega, ?_⟩
    have hpad : padding (c + 12 + namesz + padding (c + 12 + namesz) + descsz) ≤ 3 := by
      rw [padding]
      omega
    omega
  · exact .inl rfl

@[simp] theorem length_header : (header littleEndian note).length = 12 := by simp [header]

@[simp] theorem length_zeros : (zeros n).length = n := List.length_replicate ..

theorem zeros_add (m n : Nat) : zeros (m + n) = zeros m ++ zeros n :=
  (List.replicate_append_replicate ..).symm

theorem length_encodeNote : (encodeNote littleEndian note).length =
    12 + note.name.length + padding note.name.length + note.desc.length +
      padding note.desc.length := by
  simp [encodeNote]
  omega

/-- A note is read from behind its header, when its body is there. -/
theorem readNote_header (hlt : data.length < 2 ^ 63)
    (hdata : data = before ++ (header littleEndian note ++ after)) (hc : c = before.length) :
    readNote data littleEndian c =
      .ok (bodyAt data (c + 12) note.name.length note.desc.length note.noteType) := by
  have hc12 : c + 12 ≤ data.length := by
    rw [hdata, hc]
    simp
  have hname : data = before ++ (u32Bytes littleEndian note.name.length ++
      (u32Bytes littleEndian note.desc.length ++
        (u32Bytes littleEndian note.noteType ++ after))) := by
    rw [hdata, header]
    simp only [List.append_assoc]
  have hdesc : data = (before ++ u32Bytes littleEndian note.name.length) ++
      (u32Bytes littleEndian note.desc.length ++
        (u32Bytes littleEndian note.noteType ++ after)) := by
    rw [hname, List.append_assoc]
  have htype : data = (before ++ u32Bytes littleEndian note.name.length ++
      u32Bytes littleEndian note.desc.length) ++
        (u32Bytes littleEndian note.noteType ++ after) := by
    rw [hdesc, List.append_assoc (before ++ _)]
  exact readNote_eq hlt hc12 note.name_lt note.desc_lt (fieldAt_u32Bytes note.name_lt hname hc)
    (fieldAt_u32Bytes note.desc_lt hdesc (by simp [hc]))
    (fieldAt_u32Bytes note.type_lt htype (by simp [hc]))

/-- A note whose descriptor is there is read whole. -/
theorem readNote_note (hlt : data.length < 2 ^ 63) (hc : c = before.length) (h4 : c % 4 = 0)
    (hdata : data = before ++ (header littleEndian note ++ (note.name ++
      (zeros (padding note.name.length) ++ (note.desc ++ after))))) :
    readNote data littleEndian c = .ok (some (⟨note.name, note.desc, note.noteType⟩,
      c + (encodeNote littleEndian note).length)) := by
  have hpad : padding (c + 12 + note.name.length) = padding note.name.length := by
    rw [padding, padding]
    omega
  have hpad' : padding (c + 12 + note.name.length + padding note.name.length +
      note.desc.length) = padding note.desc.length := by
    rw [padding, padding, padding]
    omega
  have hlength := congrArg List.length hdata
  simp only [List.length_append, length_header, length_zeros, ← hc] at hlength
  have hname : (data.drop (c + 12)).take note.name.length = note.name := by
    rw [hdata, ← List.append_assoc, List.drop_left' (by simp [hc]), List.take_left]
  have hdesc : (data.drop (c + 12 + note.name.length + padding note.name.length)).take
      note.desc.length = note.desc := by
    rw [hdata]
    simp only [← List.append_assoc]
    have hstart : (before ++ header littleEndian note ++ note.name ++
        zeros (padding note.name.length)).length =
          c + 12 + note.name.length + padding note.name.length := by
      simp [hc, Nat.add_assoc]
    rw [List.append_assoc _ note.desc, List.drop_left' hstart, List.take_left]
  have hnext : c + 12 + note.name.length + padding note.name.length + note.desc.length +
      padding note.desc.length = c + (encodeNote littleEndian note).length := by
    rw [length_encodeNote]
    omega
  rw [readNote_header hlt hdata hc, bodyAt, hpad, hpad', if_pos ⟨by omega, by omega⟩, hname, hdesc,
    hnext]

/-- A note that ends within the padding of its name ends the parse. -/
theorem readNote_cut (hlt : data.length < 2 ^ 63) (hc : c = before.length) (h4 : c % 4 = 0)
    (hdesc : note.desc = []) (hn : n < padding note.name.length)
    (hdata : data = before ++ (header littleEndian note ++ (note.name ++ zeros n))) :
    readNote data littleEndian c = .ok none := by
  have hpad : padding (c + 12 + note.name.length) = padding note.name.length := by
    rw [padding, padding]
    omega
  have hlength := congrArg List.length hdata
  simp only [List.length_append, length_header, length_zeros, ← hc] at hlength
  rw [readNote_header hlt hdata hc, bodyAt, hpad, hdesc, if_neg fun h => by
    have := h.2
    simp only [List.length_nil] at this
    omega]

theorem encodes_cons {note' : Note} {notes : List Note}
    (h : Encodes littleEndian (note :: note' :: notes) data) :
    ∃ rest, data = encodeNote littleEndian note ++ rest ∧
      Encodes littleEndian (note' :: notes) rest := by
  obtain ⟨cut, hcut, heq⟩ := h
  rw [encodeNotes, List.flatMap_cons] at heq
  rw [List.getLast?_cons_cons] at hcut
  rcases List.append_eq_append_iff.mp heq with ⟨mid, -, hzeros⟩ | ⟨rest, hdata, hrest⟩
  · -- the encoding of the rest is longer than any padding
    have hlast : cut ≤ 3 := by
      refine hcut.trans ?_
      cases (note' :: notes).getLast? with
      | none => exact Nat.zero_le _
      | some last =>
        rw [Option.map_some, Option.getD_some, finalPadding]
        split
        · rw [padding]
          omega
        · rw [padding]
          omega
    have hlength := congrArg List.length hzeros
    rw [List.flatMap_cons] at hlength
    simp only [List.length_append, length_zeros, length_encodeNote] at hlength
    omega
  · exact ⟨rest, hdata, cut, hcut, hrest.symm⟩

theorem encodes_singleton (h : Encodes littleEndian [note] data) :
    (∃ after, data = header littleEndian note ++ (note.name ++
      (zeros (padding note.name.length) ++ (note.desc ++ after))) ∧
        after.length ≤ padding note.desc.length) ∨
    (note.desc = [] ∧ ∃ n < padding note.name.length,
      data = header littleEndian note ++ (note.name ++ zeros n)) := by
  obtain ⟨cut, hcut, heq⟩ := h
  simp only [List.getLast?_singleton, Option.map_some, Option.getD_some, finalPadding] at hcut
  simp only [encodeNotes, List.flatMap_cons, List.flatMap_nil, List.append_nil, encodeNote,
    List.append_assoc] at heq
  by_cases hdesc : note.desc = []
  · rw [if_pos hdesc] at hcut
    rw [hdesc] at heq
    obtain ⟨n, hn⟩ := Nat.exists_eq_add_of_le hcut
    have hdata : data = header littleEndian note ++ (note.name ++ zeros n) := by
      rw [hn, Nat.add_comm, zeros_add] at heq
      simp only [← List.append_assoc] at heq ⊢
      refine List.append_cancel_right (heq.trans (?_ : _ = _ ++ zeros cut))
      simp [padding, zeros]
    rcases Nat.eq_zero_or_pos cut with hzero | hpos
    · refine .inl ⟨[], ?_, Nat.zero_le _⟩
      rw [hdata, hdesc, hn, hzero, Nat.zero_add, List.append_nil, List.append_nil]
    · exact .inr ⟨hdesc, n, by omega, hdata⟩
  · rw [if_neg hdesc] at hcut
    obtain ⟨n, hn⟩ := Nat.exists_eq_add_of_le hcut
    refine .inl ⟨zeros n, ?_, by rw [length_zeros]; omega⟩
    rw [hn, Nat.add_comm, zeros_add] at heq
    simp only [← List.append_assoc] at heq ⊢
    exact List.append_cancel_right heq

theorem length_le_of_encodes {notes : List Note} (h : Encodes littleEndian notes data) :
    notes.length ≤ data.length := by
  induction notes generalizing data with
  | nil => exact Nat.zero_le _
  | cons note notes ih =>
    cases notes with
    | nil =>
      have hheader : ∃ rest, data = header littleEndian note ++ rest := by
        rcases encodes_singleton h with ⟨_, hdata, -⟩ | ⟨-, _, -, hdata⟩
        · exact ⟨_, hdata⟩
        · exact ⟨_, hdata⟩
      obtain ⟨rest, rfl⟩ := hheader
      simp only [List.length_append, length_header, List.length_cons, List.length_nil]
      omega
    | cons note' notes =>
      obtain ⟨rest, rfl, hrest⟩ := encodes_cons h
      have hle := ih hrest
      rw [List.length_append, length_encodeNote, List.length_cons]
      omega

theorem add_cursor (hlt : data.length < 2 ^ 63) (hc : c ≤ data.length + 3) :
    add 64 c 12 = .ok (c + 12) := Checked.add_eq_ok.mpr ⟨by omega, rfl⟩

theorem turn_end (hlt : data.length < 2 ^ 63) (hc : c ≤ data.length + 3)
    (hend : data.length < c + 12) : turn data littleEndian c = .ended (.ok none) := by
  rw [turn, add_cursor hlt hc]
  exact if_neg (by omega)

theorem turn_stop (hlt : data.length < 2 ^ 63) (hc : c + 12 ≤ data.length)
    (hread : readNote data littleEndian c = .ok none) :
    turn data littleEndian c = .ended (.ok none) := by
  rw [turn, add_cursor hlt (by omega)]
  dsimp only
  rw [if_pos hc, hread]

theorem turn_note {parsed : ParsedNote} {next : Nat} (hlt : data.length < 2 ^ 63)
    (hc : c + 12 ≤ data.length)
    (hread : readNote data littleEndian c = .ok (some (parsed, next))) :
    turn data littleEndian c =
      if isBuildId parsed.noteType parsed.name parsed.desc then
        .ended (.ok (some (hex parsed.desc)))
      else .next next := by
  rw [turn, add_cursor hlt (by omega)]
  dsimp only
  rw [if_pos hc, hread]

/-- A turn ends without a fault or goes on further to the right, never far behind the data. -/
theorem turn_cases (hlt : data.length < 2 ^ 63) (hc : c ≤ data.length + 3) :
    (∃ r, turn data littleEndian c = .ended (.ok r)) ∨
      ∃ next, turn data littleEndian c = .next next ∧ next ≤ data.length + 3 ∧
        data.length - next < data.length - c := by
  rcases lt_or_ge data.length (c + 12) with hend | hc12
  · exact .inl ⟨none, turn_end hlt hc hend⟩
  · rcases @exists_readNote data littleEndian c hlt hc12 with hnone | ⟨note, next, hread, hgt, hle⟩
    · exact .inl ⟨none, turn_stop hlt hc12 hnone⟩
    · rw [turn_note hlt hc12 hread]
      split
      · exact .inl ⟨_, rfl⟩
      · exact .inr ⟨next, rfl, hle, by omega⟩

theorem parseGnuBuildId_ends (data : SectionData) :
    ∃ r, parseGnuBuildId data littleEndian = some (.ok r) := by
  have hnext : ∀ c c', turn data.bytes littleEndian c = .next c' → c ≤ data.bytes.length + 3 →
      c' ≤ data.bytes.length + 3 ∧ data.bytes.length - c' < data.bytes.length - c := by
    intro c c' hturn hc
    rcases @turn_cases data.bytes littleEndian c data.length_lt hc with
      ⟨r, hr⟩ | ⟨next, hr, hle, hdown⟩
    · rw [hr] at hturn
      cases hturn
    · rw [hr] at hturn
      cases hturn
      exact ⟨hle, hdown⟩
  obtain ⟨r, hr⟩ := Loops.run_ends_of (I := fun c => c ≤ data.bytes.length + 3)
    (fun c => data.bytes.length - c) hnext (Nat.zero_le _)
    (show data.bytes.length - 0 < data.bytes.length + 1 by omega)
  refine Loops.run_keeps (I := fun c => c ≤ data.bytes.length + 3)
    (Q := fun r => ∃ r', some r = some (Except.ok r')) (fun c c' h hc => (hnext c c' h hc).1)
    (fun c r hturn hc => ?_) hr (Nat.zero_le _) |>.imp fun r' heq => hr.trans heq
  rcases @turn_cases data.bytes littleEndian c data.length_lt hc with
    ⟨r', hr'⟩ | ⟨next, hr', -⟩
  · rw [hr'] at hturn
    cases hturn
    exact ⟨r', rfl⟩
  · rw [hr'] at hturn
    cases hturn

theorem buildId_cons (note : Note) (notes : List Note) :
    buildId (note :: notes) =
      if isBuildId note.noteType note.name note.desc then some (hex note.desc)
      else buildId notes := by
  rw [buildId, List.find?_cons]
  by_cases h : isBuildId note.noteType note.name note.desc = true
  · rw [if_pos h, decide_eq_true (isBuildId_iff.mp h), hex_eq_lowerHex]
    rfl
  · rw [if_neg h, decide_eq_false fun h' => h (isBuildId_iff.mpr h')]
    rfl

/-- A note that is read is the build identifier, or the loop goes on behind it. -/
theorem run_note {notes : List Note} {fuel next : Nat} (hlt : data.length < 2 ^ 63)
    (hc : c + 12 ≤ data.length)
    (hread : readNote data littleEndian c =
      .ok (some (⟨note.name, note.desc, note.noteType⟩, next)))
    (hrest : Loops.run (turn data littleEndian) fuel next = some (.ok (buildId notes))) :
    Loops.run (turn data littleEndian) (fuel + 1) c = some (.ok (buildId (note :: notes))) := by
  have hturn := turn_note hlt hc hread
  dsimp only at hturn
  rw [buildId_cons]
  by_cases h : isBuildId note.noteType note.name note.desc = true
  · rw [if_pos h] at hturn ⊢
    exact Loops.run_ended hturn
  · rw [if_neg h] at hturn ⊢
    rw [Loops.run_next hturn, hrest]

/-- From the start of an encoding the loop finds the first build identifier of its notes. -/
theorem run_encodes {notes : List Note} {fuel : Nat} (hlt : data.length < 2 ^ 63)
    (hdata : data = before ++ part) (h4 : before.length % 4 = 0)
    (h : Encodes littleEndian notes part) (hfuel : notes.length < fuel) :
    Loops.run (turn data littleEndian) fuel before.length = some (.ok (buildId notes)) := by
  induction notes generalizing before part fuel with
  | nil =>
    obtain ⟨cut, hcut, heq⟩ := h
    have hpart : part = [] := (List.append_eq_nil_iff.mp heq).1
    obtain ⟨fuel, rfl⟩ := Nat.exists_eq_add_of_lt hfuel
    rw [hpart, List.append_nil] at hdata
    exact Loops.run_ended (turn_end hlt (by rw [hdata]; omega) (by rw [hdata]; omega))
  | cons note notes ih =>
    obtain ⟨fuel, rfl⟩ : ∃ k, fuel = k + 1 := ⟨fuel - 1, by omega⟩
    have hfuel : notes.length < fuel := Nat.lt_of_succ_lt_succ hfuel
    cases notes with
    | nil =>
      rcases encodes_singleton h with ⟨after, rfl, hafter⟩ | ⟨hdesc, n, hn, rfl⟩
      · have hlength := congrArg List.length hdata
        simp only [List.length_append, length_header, length_zeros] at hlength
        refine run_note hlt (by omega) (readNote_note hlt rfl h4 hdata) ?_
        -- what is left is part of a padding
        obtain ⟨fuel, rfl⟩ : ∃ k, fuel = k + 1 := ⟨fuel - 1, by simp at hfuel; omega⟩
        have hpad : padding note.desc.length ≤ 3 := by
          rw [padding]
          omega
        refine Loops.run_ended (turn_end hlt ?_ ?_)
        · rw [length_encodeNote]
          omega
        · rw [length_encodeNote]
          omega
      · have hlength := congrArg List.length hdata
        simp only [List.length_append, length_header, length_zeros] at hlength
        have hno : ¬ isBuildId note.noteType note.name note.desc = true := fun h =>
          (isBuildId_iff.mp h).2.2 hdesc
        rw [buildId_cons, if_neg hno]
        exact Loops.run_ended (turn_stop hlt (by omega) (readNote_cut hlt rfl h4 hdesc hn hdata))
    | cons note' notes =>
      obtain ⟨rest, rfl, hrest⟩ := encodes_cons h
      have hnote : data = before ++ (header littleEndian note ++ (note.name ++
          (zeros (padding note.name.length) ++
            (note.desc ++ (zeros (padding note.desc.length) ++ rest))))) := by
        rw [hdata, encodeNote]
        simp only [List.append_assoc]
      have hlength := congrArg List.length hdata
      simp only [List.length_append, length_encodeNote] at hlength
      have hnext := @length_encodeNote littleEndian note
      refine run_note hlt (by omega) (readNote_note hlt rfl h4 hnote) ?_
      rw [← List.length_append]
      refine ih (by rw [hdata, List.append_assoc]) ?_ hrest hfuel
      rw [List.length_append, hnext, padding, padding]
      omega

end

/-- On the encoding of some notes the parser returns the descriptor of the first build
identifier among them, and it ends without a fault on any data. -/
theorem parseGnuBuildId_inverts (littleEndian : Bool) (data : SectionData) :
    (∀ notes, Encodes littleEndian notes data.bytes →
      parseGnuBuildId data littleEndian = some (.ok (buildId notes))) ∧
    ∃ r, parseGnuBuildId data littleEndian = some (.ok r) := by
  refine ⟨fun notes h => ?_, parseGnuBuildId_ends data⟩
  exact @run_encodes data.bytes [] data.bytes littleEndian notes _ data.length_lt rfl rfl h
    (Nat.lt_succ_of_le (length_le_of_encodes h))

def gnuNote : Note where
  name := [0x47, 0x4E, 0x55, 0]
  desc := [0xAA, 0xBB, 0xCC]
  noteType := 3
  name_lt := by decide
  desc_lt := by decide
  type_lt := by decide

/-- A note without its final padding. -/
def gnuData : SectionData where
  bytes := [4, 0, 0, 0, 3, 0, 0, 0, 3, 0, 0, 0, 0x47, 0x4E, 0x55, 0, 0xAA, 0xBB, 0xCC]
  length_lt := by decide

theorem parseGnuBuildId_gnuNote :
    parseGnuBuildId gnuData true = some (.ok (buildId [gnuNote])) :=
  (parseGnuBuildId_inverts true gnuData).1 [gnuNote] ⟨1, by decide, by decide⟩

end Axe.Static.BuildId
