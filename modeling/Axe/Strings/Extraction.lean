import Axe.Lib.MaximalRuns
import Axe.Static.FileSections

/-!
# Strings of an image

Two scanners list the printable texts of a section: one of single bytes, one of 16-bit units at
even offsets. What a text is classified as is left out.
-/
namespace Axe.Strings

open Axe.MaximalRuns
open Axe.Pe (sectionData)
open Axe.Static (SectionRecord)
open Checked (Fault add)

structure StringRecord where
  va : Nat
  rva : Nat
  fileOffset : Nat
  encoding : String
  size : Nat
  sectionName : Option String
  text : String
  deriving DecidableEq

def printable (byte : UInt8) : Bool := 0x20 ≤ byte && byte ≤ 0x7e

/-- The text of printable bytes. -/
def textOf (bytes : List UInt8) : String := String.ofList (bytes.map fun b => Char.ofNat b.toNat)

def pushRow (base : Nat) (sect : SectionRecord) (encoding text : String) (begin size : Nat)
    (rows : List StringRecord) : Except Fault (List StringRecord) := do
  let start ← add 64 base sect.rva
  let va ← add 64 start begin
  return rows ++
    [⟨va, va - base, sect.rawStart + begin, encoding, size, some sect.name, text⟩]

section Scanners
variable (base : Nat) (sect : SectionRecord) (data : List UInt8) (maxStrings : Nat)

def pushAscii (begin stop : Nat) (rows : List StringRecord) : Except Fault (List StringRecord) :=
  if maxStrings ≤ rows.length ∨ stop - begin < 5 then .ok rows
  else pushRow base sect "ASCII" (textOf ((data.drop begin).take (stop - begin))) begin
    (stop - begin) rows

/-- The loop over the bytes, with the start of a run that is open. -/
def scanAsciiFrom : List UInt8 → Nat → Option Nat → List StringRecord →
    Except Fault (List StringRecord)
  | [], _, none, rows => .ok rows
  | [], _, some begin, rows => pushAscii base sect data maxStrings begin data.length rows
  | byte :: rest, idx, start, rows =>
    if printable byte then scanAsciiFrom rest (idx + 1) (some (start.getD idx)) rows
    else
      match start with
      | none => scanAsciiFrom rest (idx + 1) none rows
      | some begin => do
        let rows ← pushAscii base sect data maxStrings begin idx rows
        scanAsciiFrom rest (idx + 1) none rows

def scanAscii (rows : List StringRecord) : Except Fault (List StringRecord) :=
  scanAsciiFrom base sect data maxStrings data 0 none rows

def unitAt (i : Nat) : UInt8 × UInt8 := (data.getD i 0, data.getD (i + 1) 0)

def isUnit (unit : UInt8 × UInt8) : Bool := printable unit.1 && decide (unit.2 = 0)

/-- The units from an index on. -/
def unitsFrom (i : Nat) : List UInt8 :=
  (leading isUnit 2 data.length (unitAt data) data.length i).map Prod.fst

def pushUtf16 (units : List UInt8) (start : Nat) (rows : List StringRecord) :
    Except Fault (List StringRecord) :=
  if 5 ≤ units.length then
    pushRow base sect "UTF-16LE" (textOf units) start (units.length * 2) rows
  else .ok rows

/-- The loop over the units, at most `count` turns. -/
def scanUtf16From : (count i : Nat) → List StringRecord → Except Fault (List StringRecord)
  | 0, _, rows => .ok rows
  | count + 1, i, rows =>
    if data.length < i + 10 ∨ maxStrings ≤ rows.length then .ok rows
    else do
      let units := unitsFrom data i
      let rows ← pushUtf16 base sect units i rows
      scanUtf16From count (i + 2 * units.length + 2) rows

def scanUtf16 (rows : List StringRecord) : Except Fault (List StringRecord) :=
  scanUtf16From base sect data maxStrings data.length 0 rows

end Scanners

def scanSections (bytes : List UInt8) (base maxStrings : Nat) :
    List SectionRecord → List StringRecord → Except Fault (List StringRecord)
  | [], rows => .ok rows
  | sect :: rest, rows => do
    let data ← sect.data bytes
    let rows ← scanAscii base sect data maxStrings rows
    if maxStrings ≤ rows.length then .ok rows
    else do
      let rows ← scanUtf16 base sect data maxStrings rows
      if maxStrings ≤ rows.length then .ok rows
      else scanSections bytes base maxStrings rest rows

def extractStringsFrom (bytes : List UInt8) (base : Nat) (sections : List SectionRecord)
    (maxStrings : Nat) : Except Fault (List StringRecord) :=
  scanSections bytes base maxStrings sections []

/-- The row of a text at an offset of its section. -/
def rowAt (base : Nat) (sect : SectionRecord) (encoding text : String) (offset size : Nat) :
    StringRecord :=
  ⟨base + sect.rva + offset, sect.rva + offset, sect.rawStart + offset, encoding, size,
    some sect.name, text⟩

def asciiRow (base : Nat) (sect : SectionRecord) (data : List UInt8) (run : Nat × Nat) :
    StringRecord :=
  rowAt base sect "ASCII" (textOf ((data.drop run.1).take run.2)) run.1 run.2

def unitsOf (data : List UInt8) : List (UInt8 × UInt8) := pieces 2 data.length (unitAt data)

def utf16Row (base : Nat) (sect : SectionRecord) (data : List UInt8) (run : Nat × Nat) :
    StringRecord :=
  rowAt base sect "UTF-16LE" (textOf ((((unitsOf data).drop run.1).take run.2).map Prod.fst))
    (2 * run.1) (run.2 * 2)

/-- The rows of the runs that are long enough. -/
def rowsOf (row : Nat × Nat → StringRecord) (runs : List (Nat × Nat)) : List StringRecord :=
  (runs.filter fun run => 5 ≤ run.2).map row

def sectionRows (bytes : List UInt8) (base : Nat) (sect : SectionRecord) : List StringRecord :=
  let data := sectionData sect bytes
  rowsOf (asciiRow base sect data) (maximalRuns printable data) ++
    rowsOf (utf16Row base sect data) (maximalRuns isUnit (unitsOf data))

def allRows (bytes : List UInt8) (base : Nat) (sections : List SectionRecord) :
    List StringRecord :=
  sections.flatMap (sectionRows bytes base)

/-- A scan adds rows up to the cap, and overflows when the address of one of them does. -/
structure Adds (maxStrings : Nat) (rows items : List StringRecord)
    (result : Except Fault (List StringRecord)) : Prop where
  fits : (∀ row ∈ items.take (maxStrings - rows.length), row.va < 2 ^ 64) →
    result = .ok (rows ++ items.take (maxStrings - rows.length))
  overflows : (¬ ∀ row ∈ items.take (maxStrings - rows.length), row.va < 2 ^ 64) →
    ∃ fault, result = .error fault

section Adds
variable {maxStrings base begin size stop : Nat} {rows items more : List StringRecord}
  {result : Except Fault (List StringRecord)} {sect : SectionRecord} {data bytes : List UInt8}

theorem adds_nil : Adds maxStrings rows [] (.ok rows) :=
  ⟨fun _ => by rw [List.take_nil, List.append_nil], fun h => absurd (by simp) h⟩

/-- Where the cap is reached nothing is added. -/
theorem adds_full (h : maxStrings ≤ rows.length) : Adds maxStrings rows items (.ok rows) := by
  have hzero : maxStrings - rows.length = 0 := Nat.sub_eq_zero_of_le h
  refine ⟨fun _ => ?_, fun hno => absurd ?_ hno⟩
  · rw [hzero, List.take_zero, List.append_nil]
  · rw [hzero, List.take_zero]
    simp

theorem Adds.bind {next : List StringRecord → Except Fault (List StringRecord)}
    (h : Adds maxStrings rows items result)
    (hnext : ∀ rows, Adds maxStrings rows more (next rows)) :
    Adds maxStrings rows (items ++ more) (result >>= next) := by
  have htake : (items ++ more).take (maxStrings - rows.length) =
      items.take (maxStrings - rows.length) ++
        more.take (maxStrings - (rows ++ items.take (maxStrings - rows.length)).length) := by
    rw [List.take_append, List.length_append, List.length_take]
    congr 2
    omega
  by_cases hfirst : ∀ row ∈ items.take (maxStrings - rows.length), row.va < 2 ^ 64
  · rw [h.fits hfirst]
    have hrest := hnext (rows ++ items.take (maxStrings - rows.length))
    refine ⟨fun hall => ?_, fun hno => hrest.overflows fun hall => hno ?_⟩
    · rw [htake, ← List.append_assoc]
      exact hrest.fits fun row hrow => hall row (htake ▸ List.mem_append_right _ hrow)
    · rw [htake]
      exact List.forall_mem_append.mpr ⟨hfirst, hall⟩
  · obtain ⟨fault, hfault⟩ := h.overflows hfirst
    rw [hfault]
    refine ⟨fun hall => absurd (fun row hrow => ?_) hfirst, fun _ => ⟨fault, rfl⟩⟩
    exact hall row (htake ▸ List.mem_append_left _ hrow)

theorem pushRow_adds (encoding text : String) (begin size : Nat)
    (hroom : rows.length < maxStrings) : Adds maxStrings rows
      [rowAt base sect encoding text begin size]
      (pushRow base sect encoding text begin size rows) := by
  have hone : [rowAt base sect encoding text begin size].take (maxStrings - rows.length) =
      [rowAt base sect encoding text begin size] :=
    List.take_of_length_le (by rw [List.length_singleton]; omega)
  have hva : (rowAt base sect encoding text begin size).va = base + sect.rva + begin := rfl
  rw [pushRow]
  refine ⟨fun hall => ?_, fun hno => ?_⟩
  · rw [hone, List.forall_mem_singleton, hva] at hall
    rw [hone, Checked.add, if_pos (by omega)]
    change (Checked.add 64 (base + sect.rva) begin >>= _) = _
    rw [Checked.add, if_pos hall]
    change Except.ok (rows ++ [_]) = _
    rw [rowAt, show base + sect.rva + begin - base = sect.rva + begin by omega]
  · rw [hone, List.forall_mem_singleton, hva] at hno
    rw [Checked.add]
    split
    · change ∃ fault, (Checked.add 64 (base + sect.rva) begin >>= _) = _
      rw [Checked.add, if_neg hno]
      exact ⟨_, rfl⟩
    · exact ⟨_, rfl⟩

/-- A byte string of one length is added when it is long enough. -/
theorem pushAscii_adds (hstop : stop - begin = size) : Adds maxStrings rows
    (rowsOf (asciiRow base sect data) [(begin, size)])
    (pushAscii base sect data maxStrings begin stop rows) := by
  rw [pushAscii, hstop]
  by_cases hfull : maxStrings ≤ rows.length
  · rw [if_pos (.inl hfull)]
    exact adds_full hfull
  · by_cases hshort : size < 5
    · rw [if_pos (.inr hshort), rowsOf, List.filter_cons_of_neg (by simpa using hshort)]
      exact adds_nil
    · rw [if_neg (not_or.mpr ⟨hfull, hshort⟩), rowsOf,
        List.filter_cons_of_pos (by simpa using hshort)]
      exact pushRow_adds _ _ _ _ (Nat.not_le.mp hfull)

theorem rowsOf_append (row : Nat × Nat → StringRecord) (runs runs' : List (Nat × Nat)) :
    rowsOf row (runs ++ runs') = rowsOf row runs ++ rowsOf row runs' := by
  rw [rowsOf, List.filter_append, List.map_append]
  rfl

theorem scanAsciiFrom_open {byte : UInt8} (h : printable byte = true) (rest : List UInt8)
    (idx : Nat) (start : Option Nat) (rows : List StringRecord) :
    scanAsciiFrom base sect data maxStrings (byte :: rest) idx start rows =
      scanAsciiFrom base sect data maxStrings rest (idx + 1) (some (start.getD idx)) rows := by
  cases start <;> exact if_pos h

theorem scanAsciiFrom_close {byte : UInt8} (h : printable byte = false) (rest : List UInt8)
    (idx : Nat) (start : Option Nat) (rows : List StringRecord) :
    scanAsciiFrom base sect data maxStrings (byte :: rest) idx start rows =
      start.elim (scanAsciiFrom base sect data maxStrings rest (idx + 1) none rows) fun begin =>
        pushAscii base sect data maxStrings begin idx rows >>=
          scanAsciiFrom base sect data maxStrings rest (idx + 1) none := by
  cases start <;> exact if_neg (by rw [h]; exact Bool.false_ne_true)

/-- The runs that the loop over the bytes closes, from an index on. -/
def closedRuns (idx : Nat) (rest : List UInt8) : Option Nat → List (Nat × Nat)
  | none => runsFrom printable false idx rest
  | some begin => (begin, idx - begin + runLength printable rest) ::
      runsFrom printable true idx rest

theorem scanAsciiFrom_adds (rest : List UInt8) (idx : Nat) (start : Option Nat)
    (hend : idx + rest.length = data.length) (hstart : ∀ begin ∈ start, begin ≤ idx)
    (rows : List StringRecord) : Adds maxStrings rows
      (rowsOf (asciiRow base sect data) (closedRuns idx rest start))
      (scanAsciiFrom base sect data maxStrings rest idx start rows) := by
  induction rest generalizing idx start rows with
  | nil =>
    cases start with
    | none => exact adds_nil
    | some begin => exact pushAscii_adds (by rw [← hend]; rfl)
  | cons byte rest ih =>
    have hend' : idx + 1 + rest.length = data.length := by
      rw [← hend, List.length_cons]
      omega
    cases hbyte : printable byte with
    | true =>
      have hnext := ih (idx + 1) (some (start.getD idx)) hend' (by
        intro begin hbegin
        obtain rfl := Option.some.inj hbegin
        cases start with
        | none => exact Nat.le_succ _
        | some begin => exact Nat.le_succ_of_le (hstart begin rfl)) rows
      have hruns : closedRuns idx (byte :: rest) start =
          closedRuns (idx + 1) rest (some (start.getD idx)) := by
        cases start with
        | none =>
          simp [closedRuns, runsFrom, hbyte, runLength_cons_of_pos hbyte, Nat.add_comm]
        | some begin =>
          have hle := hstart begin rfl
          simp only [closedRuns, runsFrom, hbyte, runLength_cons_of_pos hbyte]
          simp
          omega
      rw [hruns, scanAsciiFrom_open hbyte]
      exact hnext
    | false =>
      rw [scanAsciiFrom_close hbyte]
      cases start with
      | none =>
        have hruns : closedRuns idx (byte :: rest) none = closedRuns (idx + 1) rest none := by
          simp [closedRuns, runsFrom, hbyte]
        rw [hruns]
        exact ih (idx + 1) none hend' (by simp) rows
      | some begin =>
        have hruns : closedRuns idx (byte :: rest) (some begin) =
            [(begin, idx - begin)] ++ closedRuns (idx + 1) rest none := by
          simp [closedRuns, runsFrom, hbyte, runLength_cons_of_neg hbyte]
        rw [hruns, rowsOf_append]
        exact (pushAscii_adds rfl).bind fun rows => ih (idx + 1) none hend' (by simp) rows

theorem scanAscii_adds (rows : List StringRecord) : Adds maxStrings rows
    (rowsOf (asciiRow base sect data) (maximalRuns printable data))
    (scanAscii base sect data maxStrings rows) := by
  rw [maximalRuns_eq]
  exact scanAsciiFrom_adds data 0 none (Nat.zero_add _) (by simp) rows

theorem unitsFrom_eq (k : Nat) : unitsFrom data (2 * k) = ((((unitsOf data).drop k).take
    (runLength isUnit ((unitsOf data).drop k))).map Prod.fst) := by
  rw [unitsFrom, leading_eq Nat.two_pos (by omega), unitsOf]
  congr 1
  exact List.prefix_iff_eq_take.mp (List.takeWhile_prefix _)

theorem length_unitsFrom (k : Nat) :
    (unitsFrom data (2 * k)).length = runLength isUnit ((unitsOf data).drop k) := by
  rw [unitsFrom_eq, List.length_map, List.length_take, Nat.min_eq_left (runLength_le _)]

/-- Where fewer than five units are left no run is long enough. -/
theorem rowsOf_short {row : Nat × Nat → StringRecord} {k : Nat} (xs : List (UInt8 × UInt8))
    (h : xs.length < 5) : rowsOf row (runsFrom isUnit false k xs) = [] := by
  rw [rowsOf, List.map_eq_nil_iff, List.filter_eq_nil_iff]
  intro run hrun
  have hle := length_le_of_mem_runsFrom hrun
  rw [decide_eq_true_iff]
  omega

theorem pushUtf16_adds (k : Nat) (hroom : rows.length < maxStrings) :
    Adds maxStrings rows
      (rowsOf (utf16Row base sect data)
        (if 0 < runLength isUnit ((unitsOf data).drop k) then
          [(k, runLength isUnit ((unitsOf data).drop k))] else []))
      (pushUtf16 base sect (unitsFrom data (2 * k)) (2 * k) rows) := by
  rw [pushUtf16, length_unitsFrom, unitsFrom_eq]
  by_cases hlong : 5 ≤ runLength isUnit ((unitsOf data).drop k)
  · rw [if_pos hlong, if_pos (by omega), rowsOf, List.filter_cons_of_pos (by simpa using hlong)]
    exact pushRow_adds _ _ _ _ hroom
  · have hnone : rowsOf (utf16Row base sect data)
        (if 0 < runLength isUnit ((unitsOf data).drop k) then
          [(k, runLength isUnit ((unitsOf data).drop k))] else []) = [] := by
      split
      · rw [rowsOf, List.filter_cons_of_neg (by simpa using hlong)]
        rfl
      · rfl
    rw [hnone, if_neg hlong]
    exact adds_nil

theorem scanUtf16From_adds (count k : Nat) (hcount : data.length / 2 ≤ k + count)
    (rows : List StringRecord) : Adds maxStrings rows
      (rowsOf (utf16Row base sect data) (runsFrom isUnit false k ((unitsOf data).drop k)))
      (scanUtf16From base sect data maxStrings count (2 * k) rows) := by
  have hlength : (unitsOf data).length = data.length / 2 := length_pieces
  induction count generalizing k rows with
  | zero =>
    rw [rowsOf_short _ (by rw [List.length_drop]; omega)]
    exact adds_nil
  | succ count ih =>
    rw [scanUtf16From]
    by_cases hend : data.length < 2 * k + 10 ∨ maxStrings ≤ rows.length
    · rw [if_pos hend]
      rcases hend with hend | hfull
      · rw [rowsOf_short _ (by rw [List.length_drop]; omega)]
        exact adds_nil
      · exact adds_full hfull
    · rw [if_neg hend, runsFrom_split, rowsOf_append, runsFrom_drop_one runLength_drop,
        List.drop_drop, List.drop_drop]
      rw [not_or, Nat.not_le] at hend
      refine (pushUtf16_adds k hend.2).bind fun rows => ?_
      rw [length_unitsFrom]
      have hnext := ih (k + runLength isUnit ((unitsOf data).drop k) + 1) (by omega) rows
      rwa [show 2 * (k + runLength isUnit ((unitsOf data).drop k) + 1) =
        2 * k + 2 * runLength isUnit ((unitsOf data).drop k) + 2 by omega] at hnext

theorem scanUtf16_adds (rows : List StringRecord) : Adds maxStrings rows
    (rowsOf (utf16Row base sect data) (maximalRuns isUnit (unitsOf data)))
    (scanUtf16 base sect data maxStrings rows) := by
  rw [maximalRuns_eq]
  exact scanUtf16From_adds data.length 0 (by omega) rows

theorem scanSections_adds {sections : List SectionRecord}
    (hranges : ∀ sect ∈ sections,
      sect.dataRange.1 ≤ sect.dataRange.2 ∧ sect.dataRange.2 ≤ bytes.length)
    (rows : List StringRecord) : Adds maxStrings rows (allRows bytes base sections)
      (scanSections bytes base maxStrings sections rows) := by
  induction sections generalizing rows with
  | nil => exact adds_nil
  | cons sect rest ih =>
    have hdata : sect.data bytes = .ok (sectionData sect bytes) :=
      Checked.slice_eq_ok (hranges sect List.mem_cons_self)
    have hrest := fun rows => ih (fun s hs => hranges s (List.mem_cons_of_mem _ hs)) rows
    rw [scanSections, hdata, allRows, List.flatMap_cons, sectionRows, List.append_assoc]
    refine (scanAscii_adds rows).bind fun rows => ?_
    by_cases hfull : maxStrings ≤ rows.length
    · rw [if_pos hfull]
      exact adds_full hfull
    · rw [if_neg hfull]
      refine (scanUtf16_adds rows).bind fun rows => ?_
      by_cases hfull : maxStrings ≤ rows.length
      · rw [if_pos hfull]
        exact adds_full hfull
      · rw [if_neg hfull]
        exact hrest rows

end Adds

/-- The first strings are extracted just when none of their addresses overflows. -/
theorem extractStringsFrom_first_iff (bytes : List UInt8) (base maxStrings : Nat)
    {sections : List SectionRecord}
    (hranges : ∀ sect ∈ sections,
      sect.dataRange.1 ≤ sect.dataRange.2 ∧ sect.dataRange.2 ≤ bytes.length) :
    extractStringsFrom bytes base sections maxStrings =
        .ok ((allRows bytes base sections).take maxStrings) ↔
      ∀ row ∈ (allRows bytes base sections).take maxStrings, row.va < 2 ^ 64 := by
  have h : Adds maxStrings [] (allRows bytes base sections)
      (extractStringsFrom bytes base sections maxStrings) := scanSections_adds hranges []
  constructor
  · intro hok
    by_contra hno
    obtain ⟨fault, hfault⟩ := h.overflows hno
    rw [hok] at hfault
    cases hfault
  · exact h.fits

def greeting : List UInt8 := [0, 0, 0x68, 0x65, 0x6c, 0x6c, 0x6f]

def greetingSection (rva va : Nat) : SectionRecord :=
  ⟨".rodata", rva, va, 7, 0, 7, 7, false, (0, 7)⟩

theorem extractStringsFrom_first_iff_greeting :
    extractStringsFrom greeting 0x400000 [greetingSection 0x1000 0x401000] 10 =
        .ok ((allRows greeting 0x400000 [greetingSection 0x1000 0x401000]).take 10) ∧
      ((allRows greeting 0x400000 [greetingSection 0x1000 0x401000]).take 10).map
        (fun row => (row.va, row.text)) = [(0x401002, "hello")] :=
  ⟨(extractStringsFrom_first_iff greeting 0x400000 10 (by decide)).mpr (by decide), by decide⟩

/-- The text lies past the end of the address space. -/
theorem topSection_overflows :
    extractStringsFrom greeting (2 ^ 64 - 2) [greetingSection 0 (2 ^ 64 - 2)] 10 ≠
      .ok ((allRows greeting (2 ^ 64 - 2) [greetingSection 0 (2 ^ 64 - 2)]).take 10) := by
  have hrun : extractStringsFrom greeting (2 ^ 64 - 2) [greetingSection 0 (2 ^ 64 - 2)] 10 =
      .error (.overflow 64) := by rfl
  rw [hrun]
  intro h
  cases h

end Axe.Strings
