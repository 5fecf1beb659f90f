import Axe.Lib.MaximalRuns
import Axe.Pe.RttiReads
import Axe.Static.FileSections

/-!
# The scan for tables of methods

The scan goes over the words of the sections without code. Three pointers to code or more, one
behind the other, are a table. The lookup of an address and the sums of addresses may overflow.
-/
namespace Axe.Cpp

open Axe.MaximalRuns
open Axe.Pe (PEImage RttiRecord StringRecord VTableRecord mappedSize nearestRtti parseMsvcCol
  recoverRtti sectionData sub u64At valueBefore)
open Axe.Static (Elf.parseElf SectionHeader SectionRecord imageBase)
open Checked (Fault add)

/-- What the scan asks of an image. -/
structure BinaryImage where
  bytes : List UInt8
  base : Nat
  sections : List SectionRecord
  sectionForVa : Nat → Except Fault (Option SectionRecord)

/-- The lookup of ELF and Mach-O images: the end of a section that starts at the address or below
is a sum. -/
def sectionForVa (va : Nat) : List SectionRecord → Except Fault (Option SectionRecord)
  | [] => return none
  | sect :: rest =>
    if sect.va ≤ va then do
      let stop ← add 64 sect.va (mappedSize sect)
      if va < stop then return some sect else sectionForVa va rest
    else sectionForVa va rest

def ofParsed (bytes : List UInt8) (base : Nat) (sections : List SectionRecord) : BinaryImage :=
  ⟨bytes, base, sections, fun va => sectionForVa va sections⟩

def ofPe (image : PEImage) : BinaryImage :=
  ⟨image.bytes, image.base, image.sections, fun va => .ok (image.sectionForVa va)⟩

namespace BinaryImage

variable (image : BinaryImage)

def executableAt (va : Nat) : Except Fault Bool := do
  let found ← image.sectionForVa va
  return (found.map SectionRecord.executable).getD false

/-- The pointers to code from a cursor on, at most `count`. -/
def methodsFrom (data : List UInt8) : (count cursor : Nat) → Except Fault (List Nat)
  | 0, _ => return []
  | count + 1, cursor =>
    if data.length < cursor + 8 then return []
    else do
      let executable ← image.executableAt (u64At data cursor)
      if executable then
        let rest ← methodsFrom data count (cursor + 8)
        return u64At data cursor :: rest
      else return []

def tableRow (rtti : List RttiRecord) (sect : SectionRecord) (data : List UInt8)
    (offset va : Nat) (methods : List Nat) : Except Fault VTableRecord := do
  let col ← (valueBefore data offset).elim (pure none) (parseMsvcCol image.bytes image.base)
  let rva ← sub va image.base
  return {
    va, rva
    sectionName := sect.name
    methodCount := methods.length
    methods := methods.take 64
    probableClass := (col.bind (·.className)).or (nearestRtti va rtti)
    colVa := col.map (·.colVa)
    classDescriptorVa := col.map (·.classDescriptorVa)
    baseClasses := (col.map (·.baseClasses)).getD []
    constructorCandidates := []
    ownershipConfidence := if col.isSome then "high" else "low" }

/-- The loop over the offsets of a section, at most `count` turns. -/
def scanFrom (rtti : List RttiRecord) (sect : SectionRecord) (data : List UInt8) :
    (count offset : Nat) → Except Fault (List VTableRecord)
  | 0, _ => return []
  | count + 1, offset =>
    if data.length < offset + 24 then return []
    else do
      let va ← add 64 sect.va offset
      let methods ← image.methodsFrom data data.length offset
      if 3 ≤ methods.length then
        let row ← image.tableRow rtti sect data offset va methods
        let rest ← scanFrom rtti sect data count (offset + 8 * methods.length)
        return row :: rest
      else scanFrom rtti sect data count (offset + 8)

def scanSection (rtti : List RttiRecord) (sect : SectionRecord) :
    Except Fault (List VTableRecord) :=
  if sect.executable ∨ sect.dataSize < 24 then return []
  else do
    let data ← sect.data image.bytes
    image.scanFrom rtti sect data data.length 0

def recoverCpp (strings : List StringRecord) :
    Except Fault (List VTableRecord × List RttiRecord) := do
  let tables ← image.sections.mapM (image.scanSection (recoverRtti strings))
  return (tables.flatten, recoverRtti strings)

/-- The lookup of an address ends, and finds code. -/
def pointsToCode (va : Nat) : Bool := (image.executableAt va).toOption.getD false

/-- The words of the data of a section. -/
def words (sect : SectionRecord) : List Nat :=
  let data := sectionData sect image.bytes
  pieces 8 data.length (u64At data)

def Scanned (sect : SectionRecord) : Prop := ¬ (sect.executable ∨ sect.dataSize < 24)

instance (sect : SectionRecord) : Decidable (Scanned sect) :=
  inferInstanceAs (Decidable (¬ (sect.executable ∨ sect.dataSize < 24)))

/-- What the table of a run is, as far as the run tells. -/
structure TableOf where
  va : Nat
  sectionName : String
  methodCount : Nat
  methods : List Nat
  deriving DecidableEq

def tableOf (sect : SectionRecord) (run : Nat × Nat) : TableOf :=
  ⟨sect.va + 8 * run.1, sect.name, run.2,
    (((image.words sect).drop run.1).take run.2).take 64⟩

/-- The tables of the maximal runs of at least three pointers to code in a section. -/
def sectionTables (sect : SectionRecord) : List TableOf :=
  if Scanned sect then
    ((maximalRuns image.pointsToCode (image.words sect)).filter fun run => 3 ≤ run.2).map
      (image.tableOf sect)
  else []

def tables : List TableOf := image.sections.flatMap image.sectionTables

def rowTable (row : VTableRecord) : TableOf :=
  ⟨row.va, row.sectionName, row.methodCount, row.methods⟩

/-- The scan comes to a word that two more follow, unless it is inside the run of a table. -/
def ComesTo (sect : SectionRecord) (j : Nat) : Prop :=
  j + 3 ≤ (image.words sect).length ∧
    ∀ run ∈ maximalRuns image.pointsToCode (image.words sect), 3 ≤ run.2 →
      ¬ (run.1 < j ∧ j < run.1 + run.2)

/-- The lookups of the run from a word on and of the word behind the run end. -/
def LooksUp (xs : List Nat) (k : Nat) : Prop :=
  ∀ i w, k ≤ i → i ≤ k + runLength image.pointsToCode (xs.drop k) → xs[i]? = some w →
    ∃ found, image.sectionForVa w = .ok found

/-- At a word that the scan comes to: its address fits, the lookups end, and if the run from there
is a table it does not start below the base and the sums for the locator before it fit. -/
structure FitsAt (sect : SectionRecord) (j : Nat) : Prop where
  address : sect.va + 8 * j < 2 ^ 64
  lookups : image.LooksUp (image.words sect) j
  table : 3 ≤ runLength image.pointsToCode ((image.words sect).drop j) →
    image.base ≤ sect.va + 8 * j ∧
      ∀ c, valueBefore (sectionData sect image.bytes) (8 * j) = some c →
        Pe.LocatorFits image.bytes image.base c

def ScanFits : Prop :=
  ∀ sect ∈ image.sections, Scanned sect → ∀ j, image.ComesTo sect j → image.FitsAt sect j

section Scan
variable {image : BinaryImage} {data : List UInt8} {sect : SectionRecord} {rtti : List RttiRecord}
  {k count va offset w : Nat} {methods : List Nat}

theorem executableAt_ok {found : Option SectionRecord} (h : image.sectionForVa w = .ok found) :
    image.executableAt w = .ok (image.pointsToCode w) := by
  rw [pointsToCode, executableAt, h]
  rfl

theorem methodsFrom_of_data (hcode : image.pointsToCode (u64At data offset) = false)
    {found : Option SectionRecord} (hfound : image.sectionForVa (u64At data offset) = .ok found)
    (hend : ¬ data.length < offset + 8) :
    image.methodsFrom data (count + 1) offset = .ok [] := by
  rw [methodsFrom, if_neg hend, executableAt_ok hfound, hcode]
  rfl

theorem methodsFrom_of_code (hcode : image.pointsToCode (u64At data offset) = true)
    {found : Option SectionRecord} (hfound : image.sectionForVa (u64At data offset) = .ok found)
    (hend : ¬ data.length < offset + 8) :
    image.methodsFrom data (count + 1) offset =
      (image.methodsFrom data count (offset + 8)).map (u64At data offset :: ·) := by
  rw [methodsFrom, if_neg hend, executableAt_ok hfound, hcode]
  change (image.methodsFrom data count (offset + 8) >>= fun rest =>
    pure (u64At data offset :: rest)) = _
  cases image.methodsFrom data count (offset + 8) <;> rfl

theorem looksUp_of_data {xs rest : List Nat} (hdrop : xs.drop k = w :: rest)
    (hcode : image.pointsToCode w = false) :
    image.LooksUp xs k ↔ ∃ found, image.sectionForVa w = .ok found := by
  have hat : xs[k]? = some w := by rw [← List.head?_drop, hdrop, List.head?_cons]
  rw [LooksUp, hdrop, runLength_cons_of_neg hcode]
  constructor
  · exact fun h => h k w (Nat.le_refl _) (Nat.le_refl _) hat
  · intro h i w' hi hk hw'
    obtain rfl := Nat.le_antisymm hi hk
    obtain rfl := Option.some.inj (hat.symm.trans hw')
    exact h

theorem looksUp_of_code {xs rest : List Nat} (hdrop : xs.drop k = w :: rest)
    (hcode : image.pointsToCode w = true) : image.LooksUp xs k ↔
      (∃ found, image.sectionForVa w = .ok found) ∧ image.LooksUp xs (k + 1) := by
  have hat : xs[k]? = some w := by rw [← List.head?_drop, hdrop, List.head?_cons]
  have hrest : xs.drop (k + 1) = rest := by rw [← List.drop_drop, hdrop, List.drop_one, List.tail_cons]
  rw [LooksUp, LooksUp, hdrop, hrest, runLength_cons_of_pos hcode]
  constructor
  · exact fun h => ⟨h k w (Nat.le_refl _) (by omega) hat,
      fun i w' hi hk hw' => h i w' (by omega) (by omega) hw'⟩
  · rintro ⟨hfirst, h⟩ i w' hi hk hw'
    rcases Nat.eq_or_lt_of_le hi with rfl | hlt
    · obtain rfl := Option.some.inj (hat.symm.trans hw')
      exact hfirst
    · exact h i w' hlt (by omega) hw'

/-- The loop over the methods reads the run of pointers to code when its lookups end. -/
theorem methodsFrom_spec (hcount : data.length / 8 ≤ k + count) :
    ((∃ methods, image.methodsFrom data count (8 * k) = .ok methods) ↔
      image.LooksUp (pieces 8 data.length (u64At data)) k) ∧
    ∀ methods, image.methodsFrom data count (8 * k) = .ok methods →
      methods = ((pieces 8 data.length (u64At data)).drop k).takeWhile image.pointsToCode := by
  have hlength : (pieces 8 data.length (u64At data)).length = data.length / 8 := length_pieces
  have hbehind : ∀ k, data.length / 8 ≤ k →
      image.LooksUp (pieces 8 data.length (u64At data)) k := fun k hk i w hi _ hw => by
    have hlt := (List.getElem?_eq_some_iff.mp hw).1
    omega
  induction count generalizing k with
  | zero =>
    refine ⟨iff_of_true ⟨[], rfl⟩ (hbehind k (by omega)), fun methods h => ?_⟩
    rw [drop_pieces_of_le (by omega)]
    cases h
    rfl
  | succ count ih =>
    by_cases hend : data.length < 8 * k + 8
    · rw [methodsFrom, if_pos hend, drop_pieces_of_le (by omega)]
      refine ⟨iff_of_true ⟨[], rfl⟩ (hbehind k (by omega)), fun methods h => ?_⟩
      cases h
      rfl
    · have hdrop := @drop_pieces_of_lt _ 8 data.length k (u64At data) (by omega)
      rw [hdrop]
      cases hfound : image.sectionForVa (u64At data (8 * k)) with
      | error fault =>
        have hrun : image.methodsFrom data (count + 1) (8 * k) = .error fault := by
          rw [methodsFrom, if_neg hend, executableAt, hfound]
          rfl
        have hcode : image.pointsToCode (u64At data (8 * k)) = false := by
          rw [pointsToCode, executableAt, hfound]
          rfl
        rw [hrun, looksUp_of_data hdrop hcode, hfound]
        exact ⟨by simp, fun methods h => by cases h⟩
      | ok found =>
        cases hcode : image.pointsToCode (u64At data (8 * k)) with
        | false =>
          rw [methodsFrom_of_data hcode hfound hend, looksUp_of_data hdrop hcode, hfound]
          refine ⟨by simp, fun methods h => ?_⟩
          cases h
          rw [List.takeWhile_cons_of_neg (by rw [hcode]; exact Bool.false_ne_true)]
        | true =>
          obtain ⟨hok, hmethods⟩ := ih (k := k + 1) (by omega)
          rw [Nat.mul_succ] at hok hmethods
          rw [methodsFrom_of_code hcode hfound hend, looksUp_of_code hdrop hcode, ← hok, hfound,
            List.takeWhile_cons_of_pos hcode]
          cases hrest : image.methodsFrom data count (8 * k + 8) with
          | error fault => exact ⟨by simp [Except.map], fun methods h => by cases h⟩
          | ok rest =>
            refine ⟨by simp [Except.map], fun methods h => ?_⟩
            cases h
            rw [hmethods rest hrest]

theorem tableRow_isOk : (∃ row, image.tableRow rtti sect data offset va methods = .ok row) ↔
    image.base ≤ va ∧
      ∀ c, valueBefore data offset = some c → Pe.LocatorFits image.bytes image.base c := by
  have hcol : (∃ col, (valueBefore data offset).elim (pure none)
      (parseMsvcCol image.bytes image.base) = .ok col) ↔
      ∀ c, valueBefore data offset = some c → Pe.LocatorFits image.bytes image.base c := by
    cases valueBefore data offset with
    | none => exact iff_of_true ⟨none, rfl⟩ (by simp)
    | some c => simp only [Option.elim_some, Option.some.injEq, forall_eq', Pe.parseMsvcCol_isOk]
  rw [← hcol]
  unfold tableRow
  constructor
  · rintro ⟨row, h⟩
    obtain ⟨col, hcol, h⟩ := Checked.bind_eq_ok.mp h
    obtain ⟨rva, hrva, -⟩ := Checked.bind_eq_ok.mp h
    exact ⟨(Pe.sub_eq_ok.mp hrva).1, col, hcol⟩
  · rintro ⟨hbase, col, hcol⟩
    exact ⟨_, Checked.bind_eq_ok.mpr ⟨col, hcol,
      Checked.bind_eq_ok.mpr ⟨_, Pe.sub_eq_ok.mpr ⟨hbase, rfl⟩, rfl⟩⟩⟩

theorem rowTable_tableRow {row : VTableRecord}
    (h : image.tableRow rtti sect data offset va methods = .ok row) :
    rowTable row = ⟨va, sect.name, methods.length, methods.take 64⟩ := by
  unfold tableRow at h
  obtain ⟨col, -, h⟩ := Checked.bind_eq_ok.mp h
  obtain ⟨rva, -, h⟩ := Checked.bind_eq_ok.mp h
  obtain rfl := Except.ok.inj h
  rfl

/-- One turn of the loop. -/
theorem scanFrom_eq_ok {rows : List VTableRecord} (hend : ¬ data.length < offset + 24) :
    image.scanFrom rtti sect data (count + 1) offset = .ok rows ↔
      sect.va + offset < 2 ^ 64 ∧
      ∃ methods, image.methodsFrom data data.length offset = .ok methods ∧
        if 3 ≤ methods.length then ∃ row rest,
          image.tableRow rtti sect data offset (sect.va + offset) methods = .ok row ∧
          image.scanFrom rtti sect data count (offset + 8 * methods.length) = .ok rest ∧
          rows = row :: rest
        else image.scanFrom rtti sect data count (offset + 8) = .ok rows := by
  rw [scanFrom, if_neg hend, Pe.add_bind_eq_ok, Checked.bind_eq_ok]
  refine and_congr_right fun _ => exists_congr fun methods => and_congr_right fun _ => ?_
  split
  · simp only [Checked.bind_eq_ok, Pe.pure_eq_ok, exists_and_left]
  · exact Iff.rfl

/-- The methods of a turn are the run of pointers to code from its word on. -/
theorem methodsFrom_words (hdata : data = sectionData sect image.bytes) (k : Nat) :
    ((∃ methods, image.methodsFrom data data.length (8 * k) = .ok methods) ↔
      image.LooksUp (image.words sect) k) ∧
    ∀ methods, image.methodsFrom data data.length (8 * k) = .ok methods →
      methods.length = runLength image.pointsToCode ((image.words sect).drop k) ∧
        methods = ((image.words sect).drop k).take
          (runLength image.pointsToCode ((image.words sect).drop k)) := by
  have hwords : image.words sect = pieces 8 data.length (u64At data) := by rw [words, hdata]
  obtain ⟨hlooks, hmethods⟩ := @methodsFrom_spec image data k data.length (by omega)
  rw [← hwords] at hlooks hmethods
  refine ⟨hlooks, fun methods h => ?_⟩
  rw [hmethods methods h]
  exact ⟨rfl, List.prefix_iff_eq_take.mp (List.takeWhile_prefix _)⟩

/-- The loop comes to the words of a search for long runs, fits at each of them just when it ends
well, and then has a row for each of the runs. -/
theorem scanFrom_spec (hdata : data = sectionData sect image.bytes)
    (hcount : data.length / 8 ≤ k + count) :
    ((∃ rows, image.scanFrom rtti sect data count (8 * k) = .ok rows) ↔
      ∀ j ∈ visits image.pointsToCode 3 count k ((image.words sect).drop k), image.FitsAt sect j) ∧
    ∀ rows, image.scanFrom rtti sect data count (8 * k) = .ok rows →
      rows.map rowTable =
        (longRuns image.pointsToCode 3 k ((image.words sect).drop k)).map (image.tableOf sect) := by
  have hlength : ∀ k, ((image.words sect).drop k).length = data.length / 8 - k := fun k => by
    rw [words, ← hdata, List.length_drop, length_pieces]
  induction count generalizing k with
  | zero =>
    have hfew := hlength k
    rw [longRuns_few (by omega)]
    refine ⟨iff_of_true ⟨[], rfl⟩ (fun j hj => absurd hj List.not_mem_nil), fun rows h => ?_⟩
    cases h
    rfl
  | succ count ih =>
    have hfew : data.length < 8 * k + 24 ↔ ((image.words sect).drop k).length < 3 := by
      rw [hlength]
      omega
    rw [visits]
    by_cases hend : data.length < 8 * k + 24
    · rw [if_pos (hfew.mp hend), longRuns_few (hfew.mp hend), scanFrom, if_pos hend]
      refine ⟨iff_of_true ⟨[], rfl⟩ (fun j hj => absurd hj List.not_mem_nil), fun rows h => ?_⟩
      cases h
      rfl
    · rw [if_neg (mt hfew.mpr hend)]
      simp only [scanFrom_eq_ok hend, List.forall_mem_cons]
      obtain ⟨hlooks, hmethods⟩ := @methodsFrom_words image data sect hdata k
      by_cases hlong : 3 ≤ runLength image.pointsToCode ((image.words sect).drop k)
      · obtain ⟨hok, hrows⟩ := @ih
          (k + runLength image.pointsToCode ((image.words sect).drop k)) (by omega)
        rw [← List.drop_drop, Nat.mul_add] at hok hrows
        rw [if_pos hlong, ← hok, longRuns_of_long (by decide) hlong]
        refine ⟨⟨?_, ?_⟩, ?_⟩
        · rintro ⟨rows, haddress, methods, hm, h⟩
          rw [(hmethods methods hm).1, if_pos hlong] at h
          obtain ⟨row, rest, hrow, hrest, -⟩ := h
          have htable := tableRow_isOk.mp ⟨row, hrow⟩
          rw [hdata] at htable
          exact ⟨⟨haddress, hlooks.mp ⟨methods, hm⟩, fun _ => htable⟩, rest, hrest⟩
        · rintro ⟨⟨haddress, hl, htable⟩, rest, hrest⟩
          obtain ⟨methods, hm⟩ := hlooks.mpr hl
          rw [← hdata] at htable
          obtain ⟨row, hrow⟩ := tableRow_isOk.mpr (htable hlong)
          refine ⟨row :: rest, haddress, methods, hm, ?_⟩
          rw [(hmethods methods hm).1, if_pos hlong]
          exact ⟨row, rest, hrow, hrest, rfl⟩
        · rintro rows ⟨-, methods, hm, h⟩
          rw [(hmethods methods hm).1, if_pos hlong] at h
          obtain ⟨row, rest, hrow, hrest, rfl⟩ := h
          rw [List.map_cons, List.map_cons, hrows rest hrest, rowTable_tableRow hrow, tableOf,
            (hmethods methods hm).1, (hmethods methods hm).2]
      · obtain ⟨hok, hrows⟩ := @ih (k + 1) (by omega)
        rw [← List.drop_drop, Nat.mul_succ] at hok hrows
        rw [if_neg hlong, ← hok, longRuns_of_short (Nat.not_le.mp hlong)]
        refine ⟨⟨?_, ?_⟩, ?_⟩
        · rintro ⟨rows, haddress, methods, hm, h⟩
          rw [(hmethods methods hm).1, if_neg hlong] at h
          exact ⟨⟨haddress, hlooks.mp ⟨methods, hm⟩, fun hl => absurd hl hlong⟩, rows, h⟩
        · rintro ⟨⟨haddress, hl, -⟩, rows, hrest⟩
          obtain ⟨methods, hm⟩ := hlooks.mpr hl
          refine ⟨rows, haddress, methods, hm, ?_⟩
          rwa [(hmethods methods hm).1, if_neg hlong]
        · rintro rows ⟨-, methods, hm, h⟩
          rw [(hmethods methods hm).1, if_neg hlong] at h
          exact hrows rows h

theorem longRuns_words :
    longRuns image.pointsToCode 3 0 (image.words sect) =
      (maximalRuns image.pointsToCode (image.words sect)).filter fun run => 3 ≤ run.2 := by
  rw [longRuns, maximalRuns_eq]

theorem comesTo_iff {j : Nat} (hcount : (image.words sect).length ≤ count) :
    j ∈ visits image.pointsToCode 3 count 0 (image.words sect) ↔ image.ComesTo sect j := by
  rw [mem_visits (by decide) hcount, longRuns_words, and_iff_right (Nat.zero_le j), Nat.zero_add,
    ComesTo]
  simp only [List.mem_filter, decide_eq_true_eq, and_imp]

theorem scanSection_spec
    (hrange : sect.dataRange.1 ≤ sect.dataRange.2 ∧ sect.dataRange.2 ≤ image.bytes.length) :
    ((∃ rows, image.scanSection rtti sect = .ok rows) ↔
      (Scanned sect → ∀ j, image.ComesTo sect j → image.FitsAt sect j)) ∧
    ∀ rows, image.scanSection rtti sect = .ok rows →
      rows.map rowTable = image.sectionTables sect := by
  unfold scanSection sectionTables
  by_cases hscan : Scanned sect
  case neg =>
    rw [if_pos (not_not.mp hscan), if_neg hscan]
    refine ⟨iff_of_true ⟨[], rfl⟩ fun h => absurd h hscan, fun rows h => ?_⟩
    cases h
    rfl
  case pos =>
    rw [if_neg hscan, if_pos hscan, forall_prop_of_true hscan]
    have hdata : sect.data image.bytes = .ok (sectionData sect image.bytes) := by
      rw [SectionRecord.data, Checked.slice_eq_ok hrange]
      rfl
    rw [hdata]
    have hlength : (image.words sect).length ≤ (sectionData sect image.bytes).length := by
      rw [words, length_pieces]
      exact Nat.div_le_self _ _
    obtain ⟨hok, hrows⟩ := @scanFrom_spec image _ sect rtti 0
      (sectionData sect image.bytes).length rfl (by omega)
    rw [List.drop_zero, Nat.mul_zero] at hok hrows
    rw [longRuns_words] at hrows
    refine ⟨hok.trans (forall_congr' fun j => ?_), hrows⟩
    rw [comesTo_iff hlength]

end Scan

section Pe
variable {image : PEImage} {data : List UInt8} {sect : SectionRecord} {rtti : List RttiRecord}
  {count offset : Nat}

theorem methodsFrom_ofPe : (ofPe image).methodsFrom data count offset =
    .ok (image.methodsFrom data count offset) := by
  induction count generalizing offset with
  | zero => rfl
  | succ count ih =>
    rw [methodsFrom, PEImage.methodsFrom]
    split
    · rfl
    · have hcode : (ofPe image).executableAt (u64At data offset) =
          .ok (image.executableAt (u64At data offset)) := rfl
      rw [ih, hcode]
      change (if image.executableAt (u64At data offset) then _ else _) =
        Except.ok (if image.executableAt (u64At data offset) then _ else _)
      split <;> rfl

theorem tableRow_ofPe {va : Nat} :
    (ofPe image).tableRow rtti sect data offset va (image.methodsAt data offset) =
      image.tableRow rtti sect data offset va := by
  rw [tableRow, PEImage.tableRow]
  cases valueBefore data offset <;> rfl

theorem scanFrom_ofPe : (ofPe image).scanFrom rtti sect data count offset =
    ((image.offsetsFrom data count offset).mapM (image.tableAt rtti sect data)).map
      (·.filterMap id) := by
  induction count generalizing offset with
  | zero => rfl
  | succ count ih =>
    rw [scanFrom, PEImage.offsetsFrom]
    split
    · rfl
    · have hmethods : (ofPe image).methodsFrom data data.length offset =
          .ok (image.methodsAt data offset) := methodsFrom_ofPe
      rw [hmethods, List.mapM_cons, PEImage.tableAt, PEImage.nextOffset]
      cases add 64 sect.va offset with
      | error fault => rfl
      | ok va =>
        change (if 3 ≤ (image.methodsAt data offset).length then _ else _) =
          Except.map _ ((if 3 ≤ (image.methodsAt data offset).length then _ else _) >>= _)
        by_cases hlong : 3 ≤ (image.methodsAt data offset).length
        · rw [if_pos hlong, if_pos hlong, if_pos hlong, tableRow_ofPe, ih]
          cases image.tableRow rtti sect data offset va with
          | error fault => rfl
          | ok row =>
            cases (image.offsetsFrom data count
              (offset + 8 * (image.methodsAt data offset).length)).mapM
                (image.tableAt rtti sect data) <;> rfl
        · rw [if_neg hlong, if_neg hlong, if_neg hlong, ih]
          cases (image.offsetsFrom data count (offset + 8)).mapM
            (image.tableAt rtti sect data) <;> rfl

/-- The scan of a PE image as its own model has it. -/
theorem recoverCpp_ofPe (strings : List StringRecord) (hranges : ∀ sect ∈ image.sections,
    sect.dataRange.1 ≤ sect.dataRange.2 ∧ sect.dataRange.2 ≤ image.bytes.length) :
    (ofPe image).recoverCpp strings = image.recoverCpp strings := by
  have hsection : ∀ sect ∈ image.sections, (ofPe image).scanSection (recoverRtti strings) sect =
      image.sectionTables (recoverRtti strings) sect := fun sect hsect => by
    rw [scanSection, PEImage.sectionTables]
    split
    · rfl
    · rw [SectionRecord.data, ofPe, Checked.slice_eq_ok (hranges sect hsect)]
      change (ofPe image).scanFrom _ _ _ _ _ = _
      rw [scanFrom_ofPe]
      rfl
  have hsections : (ofPe image).sections.mapM ((ofPe image).scanSection (recoverRtti strings)) =
      image.sections.mapM (image.sectionTables (recoverRtti strings)) :=
    Checked.mapM_congr hsection
  rw [recoverCpp, PEImage.recoverCpp, hsections]

end Pe

/-- A file with three pointers and the code they point to; the pointers stand in a section at an
address. -/
def pointerFile : List UInt8 :=
  (List.replicate 3 [0, 0x10, 0, 0, 0, 0, 0, 0]).flatten ++ [0xC3]

def pointerImage (name : String) (address : BitVec 64) : BinaryImage :=
  let headers : List SectionHeader := [⟨some name, address, 24, some (0, 24), false⟩,
    ⟨some ".text", 0x1000, 1, some (24, 1), true⟩]
  ofParsed pointerFile (imageBase headers) (Elf.parseElf headers pointerFile)

def dataImage : BinaryImage := pointerImage ".data" 0x2000

/-- A section for a debugger, with no address of its own. -/
def debugImage : BinaryImage := pointerImage ".debug_addr" 0

end BinaryImage

end Axe.Cpp
