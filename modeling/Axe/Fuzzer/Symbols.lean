import Mathlib.Data.String.Basic
import Axe.Lib.RangeIndex

/-!
# Resolving an address to a symbol and a source line

The resolver indexes the symbol and line records of the debug information by their starts. An
address gets what the records of the nearest starts say when they cover it. It gets what a
covering record says for every address and every order of the records exactly when the record
that the index keeps for the nearest start covers the address, no empty record shares its start,
and the file that a line record names is listed.
-/
namespace Axe.Fuzzer.Symbols

structure DebugSymbolRecord where
  name : String
  linkageName : Option String
  startRva : Nat
  endRva : Nat
  deriving DecidableEq

structure LineEntryRecord where
  startRva : Nat
  endRva : Nat
  fileId : String
  line : Nat
  column : Option Nat
  deriving DecidableEq

structure SourceFileRecord where
  fileId : String
  path : String
  deriving DecidableEq

structure DebugSymbolOutput where
  symbols : List DebugSymbolRecord
  sourceFiles : List SourceFileRecord
  lineEntries : List LineEntryRecord
  deriving DecidableEq

structure ResolvedSymbol where
  functionName : Option String
  linkageName : Option String
  demangled : Option String
  sourceFile : Option String
  line : Option Nat
  column : Option Nat
  deriving DecidableEq

structure SymbolResolver where
  symbols : RangeIndex Nat DebugSymbolRecord
  lines : RangeIndex Nat LineEntryRecord
  filesById : OrderedMap String String
  imageBase : Nat

namespace SymbolResolver

def new (output : DebugSymbolOutput) (imageBase : Nat) : SymbolResolver where
  symbols := .ofRows DebugSymbolRecord.startRva output.symbols
  lines := .ofRows LineEntryRecord.startRva output.lineEntries
  filesById := .ofList (output.sourceFiles.map fun sf => (sf.fileId, sf.path))
  imageBase := imageBase

def symbolForRva (resolver : SymbolResolver) (rva : Nat) : Option DebugSymbolRecord :=
  RangeIndex.lookup DebugSymbolRecord.startRva DebugSymbolRecord.endRva resolver.symbols rva

def lineForRva (resolver : SymbolResolver) (rva : Nat) : Option LineEntryRecord :=
  RangeIndex.lookup LineEntryRecord.startRva LineEntryRecord.endRva resolver.lines rva

variable (demangle : String → Option String)

def resolve (resolver : SymbolResolver) (va : Nat) : Option ResolvedSymbol :=
  if va < resolver.imageBase then none
  else
    let rva := va - resolver.imageBase
    let sym := resolver.symbolForRva rva
    let line := resolver.lineForRva rva
    if sym.isNone && line.isNone then none
    else
      let linkageName := sym.bind DebugSymbolRecord.linkageName
      some {
        functionName := sym.map DebugSymbolRecord.name
        linkageName := linkageName
        demangled := linkageName.bind demangle
        sourceFile := line.bind fun l => resolver.filesById.get l.fileId
        line := line.map LineEntryRecord.line
        column := line.bind LineEntryRecord.column }

def resolveEdge (resolver : SymbolResolver) (fromVa toVa : Nat) :
    Option ResolvedSymbol × Option ResolvedSymbol :=
  (resolver.resolve demangle fromVa, resolver.resolve demangle toVa)

end SymbolResolver

section
variable {α : Type} (start stop : α → Nat)

def CoversVa (imageBase va : Nat) (a : α) : Prop :=
  (start a : Int) ≤ (va : Int) - imageBase ∧ (va : Int) - imageBase < stop a

/-- A record that covers an address, with the greatest start of those that do. -/
structure NearestVa (rows : List α) (imageBase va : Nat) (a : α) : Prop where
  mem : a ∈ rows
  covers : CoversVa start stop imageBase va a
  greatest : ∀ b ∈ rows, CoversVa start stop imageBase va b → start b ≤ start a

end

abbrev NearestSymbol := NearestVa DebugSymbolRecord.startRva DebugSymbolRecord.endRva

abbrev NearestLine := NearestVa LineEntryRecord.startRva LineEntryRecord.endRva

def SymbolCovered (output : DebugSymbolOutput) (imageBase va : Nat) : Prop :=
  ∃ sym ∈ output.symbols,
    CoversVa DebugSymbolRecord.startRva DebugSymbolRecord.endRva imageBase va sym

def LineCovered (output : DebugSymbolOutput) (imageBase va : Nat) : Prop :=
  ∃ line ∈ output.lineEntries,
    CoversVa LineEntryRecord.startRva LineEntryRecord.endRva imageBase va line

/-- An answer that says what the nearest covering records say, and is none only when there
are none. -/
structure Symbolicates (output : DebugSymbolOutput) (imageBase va : Nat)
    (answer : Option ResolvedSymbol) : Prop where
  function : (∃ name, answer.bind ResolvedSymbol.functionName = some name) ↔
    SymbolCovered output imageBase va
  nearest_function : ∀ name, answer.bind ResolvedSymbol.functionName = some name →
    ∃ sym, NearestSymbol output.symbols imageBase va sym ∧ sym.name = name
  line : (∃ n, answer.bind ResolvedSymbol.line = some n) ↔ LineCovered output imageBase va
  file : (∃ path, answer.bind ResolvedSymbol.sourceFile = some path) ↔
    LineCovered output imageBase va
  nearest_line : ∀ n, answer.bind ResolvedSymbol.line = some n →
    ∃ line, NearestLine output.lineEntries imageBase va line ∧ line.line = n ∧
      ∀ path, answer.bind ResolvedSymbol.sourceFile = some path →
        ∃ sf ∈ output.sourceFiles, sf.fileId = line.fileId ∧ sf.path = path
  none : answer = none ↔ ¬ SymbolCovered output imageBase va ∧ ¬ LineCovered output imageBase va

/-- The same records in an order that differs only between records that do not overlap. -/
structure Permuted (output output' : DebugSymbolOutput) : Prop where
  symbols : Rearranged
    (fun a b => ¬ RangeIndex.Meet DebugSymbolRecord.startRva DebugSymbolRecord.endRva a b)
    output.symbols output'.symbols
  lineEntries : Rearranged
    (fun a b => ¬ RangeIndex.Meet LineEntryRecord.startRva LineEntryRecord.endRva a b)
    output.lineEntries output'.lineEntries
  sourceFiles : output.sourceFiles = output'.sourceFiles

/-- The nearest starts tell what covers an address. -/
structure Plain (output : DebugSymbolOutput) (imageBase va : Nat) : Prop where
  symbols : imageBase ≤ va → RangeIndex.Plain DebugSymbolRecord.startRva DebugSymbolRecord.endRva
    output.symbols (va - imageBase)
  lines : imageBase ≤ va → RangeIndex.Plain LineEntryRecord.startRva LineEntryRecord.endRva
    output.lineEntries (va - imageBase)
  files : imageBase ≤ va → ∀ line,
    RangeIndex.First LineEntryRecord.startRva output.lineEntries (va - imageBase) line →
      va - imageBase < line.endRva → ∃ sf ∈ output.sourceFiles, sf.fileId = line.fileId

section
variable {α : Type} {start stop : α → Nat} {rows : List α} {imageBase va : Nat} {a : α}

theorem coversVa_iff (h : imageBase ≤ va) :
    CoversVa start stop imageBase va a ↔ RangeIndex.Covers start stop (va - imageBase) a := by
  rw [CoversVa, RangeIndex.Covers]
  omega

theorem not_coversVa (h : va < imageBase) : ¬ CoversVa start stop imageBase va a := by
  rw [CoversVa]
  omega

theorem nearestVa_of_lookup (h : imageBase ≤ va)
    (ha : RangeIndex.lookup start stop (.ofRows start rows) (va - imageBase) = some a) :
    NearestVa start stop rows imageBase va a := by
  obtain ⟨hmem, hcovers, hgreatest⟩ := RangeIndex.nearest_of_lookup ha
  exact ⟨hmem, (coversVa_iff h).mpr hcovers,
    fun b hb hcovers => hgreatest b hb ((coversVa_iff h).mp hcovers)⟩

/-- The nearest starts tell whether the address is covered. -/
theorem exists_lookup_iff (h : imageBase ≤ va)
    (hplain : RangeIndex.Plain start stop rows (va - imageBase)) :
    (∃ a, RangeIndex.lookup start stop (.ofRows start rows) (va - imageBase) = some a) ↔
      ∃ a ∈ rows, CoversVa start stop imageBase va a := by
  constructor
  · rintro ⟨a, ha⟩
    have hnear := nearestVa_of_lookup h ha
    exact ⟨a, hnear.mem, hnear.covers⟩
  · rintro ⟨a, ha, hcovers⟩
    exact hplain.exists_lookup ha ((coversVa_iff h).mp hcovers)

end

section
variable {demangle : String → Option String} {output output' : DebugSymbolOutput}
  {imageBase va : Nat}

theorem resolve_of_lt (h : va < imageBase) :
    (SymbolResolver.new output imageBase).resolve demangle va = none := by
  rw [SymbolResolver.resolve, if_pos (by exact h)]

/-- The function name of an answer is that of the symbol record found. -/
theorem resolve_functionName (h : imageBase ≤ va) :
    ((SymbolResolver.new output imageBase).resolve demangle va).bind ResolvedSymbol.functionName =
      ((SymbolResolver.new output imageBase).symbolForRva (va - imageBase)).map
        DebugSymbolRecord.name := by
  rw [SymbolResolver.resolve, if_neg (by exact h.not_gt)]
  dsimp only [SymbolResolver.new]
  split
  · rename_i hnone
    rw [Bool.and_eq_true, Option.isNone_iff_eq_none] at hnone
    rw [hnone.1]
    rfl
  · rfl

theorem resolve_line (h : imageBase ≤ va) :
    ((SymbolResolver.new output imageBase).resolve demangle va).bind ResolvedSymbol.line =
      ((SymbolResolver.new output imageBase).lineForRva (va - imageBase)).map
        LineEntryRecord.line := by
  rw [SymbolResolver.resolve, if_neg (by exact h.not_gt)]
  dsimp only [SymbolResolver.new]
  split
  · rename_i hnone
    rw [Bool.and_eq_true, Option.isNone_iff_eq_none, Option.isNone_iff_eq_none] at hnone
    rw [hnone.2]
    rfl
  · rfl

theorem resolve_sourceFile (h : imageBase ≤ va) :
    ((SymbolResolver.new output imageBase).resolve demangle va).bind ResolvedSymbol.sourceFile =
      ((SymbolResolver.new output imageBase).lineForRva (va - imageBase)).bind fun l =>
        (SymbolResolver.new output imageBase).filesById.get l.fileId := by
  rw [SymbolResolver.resolve, if_neg (by exact h.not_gt)]
  dsimp only [SymbolResolver.new]
  split
  · rename_i hnone
    rw [Bool.and_eq_true, Option.isNone_iff_eq_none, Option.isNone_iff_eq_none] at hnone
    rw [hnone.2]
    rfl
  · rfl

theorem resolve_eq_none (h : imageBase ≤ va) :
    (SymbolResolver.new output imageBase).resolve demangle va = none ↔
      (SymbolResolver.new output imageBase).symbolForRva (va - imageBase) = none ∧
        (SymbolResolver.new output imageBase).lineForRva (va - imageBase) = none := by
  rw [SymbolResolver.resolve, if_neg (by exact h.not_gt)]
  dsimp only [SymbolResolver.new]
  split
  · rename_i hnone
    rw [Bool.and_eq_true, Option.isNone_iff_eq_none, Option.isNone_iff_eq_none] at hnone
    exact iff_of_true rfl hnone
  · rename_i hsome
    refine iff_of_false (by simp) fun hnone => hsome ?_
    rw [hnone.1, hnone.2]
    rfl

/-- Records found alike are resolved alike. -/
theorem resolve_congr (hfiles : output.sourceFiles = output'.sourceFiles)
    (hsym : (SymbolResolver.new output' imageBase).symbolForRva (va - imageBase) =
      (SymbolResolver.new output imageBase).symbolForRva (va - imageBase))
    (hline : (SymbolResolver.new output' imageBase).lineForRva (va - imageBase) =
      (SymbolResolver.new output imageBase).lineForRva (va - imageBase)) :
    (SymbolResolver.new output' imageBase).resolve demangle va =
      (SymbolResolver.new output imageBase).resolve demangle va := by
  have hids : (SymbolResolver.new output' imageBase).filesById =
      (SymbolResolver.new output imageBase).filesById := by
    simp only [SymbolResolver.new, hfiles]
  have hbase : ∀ output, (SymbolResolver.new output imageBase).imageBase = imageBase :=
    fun _ => rfl
  simp only [SymbolResolver.resolve, hbase, hsym, hline, hids]

theorem file_of_get {fileId path : String}
    (h : (SymbolResolver.new output imageBase).filesById.get fileId = some path) :
    ∃ sf ∈ output.sourceFiles, sf.fileId = fileId ∧ sf.path = path := by
  obtain ⟨sf, hmem, heq⟩ := List.mem_map.mp (OrderedMap.mem_of_get_ofList h)
  rw [Prod.mk.injEq] at heq
  exact ⟨sf, hmem, heq⟩

theorem exists_get_file {fileId : String} (h : ∃ sf ∈ output.sourceFiles, sf.fileId = fileId) :
    ∃ path, (SymbolResolver.new output imageBase).filesById.get fileId = some path := by
  obtain ⟨sf, hmem, rfl⟩ := h
  exact OrderedMap.exists_get_ofList (List.mem_map.mpr ⟨sf, hmem, rfl⟩)

theorem symbolicates_of_lt (h : va < imageBase) :
    Symbolicates output imageBase va
      ((SymbolResolver.new output imageBase).resolve demangle va) := by
  have hsym : ¬ SymbolCovered output imageBase va := fun ⟨_, _, hcovers⟩ => not_coversVa h hcovers
  have hline : ¬ LineCovered output imageBase va := fun ⟨_, _, hcovers⟩ => not_coversVa h hcovers
  rw [resolve_of_lt h]
  exact {
    function := iff_of_false (by simp) hsym
    nearest_function := by simp
    line := iff_of_false (by simp) hline
    file := iff_of_false (by simp) hline
    nearest_line := by simp
    none := iff_of_true rfl ⟨hsym, hline⟩ }

theorem symbolicates_of_plain (hplain : Plain output imageBase va) (h : imageBase ≤ va) :
    Symbolicates output imageBase va
      ((SymbolResolver.new output imageBase).resolve demangle va) := by
  have hsym := exists_lookup_iff h (hplain.symbols h)
  have hline := exists_lookup_iff h (hplain.lines h)
  refine ⟨?_, fun name hname => ?_, ?_, ?_, fun n hn => ?_, ?_⟩
  · rw [resolve_functionName h, SymbolCovered, ← hsym]
    simp only [Option.map_eq_some_iff]
    exact ⟨fun ⟨_, sym, hsym, _⟩ => ⟨sym, hsym⟩, fun ⟨sym, hsym⟩ => ⟨_, sym, hsym, rfl⟩⟩
  · rw [resolve_functionName h, Option.map_eq_some_iff] at hname
    obtain ⟨sym, hsym, hname⟩ := hname
    exact ⟨sym, nearestVa_of_lookup h hsym, hname⟩
  · rw [resolve_line h, LineCovered, ← hline]
    simp only [Option.map_eq_some_iff]
    exact ⟨fun ⟨_, line, hline, _⟩ => ⟨line, hline⟩, fun ⟨line, hline⟩ => ⟨_, line, hline, rfl⟩⟩
  · rw [resolve_sourceFile h, LineCovered, ← hline]
    simp only [Option.bind_eq_some_iff]
    constructor
    · rintro ⟨_, line, hline, -⟩
      exact ⟨line, hline⟩
    · rintro ⟨line, hline⟩
      obtain ⟨hfirst, hstop⟩ := RangeIndex.lookup_eq_some hline
      obtain ⟨path, hpath⟩ := exists_get_file (hplain.files h line hfirst hstop)
      exact ⟨path, line, hline, hpath⟩
  · rw [resolve_line h, Option.map_eq_some_iff] at hn
    obtain ⟨line, hline, hn⟩ := hn
    refine ⟨line, nearestVa_of_lookup h hline, hn, fun path hpath => ?_⟩
    rw [resolve_sourceFile h, hline, Option.bind_some] at hpath
    exact file_of_get hpath
  · rw [resolve_eq_none h, SymbolCovered, LineCovered, ← hsym, ← hline]
    simp only [Option.eq_none_iff_forall_ne_some, not_exists]
    rfl

theorem resolve_permuted (hplain : Plain output imageBase va) (hp : Permuted output output') :
    (SymbolResolver.new output' imageBase).resolve demangle va =
      (SymbolResolver.new output imageBase).resolve demangle va := by
  rcases lt_or_ge va imageBase with h | h
  · rw [resolve_of_lt h, resolve_of_lt h]
  · exact resolve_congr hp.sourceFiles ((hplain.symbols h).lookup_eq hp.symbols)
      ((hplain.lines h).lookup_eq hp.lineEntries)

theorem symbols_plain_of_symbolicates (h : imageBase ≤ va)
    (hanswer : Symbolicates output imageBase va
      ((SymbolResolver.new output imageBase).resolve demangle va))
    (hstable : ∀ output', Permuted output output' →
      (SymbolResolver.new output' imageBase).resolve demangle va =
        (SymbolResolver.new output imageBase).resolve demangle va) :
    RangeIndex.Plain DebugSymbolRecord.startRva DebugSymbolRecord.endRva output.symbols
      (va - imageBase) := by
  have hname := fun output => @resolve_functionName demangle output imageBase va h
  refine RangeIndex.plain_of_isSome (fun ⟨sym, hmem, hcovers⟩ => ?_) fun k hk => ?_
  · obtain ⟨name, hsome⟩ := hanswer.function.mpr ⟨sym, hmem, (coversVa_iff h).mpr hcovers⟩
    rw [hname, Option.map_eq_some_iff] at hsome
    obtain ⟨sym, hsym, -⟩ := hsome
    exact Option.isSome_iff_exists.mpr ⟨sym, hsym⟩
  · have hsame := hstable { output with symbols := k } ⟨hk, .refl _, rfl⟩
    have hsame := congrArg (fun answer => (answer.bind ResolvedSymbol.functionName).isSome) hsame
    simp only [hname, Option.isSome_map] at hsame
    exact hsame

theorem lines_plain_of_symbolicates (h : imageBase ≤ va)
    (hanswer : Symbolicates output imageBase va
      ((SymbolResolver.new output imageBase).resolve demangle va))
    (hstable : ∀ output', Permuted output output' →
      (SymbolResolver.new output' imageBase).resolve demangle va =
        (SymbolResolver.new output imageBase).resolve demangle va) :
    RangeIndex.Plain LineEntryRecord.startRva LineEntryRecord.endRva output.lineEntries
      (va - imageBase) := by
  have hnumber := fun output => @resolve_line demangle output imageBase va h
  refine RangeIndex.plain_of_isSome (fun ⟨line, hmem, hcovers⟩ => ?_) fun k hk => ?_
  · obtain ⟨n, hsome⟩ := hanswer.line.mpr ⟨line, hmem, (coversVa_iff h).mpr hcovers⟩
    rw [hnumber, Option.map_eq_some_iff] at hsome
    obtain ⟨line, hline, -⟩ := hsome
    exact Option.isSome_iff_exists.mpr ⟨line, hline⟩
  · have hsame := hstable { output with lineEntries := k } ⟨.refl _, hk, rfl⟩
    have hsame := congrArg (fun answer => (answer.bind ResolvedSymbol.line).isSome) hsame
    simp only [hnumber, Option.isSome_map] at hsame
    exact hsame

/-- A covered address has a file only when the record that is found names a listed one. -/
theorem file_listed_of_symbolicates (h : imageBase ≤ va)
    (hanswer : Symbolicates output imageBase va
      ((SymbolResolver.new output imageBase).resolve demangle va)) {line : LineEntryRecord}
    (hfirst : RangeIndex.First LineEntryRecord.startRva output.lineEntries (va - imageBase) line)
    (hstop : va - imageBase < line.endRva) :
    ∃ sf ∈ output.sourceFiles, sf.fileId = line.fileId := by
  have hcovers := (coversVa_iff h).mpr ⟨hfirst.le, hstop⟩
  obtain ⟨path, hpath⟩ := hanswer.file.mpr ⟨line, hfirst.mem, hcovers⟩
  have hline : (SymbolResolver.new output imageBase).lineForRva (va - imageBase) = some line := by
    refine (RangeIndex.lookup_of_first hfirst).trans ?_
    rw [if_pos hstop]
  rw [resolve_sourceFile h, hline, Option.bind_some] at hpath
  obtain ⟨sf, hmem, hid, -⟩ := file_of_get hpath
  exact ⟨sf, hmem, hid⟩

end

/-- An address gets what the nearest covering records say, in every order of the records that do
not overlap, exactly when the nearest starts tell what covers it. -/
theorem resolve_symbolicates_iff (demangle : String → Option String) (output : DebugSymbolOutput)
    (imageBase va : Nat) :
    (Symbolicates output imageBase va ((SymbolResolver.new output imageBase).resolve demangle va) ∧
      ∀ output', Permuted output output' →
        (SymbolResolver.new output' imageBase).resolve demangle va =
          (SymbolResolver.new output imageBase).resolve demangle va) ↔
      Plain output imageBase va := by
  constructor
  · rintro ⟨hanswer, hstable⟩
    exact ⟨fun h => symbols_plain_of_symbolicates h hanswer hstable,
      fun h => lines_plain_of_symbolicates h hanswer hstable,
      fun h line hfirst hstop => file_listed_of_symbolicates h hanswer hfirst hstop⟩
  · intro hplain
    refine ⟨?_, fun output' hp => resolve_permuted hplain hp⟩
    rcases lt_or_ge va imageBase with h | h
    · exact symbolicates_of_lt h
    · exact symbolicates_of_plain hplain h

def nested : DebugSymbolOutput where
  symbols := [⟨"outer", none, 0x10, 0x40⟩, ⟨"inner", none, 0x20, 0x30⟩]
  sourceFiles := []
  lineEntries := []

/-- Behind an inner range the outer one is not found. -/
theorem nested_not_symbolicates :
    ¬ Symbolicates nested 0x1000 0x1035
      ((SymbolResolver.new nested 0x1000).resolve (fun _ => none) 0x1035) := by
  intro h
  have hcovered : SymbolCovered nested 0x1000 0x1035 :=
    ⟨⟨"outer", none, 0x10, 0x40⟩, List.mem_cons_self, by decide, by decide⟩
  obtain ⟨name, hname⟩ := h.function.mpr hcovered
  have hnone : (SymbolResolver.new nested 0x1000).resolve (fun _ => none) 0x1035 = none := by
    decide
  rw [hnone] at hname
  cases hname

end Axe.Fuzzer.Symbols
