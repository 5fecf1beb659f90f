import Mathlib.Data.List.Sort
import Axe.Static.Blocks
import Axe.Static.Image

/-!
# Function discovery

Seeds are taken in address order; a seed that no earlier function covers becomes a function
that ends where its unwind entry says, or else at a guessed end. `none` stands for an address
computation that leaves the address space.
-/
namespace Axe.Static

open SortedMap (Sorted)

/-- What discovery is given. -/
structure Binary where
  image : BinaryImage
  instructions : List InstructionRecord
  exceptions : List ExceptionRecord
  exports : List ExportRecord
  directCodeTargets : List Nat

namespace Binary

def insByVa (bin : Binary) : List InstructionRecord :=
  SortedMap.ofList InstructionRecord.address bin.instructions

def addSeeds (source : String) (vas : List Nat) (seeds : List (Nat × String)) :
    List (Nat × String) :=
  vas.foldl (fun seeds va => SortedMap.insertNew Prod.fst (va, source) seeds) seeds

def entrySeeds (bin : Binary) : List Nat :=
  if bin.image.entryVa ≠ 0 then [bin.image.entryVa] else []

def exportSeeds (bin : Binary) : List Nat :=
  (bin.exports.map ExportRecord.va).filter bin.image.executableAt

def sectionSeeds (bin : Binary) : List Nat :=
  (bin.image.sections.filter SectionRecord.executable).map SectionRecord.va

/-- The seeds in address order, each with the first source that names it. -/
def seeds (bin : Binary) : List (Nat × String) :=
  addSeeds "section" bin.sectionSeeds <| addSeeds "call" bin.directCodeTargets <|
    addSeeds "export" bin.exportSeeds <|
    addSeeds "pdata" (bin.exceptions.map ExceptionRecord.begin) <|
    addSeeds "entry" bin.entrySeeds []

def excEnd (bin : Binary) (start : Nat) : Option Nat :=
  (SortedMap.get? ExceptionRecord.begin start
    (SortedMap.ofList ExceptionRecord.begin bin.exceptions)).map ExceptionRecord.stop

/-- The first `ret` from an address on and below another one. -/
def firstRet (bin : Binary) (start maxEnd : Nat) : Option InstructionRecord :=
  ((bin.insByVa.filter (start ≤ ·.address)).takeWhile (·.address < maxEnd)).find?
    InstructionRecord.isRet

def guessFunctionEnd (bin : Binary) (start : Nat) : Option Nat :=
  match bin.excEnd start with
  | some stop => some stop
  | none =>
    match bin.image.sectionForVa start with
    | none => some start
    | some sect =>
      (addVa sect.va sect.dataSize).bind fun sectionEnd =>
        (addVa start 0x4000).bind fun farthest =>
          let maxEnd := min sectionEnd farthest
          some (((bin.firstRet start maxEnd).map InstructionRecord.nextAddr).getD maxEnd)

/-- The start is the address of a decoded instruction in an executable section. -/
def decodedCode (bin : Binary) (start : Nat) : Bool :=
  bin.insByVa.any (·.address = start) && bin.image.executableAt start

/-- The ranges found so far are those of the functions found so far. -/
def covered (functions : List FunctionRecord) (va : Nat) : Bool :=
  functions.any fun f => f.start ≤ va && va < f.stop

def pushFunction (functions : List FunctionRecord) (start stop : Nat) (source : String) :
    List FunctionRecord :=
  if h : start < stop then functions ++ [⟨start, stop, stop - start, source, [], Nat.le_of_lt h⟩]
  else functions

def discoverLoop (bin : Binary) (maxFunctions : Nat) :
    List (Nat × String) → List FunctionRecord → Option (List FunctionRecord)
  | [], functions => some functions
  | (start, source) :: rest, functions =>
    if maxFunctions ≤ functions.length then some functions
    else if !bin.decodedCode start || covered functions start then
      bin.discoverLoop maxFunctions rest functions
    else
      (bin.guessFunctionEnd start).bind fun stop =>
        bin.discoverLoop maxFunctions rest (pushFunction functions start stop source)

def discoverFunctions (bin : Binary) (maxFunctions : Nat) : Option (List FunctionRecord) :=
  (bin.discoverLoop maxFunctions bin.seeds []).map
    (List.insertionSort fun f f' => f.start ≤ f'.start)

variable {bin : Binary} {maxFunctions start stop s va : Nat} {source : String}
  {todo : List (Nat × String)} {functions out : List FunctionRecord} {f : FunctionRecord}

theorem addSeeds_ok (source : String) (vas : List Nat) {seeds : List (Nat × String)}
    (hs : Sorted Prod.fst seeds) :
    Sorted Prod.fst (addSeeds source vas seeds) ∧
      ∀ va, (∃ row ∈ addSeeds source vas seeds, row.1 = va) ↔
        va ∈ vas ∨ ∃ row ∈ seeds, row.1 = va := by
  induction vas generalizing seeds with
  | nil => exact ⟨hs, fun va => by simp [addSeeds]⟩
  | cons head rest ih =>
    obtain ⟨hsorted, hmem⟩ := ih (SortedMap.sorted_insertNew (head, source) hs)
    refine ⟨hsorted, fun va => (hmem va).trans ?_⟩
    have hinsert : (∃ row ∈ SortedMap.insertNew Prod.fst (head, source) seeds, row.1 = va) ↔
        va = head ∨ ∃ row ∈ seeds, row.1 = va := by
      constructor
      · rintro ⟨row, hrow, rfl⟩
        rcases (SortedMap.mem_insertNew hs).mp hrow with hrow | ⟨rfl, _⟩
        · exact Or.inr ⟨row, hrow, rfl⟩
        · exact Or.inl rfl
      · rintro (rfl | ⟨row, hrow, rfl⟩)
        · by_cases hfresh : ∀ row ∈ seeds, row.1 ≠ va
          · exact ⟨_, (SortedMap.mem_insertNew hs).mpr (Or.inr ⟨rfl, hfresh⟩), rfl⟩
          · push Not at hfresh
            obtain ⟨row, hrow, heq⟩ := hfresh
            exact ⟨row, (SortedMap.mem_insertNew hs).mpr (Or.inl hrow), heq⟩
        · exact ⟨row, (SortedMap.mem_insertNew hs).mpr (Or.inl hrow), rfl⟩
    rw [hinsert, List.mem_cons]
    tauto

def Seed (bin : Binary) (va : Nat) : Prop :=
  va ∈ bin.sectionSeeds ∨ va ∈ bin.directCodeTargets ∨ va ∈ bin.exportSeeds ∨
    va ∈ bin.exceptions.map ExceptionRecord.begin ∨ va ∈ bin.entrySeeds

theorem seeds_ok (bin : Binary) :
    Sorted Prod.fst bin.seeds ∧ ∀ va, (∃ row ∈ bin.seeds, row.1 = va) ↔ bin.Seed va := by
  have hnil : Sorted Prod.fst ([] : List (Nat × String)) := SortedMap.sorted_nil
  have hentry := addSeeds_ok "entry" bin.entrySeeds hnil
  have hpdata := addSeeds_ok "pdata" (bin.exceptions.map ExceptionRecord.begin) hentry.1
  have hexport := addSeeds_ok "export" bin.exportSeeds hpdata.1
  have hcall := addSeeds_ok "call" bin.directCodeTargets hexport.1
  have hsection := addSeeds_ok "section" bin.sectionSeeds hcall.1
  refine ⟨hsection.1, fun va => (hsection.2 va).trans ?_⟩
  rw [hcall.2, hexport.2, hpdata.2, hentry.2, Seed]
  simp

/-- How far the function at a seed would reach; nowhere when its end cannot be computed. -/
def reach (bin : Binary) (start : Nat) : Nat := (bin.guessFunctionEnd start).getD start

/-- A seed opens a function when it is code and no function opened before it covers it. -/
def Opens (bin : Binary) (start : Nat) : Prop :=
  (bin.Seed start ∧ bin.decodedCode start = true) ∧
    ∀ before, before < start → Opens bin before → bin.reach before ≤ start
termination_by start

/-- The state of the walk over the seeds. -/
structure Walk (bin : Binary) (todo : List (Nat × String)) (functions : List FunctionRecord) :
    Prop where
  opened : ∀ f ∈ functions, bin.Opens f.start ∧ f.stop = bin.reach f.start ∧ f.start < f.stop
  complete : ∀ s, bin.Opens s → (∀ row ∈ todo, row.1 ≠ s) →
    bin.guessFunctionEnd s ≠ none ∧ (s < bin.reach s → ∃ f ∈ functions, f.start = s)
  ascending : functions.Pairwise fun f f' => f.start < f'.start ∧ f.stop ≤ f'.start
  before : ∀ f ∈ functions, ∀ row ∈ todo, f.start < row.1

theorem walk_seeds (bin : Binary) : Walk bin bin.seeds [] where
  opened := fun _ h => absurd h List.not_mem_nil
  complete := by
    intro s hs hnone
    rw [Opens] at hs
    obtain ⟨row, hrow, heq⟩ := ((seeds_ok bin).2 s).mpr hs.1.1
    exact absurd heq (hnone row hrow)
  ascending := List.Pairwise.nil
  before := fun _ h => absurd h List.not_mem_nil

theorem covered_iff : covered functions va = true ↔ ∃ f ∈ functions, f.start ≤ va ∧ va < f.stop := by
  simp only [covered, List.any_eq_true, Bool.and_eq_true, decide_eq_true_eq]

/-- A seed that is passed over opens nothing. -/
theorem Walk.skip (h : Walk bin ((start, source) :: todo) functions)
    (hskip : ¬ bin.Opens start) : Walk bin todo functions where
  opened := h.opened
  complete := by
    intro s hs hnone
    refine h.complete s hs fun row hrow heq => ?_
    rcases List.mem_cons.mp hrow with rfl | hrow
    · have hstart : start = s := heq
      exact hskip (hstart ▸ hs)
    · exact hnone row hrow heq
  ascending := h.ascending
  before := fun f hf row hrow => h.before f hf row (List.mem_cons_of_mem _ hrow)

theorem Walk.not_opens (h : Walk bin ((start, source) :: todo) functions)
    (hskip : (!bin.decodedCode start || covered functions start) = true) :
    ¬ bin.Opens start := by
  intro hopens
  rw [Opens] at hopens
  rw [Bool.or_eq_true, Bool.not_eq_true', hopens.1.2] at hskip
  obtain ⟨f, hf, _, hlt⟩ := covered_iff.mp (hskip.resolve_left Bool.true_eq_false.mp)
  obtain ⟨hfopens, hstop, _⟩ := h.opened f hf
  have hreach := hopens.2 f.start (h.before f hf _ List.mem_cons_self) hfopens
  omega

/-- A seed that is taken opens a function. -/
theorem Walk.opens (h : Walk bin ((start, source) :: todo) functions)
    (hs : Sorted Prod.fst ((start, source) :: todo)) (hseed : bin.Seed start)
    (htake : ¬ (!bin.decodedCode start || covered functions start) = true) : bin.Opens start := by
  rw [Bool.or_eq_true, not_or, Bool.not_eq_true', Bool.not_eq_false] at htake
  rw [Opens]
  refine ⟨⟨hseed, htake.1⟩, fun b hlt hb => ?_⟩
  by_contra hgt
  have hnot : ∀ row ∈ (start, source) :: todo, row.1 ≠ b := by
    intro row hrow
    rcases List.mem_cons.mp hrow with rfl | hrow
    · exact hlt.ne'
    · have := (List.pairwise_cons.mp hs).1 row hrow
      simp only at this
      omega
  obtain ⟨f, hf, hstart⟩ := (h.complete b hb hnot).2 (by omega)
  have hstop := (h.opened f hf).2.1
  rw [hstart] at hstop
  exact htake.2 (covered_iff.mpr ⟨f, hf, by omega, by omega⟩)

theorem Walk.push (h : Walk bin ((start, source) :: todo) functions)
    (hs : Sorted Prod.fst ((start, source) :: todo)) (hopens : bin.Opens start)
    (hend : bin.guessFunctionEnd start = some stop) :
    Walk bin todo (pushFunction functions start stop source) := by
  have hreach : bin.reach start = stop := by rw [reach, hend]; rfl
  have hcomplete : ∀ s, bin.Opens s → (∀ row ∈ todo, row.1 ≠ s) → s ≠ start →
      bin.guessFunctionEnd s ≠ none ∧ (s < bin.reach s → ∃ f ∈ functions, f.start = s) := by
    intro s hs hnone hne
    refine h.complete s hs fun row hrow => ?_
    rcases List.mem_cons.mp hrow with rfl | hrow
    · exact hne.symm
    · exact hnone row hrow
  rw [pushFunction]
  split
  · rename_i hlt
    refine ⟨fun f hf => ?_, fun s hs hnone => ?_, ?_, fun f hf row hrow => ?_⟩
    · rcases List.mem_append.mp hf with hf | hf
      · exact h.opened f hf
      · rw [List.mem_singleton.mp hf]
        exact ⟨hopens, hreach.symm, hlt⟩
    · by_cases hne : s = start
      · rw [hne, hend]
        exact ⟨Option.some_ne_none _, fun _ => ⟨_, List.mem_append_right _
          (List.mem_singleton_self _), rfl⟩⟩
      · obtain ⟨hguess, hfound⟩ := hcomplete s hs hnone hne
        exact ⟨hguess, fun hlt => (hfound hlt).imp fun f hf => ⟨List.mem_append_left _ hf.1, hf.2⟩⟩
    · refine List.pairwise_append.mpr ⟨h.ascending, List.pairwise_singleton _ _, ?_⟩
      intro f hf f' hf'
      rw [List.mem_singleton.mp hf']
      have hbefore := h.before f hf _ List.mem_cons_self
      obtain ⟨hfopens, hstop, _⟩ := h.opened f hf
      rw [Opens] at hopens
      exact ⟨hbefore, hstop ▸ hopens.2 f.start hbefore hfopens⟩
    · rcases List.mem_append.mp hf with hf | hf
      · exact h.before f hf row (List.mem_cons_of_mem _ hrow)
      · rw [List.mem_singleton.mp hf]
        exact (List.pairwise_cons.mp hs).1 row hrow
  · rename_i hge
    refine ⟨h.opened, fun s hs hnone => ?_, h.ascending,
      fun f hf row hrow => h.before f hf row (List.mem_cons_of_mem _ hrow)⟩
    by_cases hne : s = start
    · rw [hne, hend, hreach]
      exact ⟨Option.some_ne_none _, fun hlt => absurd hlt hge⟩
    · exact hcomplete s hs hnone hne

/-- The walk ends with every function in place, unless a sum leaves the address space. -/
theorem Walk.loop (h : Walk bin todo functions) (hs : Sorted Prod.fst todo)
    (hseeds : ∀ row ∈ todo, bin.Seed row.1) :
    (∀ out, bin.discoverLoop maxFunctions todo functions = some out → out.length < maxFunctions →
        Walk bin [] out) ∧
      (bin.discoverLoop maxFunctions todo functions = none →
        ∃ s, bin.Opens s ∧ bin.guessFunctionEnd s = none) := by
  induction todo generalizing functions with
  | nil =>
    refine ⟨fun out hout _ => ?_, fun hnone => absurd hnone (Option.some_ne_none _)⟩
    rw [discoverLoop, Option.some.injEq] at hout
    exact hout ▸ h
  | cons row rest ih =>
    obtain ⟨start, source⟩ := row
    have hrest := (List.pairwise_cons.mp hs).2
    have hseeds' : ∀ row ∈ rest, bin.Seed row.1 :=
      fun row hrow => hseeds row (List.mem_cons_of_mem _ hrow)
    rw [discoverLoop]
    split
    · rename_i hfull
      refine ⟨fun out hout hlt => ?_, fun hnone => absurd hnone (Option.some_ne_none _)⟩
      rw [Option.some.injEq] at hout
      rw [← hout] at hlt
      omega
    · split
      · rename_i hskip
        exact ih (h.skip (h.not_opens hskip)) hrest hseeds'
      · rename_i htake
        have hopens := h.opens hs (hseeds _ List.mem_cons_self) htake
        cases hend : bin.guessFunctionEnd start with
        | none => exact ⟨fun out hout => absurd hout.symm (Option.some_ne_none _),
            fun _ => ⟨start, hopens, hend⟩⟩
        | some stop => exact ih (h.push hs hopens hend) hrest hseeds'

/-- No two unwind entries share an address. -/
def DisjointRanges (exceptions : List ExceptionRecord) : Prop :=
  exceptions.Pairwise fun e e' => e.stop ≤ e'.begin ∨ e'.stop ≤ e.begin

/-- The functions are ranges in address order, each unwind entry of decoded code is one. -/
structure PartitionsCode (bin : Binary) (functions : List FunctionRecord) : Prop where
  sorted : functions.Pairwise fun f f' => f.start < f'.start ∧ f.stop ≤ f'.start
  nonempty : ∀ f ∈ functions, f.start < f.stop
  unwind : ∀ e ∈ bin.exceptions, bin.decodedCode e.begin = true →
    ∃ f ∈ functions, f.start = e.begin ∧ f.stop = e.stop

/-- The image has no section in the last `2 ^ 32` bytes of the address space. -/
def LowSections (bin : Binary) : Prop :=
  ∀ va sect, bin.image.sectionForVa va = some sect → sect.va < 2 ^ 64 - 2 ^ 32

/-- Every seed that opens a function has an end that can be computed. -/
def EndsComputable (bin : Binary) : Prop := ∀ s, bin.Opens s → bin.guessFunctionEnd s ≠ none

/-- No seed that opens a function reaches past the begin of a later unwind entry. -/
def LeavesUnwindEntries (bin : Binary) : Prop :=
  ∀ s, bin.Opens s → ∀ e ∈ bin.exceptions, bin.decodedCode e.begin = true → s < e.begin →
    bin.reach s ≤ e.begin

theorem excEnd_eq (hno : DisjointRanges bin.exceptions) {e : ExceptionRecord}
    (he : e ∈ bin.exceptions) : bin.excEnd e.begin = some e.stop := by
  have hdistinct : bin.exceptions.Pairwise fun e e' => e.begin ≠ e'.begin := by
    refine hno.imp fun {e e'} hor heq => ?_
    have := e.nonempty
    have := e'.nonempty
    omega
  have hmem := (SortedMap.mem_ofList hdistinct).mpr he
  rw [excEnd, (SortedMap.get?_eq_some (SortedMap.sorted_ofList _)).mpr ⟨hmem, rfl⟩]
  rfl

theorem reach_exception (hno : DisjointRanges bin.exceptions) {e : ExceptionRecord}
    (he : e ∈ bin.exceptions) : bin.reach e.begin = e.stop := by
  rw [reach, guessFunctionEnd, excEnd_eq hno he]
  rfl

theorem sort_eq {functions : List FunctionRecord}
    (h : functions.Pairwise fun f f' => f.start < f'.start ∧ f.stop ≤ f'.start) :
    functions.insertionSort (fun f f' => f.start ≤ f'.start) = functions :=
  (h.imp fun hlt => Nat.le_of_lt hlt.1).insertionSort_eq

section

variable (hmax : ∀ out, bin.discoverFunctions maxFunctions = some out →
  out.length < maxFunctions)

include hmax

theorem walk_of_some (hout : bin.discoverFunctions maxFunctions = some out) :
    Walk bin [] out := by
  obtain ⟨found, hfound, rfl⟩ := Option.map_eq_some_iff.mp hout
  have hlength := hmax _ hout
  rw [List.length_insertionSort] at hlength
  have hseeds : ∀ row ∈ bin.seeds, bin.Seed row.1 :=
    fun row hrow => ((seeds_ok bin).2 row.1).mp ⟨row, hrow, rfl⟩
  have hwalk := ((walk_seeds bin).loop (seeds_ok bin).1 hseeds).1 found hfound hlength
  rw [sort_eq hwalk.ascending]
  exact hwalk

theorem discoverFunctions_isSome :
    (∃ out, bin.discoverFunctions maxFunctions = some out) ↔ bin.EndsComputable := by
  constructor
  · rintro ⟨out, hout⟩ s hs
    have hwalk := walk_of_some hmax hout
    exact (hwalk.complete s hs fun _ h => absurd h List.not_mem_nil).1
  · intro h
    cases hout : bin.discoverFunctions maxFunctions with
    | some out => exact ⟨out, rfl⟩
    | none =>
      have hseeds : ∀ row ∈ bin.seeds, bin.Seed row.1 :=
        fun row hrow => ((seeds_ok bin).2 row.1).mp ⟨row, hrow, rfl⟩
      have hloop := Option.map_eq_none_iff.mp hout
      obtain ⟨s, hs, hnone⟩ := ((walk_seeds bin).loop (seeds_ok bin).1 hseeds).2 hloop
      exact absurd hnone (h s hs)

theorem partitionsCode_iff (hno : DisjointRanges bin.exceptions)
    (hout : bin.discoverFunctions maxFunctions = some out) :
    bin.PartitionsCode out ↔ bin.LeavesUnwindEntries := by
  have hwalk := walk_of_some hmax hout
  have hall : ∀ s, bin.Opens s → s < bin.reach s → ∃ f ∈ out, f.start = s ∧ f.stop = bin.reach s := by
    intro s hs hlt
    obtain ⟨f, hf, rfl⟩ := (hwalk.complete s hs fun _ h => absurd h List.not_mem_nil).2 hlt
    exact ⟨f, hf, rfl, (hwalk.opened f hf).2.1⟩
  constructor
  · intro h s hs e he hcode hlt
    by_contra hgt
    obtain ⟨f, hf, hstart, hstop⟩ := hall s hs (by omega)
    obtain ⟨f', hf', hstart', hstop'⟩ := h.unwind e he hcode
    have hne : f ≠ f' := fun heq => by rw [heq] at hstart; omega
    have hsymm : Std.Symm fun f f' : FunctionRecord => f.stop ≤ f'.start ∨ f'.stop ≤ f.start :=
      ⟨fun _ _ => Or.symm⟩
    have hapart := List.Pairwise.forall (h.sorted.imp fun hlt => Or.inl hlt.2) hf hf' hne
      (R := fun f f' : FunctionRecord => f.stop ≤ f'.start ∨ f'.stop ≤ f.start)
    have hnonempty := h.nonempty f' hf'
    omega
  · intro h
    refine ⟨hwalk.ascending, fun f hf => (hwalk.opened f hf).2.2, fun e he hcode => ?_⟩
    have hseed : bin.Seed e.begin :=
      Or.inr (Or.inr (Or.inr (Or.inl (List.mem_map_of_mem he))))
    have hopens : bin.Opens e.begin := by
      rw [Opens]
      exact ⟨⟨hseed, hcode⟩, fun b hlt hb => h b hb e he hcode hlt⟩
    have hreach := reach_exception hno he
    obtain ⟨f, hf, hstart, hstop⟩ := hall e.begin hopens (hreach ▸ e.nonempty)
    exact ⟨f, hf, hstart, hstop.trans hreach⟩

end

theorem discovery_partitions_iff (hno : DisjointRanges bin.exceptions)
    (hmax : ∀ out, bin.discoverFunctions maxFunctions = some out → out.length < maxFunctions) :
    ((bin.LowSections → ∃ out, bin.discoverFunctions maxFunctions = some out) ∧
        ∀ out, bin.discoverFunctions maxFunctions = some out → bin.PartitionsCode out) ↔
      (bin.LowSections → bin.EndsComputable) ∧
        (bin.EndsComputable → bin.LeavesUnwindEntries) := by
  rw [discoverFunctions_isSome hmax]
  refine and_congr_right fun _ => ⟨fun h hends => ?_, fun h out hout => ?_⟩
  · obtain ⟨out, hout⟩ := (discoverFunctions_isSome hmax).mpr hends
    exact (partitionsCode_iff hmax hno hout).mp (h out hout)
  · exact (partitionsCode_iff hmax hno hout).mpr
      (h ((discoverFunctions_isSome hmax).mp ⟨out, hout⟩))

/-- A text section of one page. -/
def textSection : SectionRecord :=
  ⟨".text", 0x1000, 0x1000, 0x1000, 0x400, 0x1000, 0x1000, true, (0x400, 0x1400)⟩

def textImage : BinaryImage where
  entryVa := 0x1000
  sections := [textSection]
  sectionForVa := fun va => if 0x1000 ≤ va ∧ va < 0x2000 then some textSection else none

/-- Two functions with unwind entries, a call into the first of them, and a call to a function
that has none. -/
def threeFunctions : Binary where
  image := textImage
  instructions :=
    [⟨0x1000, 5, "mov", false, false, false, none, Nat.succ_pos 4, (by decide : 0x1005 < 2 ^ 64)⟩,
      ⟨0x1005, 1, "ret", false, false, true, none, Nat.one_pos, (by decide : 0x1006 < 2 ^ 64)⟩,
      ⟨0x1010, 1, "ret", false, false, true, none, Nat.one_pos, (by decide : 0x1011 < 2 ^ 64)⟩,
      ⟨0x1020, 1, "nop", false, false, false, none, Nat.one_pos, (by decide : 0x1021 < 2 ^ 64)⟩,
      ⟨0x1021, 1, "ret", false, false, true, none, Nat.one_pos, (by decide : 0x1022 < 2 ^ 64)⟩]
  exceptions :=
    [⟨0x1000, 0x1006, 0, 0x1000, 0x1006, 0, by decide⟩,
      ⟨0x1010, 0x1011, 0, 0x1010, 0x1011, 0, by decide⟩]
  exports := []
  directCodeTargets := [0x1005, 0x1020]

theorem discovery_partitions_threeFunctions :
    ((threeFunctions.LowSections → ∃ out, threeFunctions.discoverFunctions 8 = some out) ∧
      ∀ out, threeFunctions.discoverFunctions 8 = some out →
        threeFunctions.PartitionsCode out) := by
  have hrun : threeFunctions.discoverFunctions 8 =
      some [⟨0x1000, 0x1006, 6, "entry", [], by decide⟩,
        ⟨0x1010, 0x1011, 1, "pdata", [], by decide⟩,
        ⟨0x1020, 0x1022, 2, "call", [], by decide⟩] := by decide
  have hseeds : ∀ s, threeFunctions.Opens s → s ∈ [0x1000, 0x1005, 0x1010, 0x1020] := by
    intro s hs
    rw [Opens] at hs
    have hseed := hs.1.1
    simp only [Seed, sectionSeeds, exportSeeds, entrySeeds, threeFunctions, textImage,
      textSection] at hseed
    simp at hseed ⊢
    omega
  have hguess : ∀ s ∈ [0x1000, 0x1005, 0x1010, 0x1020],
      threeFunctions.guessFunctionEnd s ≠ none := by decide
  have hclear : ∀ s ∈ [0x1000, 0x1005, 0x1010, 0x1020], ∀ e ∈ threeFunctions.exceptions,
      s < e.begin → threeFunctions.reach s ≤ e.begin := by decide
  refine (discovery_partitions_iff (by simp [DisjointRanges, threeFunctions]) ?_).mpr ⟨?_, ?_⟩
  · intro out hout
    rw [hrun, Option.some.injEq] at hout
    rw [← hout]
    decide
  · exact fun _ s hs => hguess s (hseeds s hs)
  · exact fun _ s hs e he _ => hclear s (hseeds s hs) e he

/-- A thunk that jumps away, and a function with an unwind entry after it. -/
def thunkThenFunction : Binary where
  image := textImage
  instructions :=
    [⟨0x1000, 5, "jmp", false, true, false, some 0x9000, Nat.succ_pos 4,
        (by decide : 0x1005 < 2 ^ 64)⟩,
      ⟨0x1010, 1, "nop", false, false, false, none, Nat.one_pos, (by decide : 0x1011 < 2 ^ 64)⟩,
      ⟨0x1011, 1, "ret", false, false, true, none, Nat.one_pos, (by decide : 0x1012 < 2 ^ 64)⟩]
  exceptions := [⟨0x1010, 0x1012, 0, 0x1010, 0x1012, 0, by decide⟩]
  exports := []
  directCodeTargets := []

/-- The thunk's guessed end is that of the function, which is not reported. -/
theorem thunk_hides_function :
    DisjointRanges thunkThenFunction.exceptions ∧
      thunkThenFunction.discoverFunctions 8 =
        some [⟨0x1000, 0x1012, 0x12, "entry", [], by decide⟩] ∧
      ¬ ∀ out, thunkThenFunction.discoverFunctions 8 = some out →
        thunkThenFunction.PartitionsCode out := by
  have hrun : thunkThenFunction.discoverFunctions 8 =
      some [⟨0x1000, 0x1012, 0x12, "entry", [], by decide⟩] := by decide +kernel
  refine ⟨by simp [DisjointRanges, thunkThenFunction], hrun, fun h => ?_⟩
  obtain ⟨f, hf, hstart, _⟩ := (h _ hrun).unwind _ (List.mem_singleton_self _) (by decide +kernel)
  rw [List.mem_singleton.mp hf] at hstart
  exact absurd hstart (by decide)

end Binary

end Axe.Static
