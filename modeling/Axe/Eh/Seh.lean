import Mathlib.Data.List.Forall2
import Axe.Eh.Fh3

/-!
# The scope tables of `__C_specific_handler`

A record without a jump target is a termination handler, and one with a jump target a filter, for
which the address 1 stands for the filter that is always true. The parser asks for the address 1
where the convention asks for the missing jump target, so it decodes just the tables in which
every record has a jump target and a filter of its own.
-/
namespace Axe.Eh.Seh

open Checked (Fault add)
open Axe.Pe (PEImage fileOf leBytes)
open Axe.Static (ExceptionRecord)

def finallySentinel : Nat := 1

structure ScopeTableEntry where
  beginRva : Nat
  endRva : Nat
  handlerRva : Nat
  jumpTargetRva : Nat
  deriving DecidableEq

def ScopeTableEntry.isFinally (entry : ScopeTableEntry) : Bool :=
  entry.handlerRva == finallySentinel

/-- A handler of the kind of a filter. -/
structure FilterHandler where
  handlerVa : Nat
  adjectives : Nat
  frameOffset : Option Int
  continuationVa : Option Nat
  deriving DecidableEq

structure CleanupAction where
  regionBeginVa : Nat
  regionEndVa : Nat
  landingPadVa : Option Nat
  unwindHandlerVa : Option Nat
  stateFrom : Option Int
  stateTo : Option Int
  deriving DecidableEq

structure Scopes where
  tryRegions : List TryRegion
  catchHandlers : List FilterHandler
  cleanupActions : List CleanupAction
  deriving DecidableEq

structure SehFunctionFact extends Scopes where
  functionVa : Nat
  functionEndVa : Nat
  gsHandler : Bool
  personality : Option String
  personalityVa : Option Nat
  unwindRanges : List UnwindRange
  evidence : List EvidenceRef
  deriving DecidableEq

/-- The scope table stands behind the cookie offset, when there is one. -/
def scopeOffset (langOffset : Nat) (hasGsCookie : Bool) : Option Nat :=
  if hasGsCookie then if langOffset + 4 < 2 ^ 64 then some (langOffset + 4) else none
  else some langOffset

def scopeTableEntry (bytes : List UInt8) (base : Nat) : Except Fault ScopeTableEntry := do
  return {
    beginRva := ← readU32 bytes base
    endRva := ← readField bytes base 4
    handlerRva := ← readField bytes base 8
    jumpTargetRva := ← readField bytes base 12 }

def parseScopeTable (bytes : List UInt8) (offset : Nat) : Except Fault (List ScopeTableEntry) := do
  let tableStart ← add 64 offset 4
  if bytes.length < tableStart then absent
  else
    let count ← readU32 bytes offset
    if 4096 < count then absent
    else
      let tableBytes := min (count * 16) (2 ^ 64 - 1)
      if bytes.length < (← add 64 tableStart tableBytes) then absent
      else (List.range count).mapM fun i => do scopeTableEntry bytes (← add 64 tableStart (i * 16))

variable (image : PEImage)

def cleanupAction (entry : ScopeTableEntry) : CleanupAction where
  regionBeginVa := vaOf image entry.beginRva
  regionEndVa := vaOf image entry.endRva
  landingPadVa := some (vaOf image entry.jumpTargetRva)
  unwindHandlerVa := none
  stateFrom := none
  stateTo := none

def filterRegion (handlerIdx : Nat) (entry : ScopeTableEntry) : TryRegion where
  tryBeginVa := vaOf image entry.beginRva
  tryEndVa := vaOf image entry.endRva
  tryStateLow := none
  tryStateHigh := none
  callSiteIndex := none
  catchHandlerIndices := [handlerIdx]

def filterHandler (entry : ScopeTableEntry) : FilterHandler where
  handlerVa := vaOf image entry.handlerRva
  adjectives := 0
  frameOffset := none
  continuationVa := some (vaOf image entry.jumpTargetRva)

/-- One round of the loop over the records. -/
def addEntry (found : Scopes) (entry : ScopeTableEntry) : Scopes :=
  if entry.isFinally then
    { found with cleanupActions := found.cleanupActions ++ [cleanupAction image entry] }
  else
    { found with
      tryRegions := found.tryRegions ++ [filterRegion image found.catchHandlers.length entry]
      catchHandlers := found.catchHandlers ++ [filterHandler image entry] }

def scopesOf (entries : List ScopeTableEntry) : Scopes :=
  entries.foldl (addEntry image) ⟨[], [], []⟩

def parseSeh (exc : ExceptionRecord) (unwind : UnwindInfo) (personality : Personality)
    (hasGsCookie : Bool) : Except Fault SehFunctionFact := do
  let langOffset ← present unwind.languageSpecificDataOffset
  let offset ← present (scopeOffset langOffset hasGsCookie)
  let entries ← parseScopeTable image.bytes offset
  return {
    scopesOf image entries with
    functionVa := exc.begin
    functionEndVa := exc.stop
    gsHandler := hasGsCookie
    personality := personality.name
    personalityVa := personality.va
    unwindRanges := [⟨exc.begin, exc.stop⟩]
    evidence := [.sectionAt ".pdata" exc.begin, .rawAddr (vaOf image offset)] }

/-- The record of sixteen bytes at an offset. -/
def recordAt (bytes : List UInt8) (base : Nat) : ScopeTableEntry where
  beginRva := fieldAt bytes base
  endRva := fieldAt bytes (base + 4)
  handlerRva := fieldAt bytes (base + 8)
  jumpTargetRva := fieldAt bytes (base + 12)

/-- A file that holds a scope table at an offset. -/
structure HoldsTable (bytes : List UInt8) (offset : Nat) (records : List ScopeTableEntry) :
    Prop where
  count : fieldAt bytes offset = records.length
  inside : offset + 4 + records.length * 16 ≤ bytes.length
  records : records = (List.range records.length).map fun i => recordAt bytes (offset + 4 + i * 16)

def Terminates (record : ScopeTableEntry) : Bool := record.jumpTargetRva == 0

/-- An action for a termination handler, which one of its two addresses names. -/
structure CleansUp (record : ScopeTableEntry) (action : CleanupAction) : Prop where
  region : action.regionBeginVa = vaOf image record.beginRva ∧
    action.regionEndVa = vaOf image record.endRva
  handler : action.unwindHandlerVa = some (vaOf image record.handlerRva) ∨
    action.landingPadVa = some (vaOf image record.handlerRva)

structure Guards (record : ScopeTableEntry) (region : TryRegion) : Prop where
  region : region.tryBeginVa = vaOf image record.beginRva ∧
    region.tryEndVa = vaOf image record.endRva

structure Filters (record : ScopeTableEntry) (handler : FilterHandler) : Prop where
  continuation : handler.continuationVa = some (vaOf image record.jumpTargetRva)
  filter : record.handlerRva ≠ 1 → handler.handlerVa = vaOf image record.handlerRva

/-- What the runtime executes: an action for every termination handler, and for every other record
a region with its own handler. -/
structure Decodes (records : List ScopeTableEntry) (scopes : Scopes) : Prop where
  cleanups : List.Forall₂ (CleansUp image) (records.filter Terminates) scopes.cleanupActions
  regions : List.Forall₂ (Guards image) (records.filter fun r => !Terminates r) scopes.tryRegions
  handlers : List.Forall₂ (Filters image) (records.filter fun r => !Terminates r)
    scopes.catchHandlers
  own : ∀ (i : Nat) (region : TryRegion), scopes.tryRegions[i]? = some region →
    region.catchHandlerIndices = [i]

section
variable {image : PEImage} {bytes : List UInt8} {offset base : Nat}
  {records entries : List ScopeTableEntry} {exc : ExceptionRecord} {unwind : UnwindInfo}
  {personality : Personality} {hasGsCookie : Bool}

theorem scopeTableEntry_eq (h : base + 16 ≤ bytes.length) (hfits : base + 16 < 2 ^ 64) :
    scopeTableEntry bytes base = .ok (recordAt bytes base) := by
  rw [scopeTableEntry, readU32_eq (by omega) (by omega), readField_eq (by omega) (by omega),
    readField_eq (by omega) (by omega), readField_eq (by omega) (by omega)]
  rfl

/-- The records behind a count that fits are read. -/
theorem mapM_records {count : Nat} (hoffset : offset < 2 ^ 35) (hcount : count ≤ 4096)
    (hinside : offset + 4 + count * 16 ≤ bytes.length) :
    ((List.range count).mapM fun i => do
      scopeTableEntry bytes (← add 64 (offset + 4) (i * 16))) =
        .ok ((List.range count).map fun i => recordAt bytes (offset + 4 + i * 16)) := by
  have hentry : ∀ i ∈ List.range count, (do
      scopeTableEntry bytes (← add 64 (offset + 4) (i * 16))) =
        (pure (recordAt bytes (offset + 4 + i * 16)) : Except Fault ScopeTableEntry) := by
    intro i hi
    have hlt := List.mem_range.mp hi
    rw [Checked.add_eq_ok.mpr ⟨by omega, rfl⟩]
    exact scopeTableEntry_eq (by omega) (by omega)
  exact (Checked.mapM_congr hentry).trans List.mapM_pure

/-- A table of at most 4096 records is read, and nothing else. -/
theorem parseScopeTable_cases (hoffset : offset < 2 ^ 35) :
    parseScopeTable bytes offset = absent ∧
        (∀ records, HoldsTable bytes offset records → 4096 < records.length) ∨
      ∃ records, parseScopeTable bytes offset = .ok records ∧ HoldsTable bytes offset records ∧
        records.length ≤ 4096 := by
  have hadd : add 64 offset 4 = .ok (offset + 4) := Checked.add_eq_ok.mpr ⟨by omega, rfl⟩
  rw [parseScopeTable, hadd]
  dsimp only [bind, Except.bind]
  by_cases hshort : bytes.length < offset + 4
  · rw [if_pos hshort]
    refine .inl ⟨rfl, fun records hheld => ?_⟩
    have hinside := hheld.inside
    omega
  rw [if_neg hshort, readU32_eq (by omega) (by omega)]
  dsimp only [Except.bind]
  by_cases hcount : 4096 < fieldAt bytes offset
  · rw [if_pos hcount]
    exact .inl ⟨rfl, fun records hheld => hheld.count ▸ hcount⟩
  have hmin : min (fieldAt bytes offset * 16) (2 ^ 64 - 1) = fieldAt bytes offset * 16 := by omega
  rw [if_neg hcount, hmin, Checked.add_eq_ok.mpr ⟨by omega, rfl⟩]
  dsimp only [Except.bind]
  by_cases hlong : bytes.length < offset + 4 + fieldAt bytes offset * 16
  · rw [if_pos hlong]
    refine .inl ⟨rfl, fun records hheld => ?_⟩
    have hinside := hheld.inside
    rw [← hheld.count] at hinside
    omega
  · rw [if_neg hlong]
    have hread := mapM_records hoffset (by omega) (Nat.le_of_not_lt hlong)
    refine .inr ⟨_, hread, ?_, ?_⟩
    · constructor
      · rw [List.length_map, List.length_range]
      · rw [List.length_map, List.length_range]
        omega
      · rw [List.length_map, List.length_range]
    · rw [List.length_map, List.length_range]
      omega

theorem HoldsTable.unique {records' : List ScopeTableEntry} (h : HoldsTable bytes offset records)
    (h' : HoldsTable bytes offset records') : records = records' := by
  rw [h.records, h'.records, ← h.count, h'.count]

theorem HoldsTable.lt (h : HoldsTable bytes offset records) {r : ScopeTableEntry}
    (hr : r ∈ records) : r.handlerRva < 2 ^ 32 ∧ r.jumpTargetRva < 2 ^ 32 := by
  rw [h.records] at hr
  obtain ⟨i, -, rfl⟩ := List.mem_map.mp hr
  exact ⟨fieldAt_lt, fieldAt_lt⟩

/-- The loop sorts the records by the address of the handler. -/
theorem foldl_addEntry (found : Scopes) (entries : List ScopeTableEntry) :
    entries.foldl (addEntry image) found =
      ⟨found.tryRegions ++ (entries.filter fun e => !e.isFinally).mapIdx fun i e =>
          filterRegion image (found.catchHandlers.length + i) e,
        found.catchHandlers ++ (entries.filter fun e => !e.isFinally).map (filterHandler image),
        found.cleanupActions ++
          (entries.filter ScopeTableEntry.isFinally).map (cleanupAction image)⟩ := by
  induction entries generalizing found with
  | nil => simp
  | cons e entries ih =>
    rw [List.foldl_cons, ih, addEntry]
    cases he : e.isFinally with
    | true => simp [he]
    | false => simp [he, List.mapIdx_cons, Nat.add_assoc, Nat.add_comm 1]

theorem scopesOf_eq (entries : List ScopeTableEntry) :
    scopesOf image entries =
      ⟨(entries.filter fun e => !e.isFinally).mapIdx (filterRegion image),
        (entries.filter fun e => !e.isFinally).map (filterHandler image),
        (entries.filter ScopeTableEntry.isFinally).map (cleanupAction image)⟩ := by
  rw [scopesOf, foldl_addEntry]
  simp only [List.nil_append, List.length_nil, Nat.zero_add]

theorem terminates_iff {r : ScopeTableEntry} : Terminates r = true ↔ r.jumpTargetRva = 0 :=
  beq_iff_eq

theorem isFinally_iff {r : ScopeTableEntry} : r.isFinally = true ↔ r.handlerRva = 1 := beq_iff_eq

theorem vaOf_inj {a b : Nat} (ha : a < 2 ^ 32) (hb : b < 2 ^ 32) (h : vaOf image a = vaOf image b) :
    a = b := by
  rw [vaOf, vaOf] at h
  omega

theorem forall₂_mapIdx {α β : Type} {R : α → β → Prop} {f : Nat → α → β} {l : List α}
    (h : ∀ i, ∀ a ∈ l, R a (f i a)) : List.Forall₂ R l (l.mapIdx f) := by
  induction l generalizing f with
  | nil => exact .nil
  | cons a l ih =>
    rw [List.mapIdx_cons]
    exact .cons (h 0 a List.mem_cons_self)
      (ih fun i b hb => h (i + 1) b (List.mem_cons_of_mem _ hb))

theorem exists_left_of_forall₂ {α β : Type} {R : α → β → Prop} {l : List α} {k : List β} {b : β}
    (h : List.Forall₂ R l k) (hb : b ∈ k) : ∃ a ∈ l, R a b := by
  induction h with
  | nil => exact absurd hb List.not_mem_nil
  | cons hab _ ih =>
    rcases List.mem_cons.mp hb with rfl | hb
    · exact ⟨_, List.mem_cons_self, hab⟩
    · obtain ⟨a, ha, hr⟩ := ih hb
      exact ⟨a, List.mem_cons_of_mem _ ha, hr⟩

/-- Records that all have a jump target and a filter of their own are decoded. -/
theorem decodes_of_filters (h : ∀ r ∈ records, r.jumpTargetRva ≠ 0 ∧ r.handlerRva ≠ 1) :
    Decodes image records (scopesOf image records) := by
  have hnot : ∀ r ∈ records, ¬ Terminates r = true ∧ ¬ r.isFinally = true := fun r hr =>
    ⟨fun ht => (h r hr).1 (terminates_iff.mp ht), fun hf => (h r hr).2 (isFinally_iff.mp hf)⟩
  have hnone : records.filter Terminates = [] :=
    List.filter_eq_nil_iff.mpr fun r hr => (hnot r hr).1
  have hnone' : records.filter ScopeTableEntry.isFinally = [] :=
    List.filter_eq_nil_iff.mpr fun r hr => (hnot r hr).2
  have hall : (records.filter fun r => !Terminates r) = records :=
    List.filter_eq_self.mpr fun r hr => by simpa using (hnot r hr).1
  have hall' : (records.filter fun r => !r.isFinally) = records :=
    List.filter_eq_self.mpr fun r hr => by simpa using (hnot r hr).2
  rw [scopesOf_eq, hnone', hall']
  constructor
  · rw [hnone]
    exact .nil
  · rw [hall]
    exact forall₂_mapIdx fun i r _ => ⟨⟨rfl, rfl⟩⟩
  · rw [hall, List.forall₂_map_right_iff]
    exact List.forall₂_same.mpr fun r _ => ⟨rfl, fun _ => rfl⟩
  · intro i region hregion
    rw [List.getElem?_mapIdx, Option.map_eq_some_iff] at hregion
    obtain ⟨r, -, rfl⟩ := hregion
    rfl

/-- In a table that is decoded the two ways to tell the records apart agree. -/
theorem isFinally_iff_of_decodes (hlt : ∀ r ∈ records, r.jumpTargetRva < 2 ^ 32)
    (h : Decodes image records (scopesOf image records)) :
    ∀ r ∈ records, r.isFinally = true ↔ Terminates r = true := by
  rw [scopesOf_eq] at h
  have hhandlers := List.forall₂_map_right_iff.mp h.handlers
  have htarget : ∀ c ∈ records, c.isFinally = false → Terminates c = false := by
    intro c hc hfinally
    have hmem : c ∈ records.filter fun e => !e.isFinally :=
      List.mem_filter.mpr ⟨hc, by rw [hfinally]; rfl⟩
    obtain ⟨r, hr, hfilters⟩ := exists_left_of_forall₂ hhandlers hmem
    obtain ⟨hr, hjump⟩ := List.mem_filter.mp hr
    have heq := vaOf_inj (hlt c hc) (hlt r hr) (Option.some.inj hfilters.continuation)
    have hne : ¬ Terminates r = true := by simpa using hjump
    rw [terminates_iff, ← heq, ← terminates_iff] at hne
    simpa using hne
  have hfilter : (records.filter fun r => !r.isFinally) =
      (records.filter fun r => !Terminates r).filter fun r => !r.isFinally := by
    rw [List.filter_filter]
    refine List.filter_congr fun r hr => ?_
    cases hf : r.isFinally with
    | true => rfl
    | false => rw [htarget r hr hf]; rfl
  have hsame := List.filter_sublist.eq_of_length
    ((congrArg List.length hfilter).symm.trans hhandlers.length_eq.symm)
  intro r hr
  constructor
  · intro hf
    by_contra ht
    have hmem : r ∈ records.filter fun r => !Terminates r :=
      List.mem_filter.mpr ⟨hr, by simpa using ht⟩
    have hf' := List.filter_eq_self.mp hsame r hmem
    rw [hf] at hf'
    cases hf'
  · intro ht
    by_contra hf
    rw [htarget r hr (by simpa using hf)] at ht
    cases ht

theorem decodes_iff (hlt : ∀ r ∈ records, r.handlerRva < 2 ^ 32 ∧ r.jumpTargetRva < 2 ^ 32) :
    Decodes image records (scopesOf image records) ↔
      ∀ r ∈ records, r.jumpTargetRva ≠ 0 ∧ r.handlerRva ≠ 1 := by
  refine ⟨fun h r hr => ?_, decodes_of_filters⟩
  have hiff := isFinally_iff_of_decodes (fun r hr => (hlt r hr).2) h
  have hnot : Terminates r ≠ true := by
    intro ht
    rw [scopesOf_eq] at h
    have hfilter : records.filter ScopeTableEntry.isFinally = records.filter Terminates :=
      List.filter_congr fun r hr => Bool.eq_iff_iff.mpr (hiff r hr)
    have hcleanups := List.forall₂_map_right_iff.mp h.cleanups
    rw [hfilter] at hcleanups
    -- the action of the record has the address of its jump target, which is zero
    have hclean := List.forall₂_same.mp hcleanups r (List.mem_filter.mpr ⟨hr, ht⟩)
    have hhandler := hclean.handler.resolve_left (by simp [cleanupAction])
    have heq := vaOf_inj (hlt r hr).2 (hlt r hr).1 (Option.some.inj hhandler)
    rw [terminates_iff.mp ht, isFinally_iff.mp ((hiff r hr).mpr ht)] at heq
    cases heq
  exact ⟨fun hjump => hnot (terminates_iff.mpr hjump),
    fun hhandler => hnot ((hiff r hr).mp (isFinally_iff.mpr hhandler))⟩

theorem scopeOffset_lt {langOffset : Nat} (hlang : langOffset < 2 ^ 34)
    (h : scopeOffset langOffset hasGsCookie = some offset) : offset < 2 ^ 35 := by
  rw [scopeOffset] at h
  split at h
  · split at h
    · cases h
      omega
    · cases h
  · cases h
    omega

/-- Either nothing is decoded, or what a table of at most 4096 records gives. -/
theorem parseSeh_cases {langOffset : Nat} (hlang : langOffset < 2 ^ 34)
    (hunwind : unwind.languageSpecificDataOffset = some langOffset)
    (hoffset : scopeOffset langOffset hasGsCookie = some offset) :
    parseSeh image exc unwind personality hasGsCookie = absent ∧
        (∀ records, HoldsTable image.bytes offset records → 4096 < records.length) ∨
      ∃ records fact, parseSeh image exc unwind personality hasGsCookie = .ok fact ∧
        fact.toScopes = scopesOf image records ∧ HoldsTable image.bytes offset records ∧
          records.length ≤ 4096 := by
  rw [parseSeh, hunwind]
  dsimp only [present, Option.elim_some, bind, Except.bind]
  rw [hoffset]
  dsimp only [present, Option.elim_some]
  rcases @parseScopeTable_cases image.bytes offset (scopeOffset_lt hlang hoffset) with
    ⟨hnone, hlong⟩ | ⟨records, hsome, hheld, hshort⟩
  · rw [hnone]
    exact .inl ⟨rfl, hlong⟩
  · rw [hsome]
    exact .inr ⟨records, _, rfl, rfl, hheld, hshort⟩

end

/-- The parse goes through without a panic on any file, and decodes a scope table just when it
has at most 4096 records, all with a jump target and none with the address 1 for its filter. -/
theorem parseSeh_decodes_iff (image : PEImage) (exc : ExceptionRecord) (unwind : UnwindInfo)
    (personality : Personality) (hasGsCookie : Bool) (himage : NarrowOffsets image)
    (hexc : exc.unwindRva < 2 ^ 32) (hunwind : parseUnwindInfo image exc = .ok unwind) :
    Checked.NoPanic (parseSeh image exc unwind personality hasGsCookie) ∧
    ∀ langOffset offset records, unwind.languageSpecificDataOffset = some langOffset →
      scopeOffset langOffset hasGsCookie = some offset → HoldsTable image.bytes offset records →
        ((∃ fact, parseSeh image exc unwind personality hasGsCookie = .ok fact ∧
            Decodes image records fact.toScopes) ↔
          records.length ≤ 4096 ∧ ∀ r ∈ records, r.jumpTargetRva ≠ 0 ∧ r.handlerRva ≠ 1) := by
  constructor
  · cases hlang : unwind.languageSpecificDataOffset with
    | none =>
      rw [parseSeh, hlang]
      exact noPanic_absent
    | some langOffset =>
      have hlt := parseUnwindInfo_lang himage hexc hunwind hlang
      cases hoffset : scopeOffset langOffset hasGsCookie with
      | none =>
        rw [parseSeh, hlang]
        dsimp only [present, Option.elim_some, bind, Except.bind]
        rw [hoffset]
        exact noPanic_absent
      | some offset =>
        rcases @parseSeh_cases image offset exc unwind personality hasGsCookie _ hlt hlang
          hoffset with ⟨hnone, -⟩ | ⟨_, fact, hsome, -⟩
        · rw [hnone]
          exact noPanic_absent
        · rw [hsome]
          exact Checked.noPanic_ok fact
  · intro langOffset offset records hlang hoffset hheld
    have hlt := parseUnwindInfo_lang himage hexc hunwind hlang
    rcases @parseSeh_cases image offset exc unwind personality hasGsCookie _ hlt hlang hoffset with
      ⟨hnone, hlong⟩ | ⟨records', fact, hsome, hscopes, hheld', hshort⟩
    · rw [hnone]
      refine iff_of_false (fun ⟨_, hfact, _⟩ => ?_) fun h => ?_
      · cases hfact
      · exact absurd (hlong records hheld) (Nat.not_lt.mpr h.1)
    · have hsame := hheld.unique hheld'
      subst hsame
      rw [hsome, ← @decodes_iff image records fun r hr => hheld.lt hr, ← hscopes]
      constructor
      · rintro ⟨fact', heq, hdecodes⟩
        cases heq
        exact ⟨hshort, hdecodes⟩
      · exact fun h => ⟨fact, rfl, h.2⟩

def recordBytes (r : ScopeTableEntry) : List UInt8 :=
  leBytes 4 r.beginRva ++ leBytes 4 r.endRva ++ leBytes 4 r.handlerRva ++ leBytes 4 r.jumpTargetRva

/-- A file with a scope table. -/
def tableImage (records : List ScopeTableEntry) : PEImage :=
  fileOf ([9, 0, 0, 0] ++ [0, 0, 0, 0] ++ leBytes 4 records.length ++ records.flatMap recordBytes)

def specificHandler : Personality := ⟨some "__C_specific_handler", some 0⟩

/-- A filter around another. -/
def filterRecords : List ScopeTableEntry :=
  [⟨0x1002, 0x1004, 0x2010, 0x100A⟩, ⟨0x1000, 0x1008, 0x2000, 0x1008⟩]

theorem parseSeh_decodes_filters :
    Checked.NoPanic
      (parseSeh (tableImage filterRecords) triesRecord triesUnwind specificHandler false) ∧
    ∃ fact, parseSeh (tableImage filterRecords) triesRecord triesUnwind specificHandler false =
      .ok fact ∧ Decodes (tableImage filterRecords) filterRecords fact.toScopes := by
  obtain ⟨hsafe, hdecodes⟩ :=
    parseSeh_decodes_iff (tableImage filterRecords) triesRecord triesUnwind specificHandler false
      (by unfold NarrowOffsets; decide) (by decide) (by decide +kernel)
  have hheld : HoldsTable (tableImage filterRecords).bytes 520 filterRecords :=
    ⟨by decide +kernel, by decide +kernel, by decide +kernel⟩
  exact ⟨hsafe, (hdecodes 520 520 filterRecords rfl rfl hheld).mpr ⟨by decide, by decide⟩⟩

/-- A termination handler. -/
def finallyRecords : List ScopeTableEntry := [⟨0x1000, 0x1008, 0x2000, 0⟩]

/-- The termination handler becomes a filter that continues at the base of the image. -/
theorem finally_not_decoded :
    parseUnwindInfo (tableImage finallyRecords) triesRecord = .ok triesUnwind ∧
    HoldsTable (tableImage finallyRecords).bytes 520 finallyRecords ∧
    ¬ ∃ fact, parseSeh (tableImage finallyRecords) triesRecord triesUnwind specificHandler false =
      .ok fact ∧ Decodes (tableImage finallyRecords) finallyRecords fact.toScopes := by
  have hheld : HoldsTable (tableImage finallyRecords).bytes 520 finallyRecords :=
    ⟨by decide +kernel, by decide +kernel, by decide +kernel⟩
  refine ⟨by decide +kernel, hheld, ?_⟩
  rintro ⟨fact, hfact, hdecodes⟩
  have hread : parseSeh (tableImage finallyRecords) triesRecord triesUnwind specificHandler false =
      .ok ⟨scopesOf (tableImage finallyRecords) finallyRecords, 0x140001000, 0x140001010, false,
        some "__C_specific_handler", some 0, [⟨0x140001000, 0x140001010⟩],
        [.sectionAt ".pdata" 0x140001000, .rawAddr 0x140000208]⟩ := by decide +kernel
  rw [hread] at hfact
  cases hfact
  exact Nat.succ_ne_zero 0 hdecodes.cleanups.length_eq

end Axe.Eh.Seh
