import Axe.Lib.Separators
import Axe.Lib.SmtScript
import Axe.Lib.StableSort
import Axe.Trace.Event

/-!
# The map of loaded modules

A load adds its record to those of the process and sorts them by base address, an unload drops
the records of its base. What is looked up is the first record that contains the address, what
was loaded is a matter of the loads that no later load or unload of their base undoes.
-/
namespace Axe.Trace

def saturatingAdd (a b : BitVec 64) : BitVec 64 :=
  BitVec.ofNat 64 (min (a.toNat + b.toNat) (2 ^ 64 - 1))

def saturatingSub (a b : BitVec 64) : BitVec 64 := BitVec.ofNat 64 (a.toNat - b.toNat)

structure LoadedModule where
  name : String
  base : BitVec 64
  size : BitVec 64
  deriving DecidableEq

namespace LoadedModule

def contains (m : LoadedModule) (va : BitVec 64) : Bool :=
  decide (m.base ≤ va) && decide (va < saturatingAdd m.base m.size)

def offsetOf (m : LoadedModule) (va : BitVec 64) : BitVec 64 := saturatingSub va m.base

end LoadedModule

/-- The records of each process, sorted by base. -/
structure SymbolicateState where
  byPid : BitVec 32 → Option (List LoadedModule)

namespace SymbolicateState

def new : SymbolicateState := ⟨fun _ => none⟩

def setList (state : SymbolicateState) (pid : BitVec 32) (list : List LoadedModule) :
    SymbolicateState :=
  ⟨fun p => if p = pid then some list else state.byPid p⟩

end SymbolicateState

/-- A record needs a base address. -/
def moduleFromEvent (event : TraceEvent) : Option LoadedModule :=
  event.object.bind fun obj =>
    let name := obj.name.getD obj.id
    let base := ((event.arg "image_base").bind ArgValue.asU64).getD 0#64
    let size := ((event.arg "image_size").bind ArgValue.asU64).getD 0#64
    if base = 0#64 ∧ size = 0#64 then none else some ⟨name, base, size⟩

def applyImageEvent (state : SymbolicateState) (event : TraceEvent) : SymbolicateState :=
  match event.eventType with
  | .imageLoad => (moduleFromEvent event).elim state fun module =>
    let list := (state.byPid event.pid).getD []
    state.setList event.pid (sortBy (fun m => m.base.toNat) (list ++ [module]))
  | .imageUnload => (moduleFromEvent event).elim state fun module =>
    (state.byPid event.pid).elim state fun list =>
      state.setList event.pid (list.filter fun m => m.base ≠ module.base)
  | _ => state

def applyImageEvents (events : List TraceEvent) : SymbolicateState :=
  events.foldl applyImageEvent .new

def locationText (name : String) (offset : Nat) : String :=
  name ++ ":" ++ String.ofList ('0' :: 'x' :: Nat.toDigits 16 offset)

def resolveVa (state : SymbolicateState) (pid : BitVec 32) (va : BitVec 64) : Option String :=
  (state.byPid pid).bind fun mods =>
    (mods.find? fun m => m.contains va).map fun m => locationText m.name (m.offsetOf va).toNat

/-- What an event does to the modules of its process. -/
inductive ImageChange
  | load (module : LoadedModule)
  | unload (module : LoadedModule)
  deriving DecidableEq

def imageChange (pid : BitVec 32) (event : TraceEvent) : Option ImageChange :=
  if event.pid = pid then
    match event.eventType with
    | .imageLoad => (moduleFromEvent event).map .load
    | .imageUnload => (moduleFromEvent event).map .unload
    | _ => none
  else none

def imageChanges (pid : BitVec 32) (events : List TraceEvent) : List ImageChange :=
  events.filterMap (imageChange pid)

/-- The loads since the last unload of their base, in the order they came in. -/
def keep (records : List LoadedModule) : ImageChange → List LoadedModule
  | .load module => records ++ [module]
  | .unload module => records.filter fun m => m.base ≠ module.base

def kept (changes : List ImageChange) : List LoadedModule := changes.foldl keep []

/-- The loaded modules, the latest first. A load replaces the module at its base. -/
def enter (modules : List LoadedModule) : ImageChange → List LoadedModule
  | .load module => module :: modules.filter fun m => m.base ≠ module.base
  | .unload module => modules.filter fun m => m.base ≠ module.base

def live (changes : List ImageChange) : List LoadedModule := changes.foldl enter []

/-- An address is in a module that does not wrap around. -/
def LoadedModule.covers (m : LoadedModule) (va : BitVec 64) : Bool :=
  decide (m.base.toNat ≤ va.toNat) && decide (va.toNat - m.base.toNat < m.size.toNat)

/-- An address resolves to the latest of the loaded modules that cover it. -/
def Tracks (events : List TraceEvent) (pid : BitVec 32) (va : BitVec 64) : Prop :=
  resolveVa (applyImageEvents events) pid va =
    ((live (imageChanges pid events)).find? fun m => m.covers va).map
      fun m => locationText m.name (va.toNat - m.base.toNat)

/-- No loaded module reaches the last address. -/
def NoneAtTop (events : List TraceEvent) (pid : BitVec 32) : Prop :=
  ∀ m ∈ live (imageChanges pid events), m.base.toNat + m.size.toNat < 2 ^ 64

/-- The first load of the lowest base that contains an address agrees with the latest of the
loaded modules that cover it. -/
def LowestIsLatest (events : List TraceEvent) (pid : BitVec 32) (va : BitVec 64) : Prop :=
  ∀ first, Foremost (fun m => m.base.toNat)
      ((kept (imageChanges pid events)).filter fun m => m.contains va) first →
    ∃ latest, (live (imageChanges pid events)).find? (fun m => m.covers va) = some latest ∧
      latest.name = first.name ∧ latest.base = first.base

section Records
variable {state : SymbolicateState} {events : List TraceEvent} {pid : BitVec 32} {va : BitVec 64}
  {m : LoadedModule} {records modules : List LoadedModule} {changes : List ImageChange}

theorem byPid_setList (state : SymbolicateState) (p pid : BitVec 32) (list : List LoadedModule) :
    (state.setList p list).byPid pid = if pid = p then some list else state.byPid pid := rfl

/-- The list of a process sorts the loads that no later unload undoes. -/
theorem sorts_applyImageEvent (event : TraceEvent)
    (h : Sorts (fun m => m.base.toNat) ((state.byPid pid).getD []) records) :
    Sorts (fun m => m.base.toNat) (((applyImageEvent state event).byPid pid).getD [])
      ((imageChange pid event).elim records (keep records)) := by
  rcases eq_or_ne event.pid pid with rfl | hpid
  · rw [imageChange, if_pos rfl]
    cases htype : event.eventType with
    | imageLoad =>
      cases hmodule : moduleFromEvent event with
      | none => simpa only [applyImageEvent, htype, hmodule, Option.elim_none, Option.map_none]
      | some module =>
        simp only [applyImageEvent, htype, hmodule, Option.elim_some, Option.map_some,
          byPid_setList, if_true, Option.getD_some]
        exact h.push module
    | imageUnload =>
      cases hmodule : moduleFromEvent event with
      | none => simpa only [applyImageEvent, htype, hmodule, Option.elim_none, Option.map_none]
      | some module =>
        cases hlist : state.byPid event.pid with
        | none =>
          rw [hlist] at h
          simp only [applyImageEvent, htype, hmodule, Option.elim_some, Option.map_some, hlist,
            Option.elim_none]
          exact h.filter fun m => m.base ≠ module.base
        | some list =>
          rw [hlist] at h
          simp only [applyImageEvent, htype, hmodule, Option.elim_some, Option.map_some, hlist,
            byPid_setList, if_true, Option.getD_some]
          exact h.filter fun m => m.base ≠ module.base
    | _ => simpa only [applyImageEvent, htype, Option.elim_none]
  · have hother : (applyImageEvent state event).byPid pid = state.byPid pid := by
      have hset : ∀ list, (state.setList event.pid list).byPid pid = state.byPid pid :=
        fun list => if_neg hpid.symm
      cases htype : event.eventType with
      | imageLoad => cases hmodule : moduleFromEvent event <;> simp [applyImageEvent, *]
      | imageUnload =>
        cases hmodule : moduleFromEvent event <;> cases hlist : state.byPid event.pid <;>
          simp [applyImageEvent, *]
      | _ => simp only [applyImageEvent, htype]
    rw [hother, imageChange, if_neg hpid, Option.elim_none]
    exact h

theorem sorts_applyImageEvents (events : List TraceEvent) (pid : BitVec 32) :
    Sorts (fun m => m.base.toNat) (((applyImageEvents events).byPid pid).getD [])
      (kept (imageChanges pid events)) := by
  have hfold : ∀ (events : List TraceEvent) (state : SymbolicateState) records,
      Sorts (fun m : LoadedModule => m.base.toNat) ((state.byPid pid).getD []) records →
        Sorts (fun m => m.base.toNat) (((events.foldl applyImageEvent state).byPid pid).getD [])
          ((imageChanges pid events).foldl keep records) := by
    intro events
    induction events with
    | nil => exact fun _ _ h => h
    | cons event events ih =>
      intro state records h
      have hnext := ih _ _ (sorts_applyImageEvent event h)
      rw [List.foldl_cons, imageChanges, List.filterMap_cons]
      cases hchange : imageChange pid event with
      | none =>
        rw [hchange] at hnext
        exact hnext
      | some change =>
        rw [hchange] at hnext
        exact hnext
  exact hfold events .new [] sorts_nil

/-- A loaded module is one of the records. -/
theorem mem_kept_of_live (h : m ∈ live changes) : m ∈ kept changes := by
  have hfold : ∀ (changes : List ImageChange) modules records,
      (∀ m ∈ modules, m ∈ records) →
        ∀ m ∈ changes.foldl enter modules, m ∈ changes.foldl keep records := by
    intro changes
    induction changes with
    | nil => exact fun _ _ h => h
    | cons change changes ih =>
      intro modules records hsub
      refine ih _ _ fun m hm => ?_
      cases change with
      | load module =>
        rcases List.mem_cons.mp hm with rfl | hm
        · exact List.mem_append_right _ (List.mem_singleton_self _)
        · exact List.mem_append_left _ (hsub m (List.mem_filter.mp hm).1)
      | unload module =>
        rw [enter, List.mem_filter] at hm
        exact List.mem_filter.mpr ⟨hsub m hm.1, hm.2⟩
  exact hfold changes [] [] (fun _ hm => hm) m h

end Records

section Lookup
variable {events : List TraceEvent} {pid : BitVec 32} {va : BitVec 64} {m f : LoadedModule}
  {name name' : String} {offset offset' : Nat}

theorem locationText_inj (h : locationText name offset = locationText name' offset') :
    name = name' ∧ offset = offset' := by
  have hcolon : ∀ n, ':' ∉ '0' :: 'x' :: Nat.toDigits 16 n := fun n hmem => by
    rcases List.mem_cons.mp hmem with heq | hmem
    · exact absurd heq (by decide)
    rcases List.mem_cons.mp hmem with heq | hmem
    · exact absurd heq (by decide)
    · exact absurd (Smt.isHexDigit_toDigits n ':' hmem) (by decide)
  have hlist := congrArg String.toList h
  simp only [locationText, String.toList_append, String.toList_ofList, List.append_assoc] at hlist
  obtain ⟨hname, hdigits⟩ := eq_and_eq_of_append_cons (hcolon offset) (hcolon offset') hlist
  refine ⟨String.toList_inj.mp hname, ?_⟩
  rw [← Smt.hexValue_toDigits offset, (List.cons.inj (List.cons.inj hdigits).2).2,
    Smt.hexValue_toDigits]

theorem contains_iff : m.contains va = true ↔ m.covers va = true ∧ va.toNat < 2 ^ 64 - 1 := by
  have hva := va.isLt
  have hbase := m.base.isLt
  have hsize := m.size.isLt
  simp only [LoadedModule.contains, LoadedModule.covers, saturatingAdd, Bool.and_eq_true,
    decide_eq_true_iff, BitVec.le_def, BitVec.lt_def, BitVec.toNat_ofNat]
  omega

/-- The module an address resolves to is the first of the lowest base that contains it. -/
theorem resolveVa_eq (events : List TraceEvent) (pid : BitVec 32) (va : BitVec 64) :
    ∃ found : Option LoadedModule,
      (∀ f, found = some f ↔ Foremost (fun m => m.base.toNat)
        ((kept (imageChanges pid events)).filter fun m => m.contains va) f) ∧
      resolveVa (applyImageEvents events) pid va =
        found.map fun m => locationText m.name (va.toNat - m.base.toNat) := by
  have hsorts := (sorts_applyImageEvents events pid).filter fun m => m.contains va
  refine ⟨_, fun f => hsorts.head?_eq_some, ?_⟩
  have htext : ∀ m : LoadedModule,
      (m.offsetOf va).toNat = va.toNat - m.base.toNat := fun m => by
    have hva := va.isLt
    rw [LoadedModule.offsetOf, saturatingSub, BitVec.toNat_ofNat]
    omega
  rw [List.head?_filter, resolveVa]
  cases (applyImageEvents events).byPid pid with
  | none => rfl
  | some mods => simp only [htext, Option.bind_some, Option.getD_some]

theorem tracks_iff (hbelow : va.toNat < 2 ^ 64 - 1) :
    Tracks events pid va ↔ LowestIsLatest events pid va := by
  obtain ⟨found, hfound, heq⟩ := resolveVa_eq events pid va
  have hcontains : ∀ m : LoadedModule, m.contains va = m.covers va := fun m => by
    rw [Bool.eq_iff_iff, contains_iff, and_iff_left hbelow]
  rw [Tracks, heq]
  cases found with
  | none =>
    have hnone : (live (imageChanges pid events)).find? (fun m => m.covers va) = none := by
      refine List.find?_eq_none.mpr fun m hm hcovers => ?_
      have hmem : m ∈ (kept (imageChanges pid events)).filter fun m => m.contains va :=
        List.mem_filter.mpr ⟨mem_kept_of_live hm, (hcontains m).trans hcovers⟩
      obtain ⟨f, hf⟩ := exists_foremost (fun m : LoadedModule => m.base.toNat) hmem
      cases (hfound f).mpr hf
    refine iff_of_true (by rw [hnone]) fun f hf => ?_
    cases (hfound f).mpr hf
  | some f =>
    have hf := (hfound f).mp rfl
    have hle : f.base.toNat ≤ va.toNat := by
      have hmem := (List.mem_filter.mp hf.mem).2
      rw [hcontains, LoadedModule.covers, Bool.and_eq_true, decide_eq_true_iff] at hmem
      exact hmem.1
    have hunique : LowestIsLatest events pid va ↔ ∃ latest,
        (live (imageChanges pid events)).find? (fun m => m.covers va) = some latest ∧
          latest.name = f.name ∧ latest.base = f.base :=
      ⟨fun h => h f hf, fun h f' hf' => hf.unique hf' ▸ h⟩
    rw [hunique]
    constructor
    · intro htext
      obtain ⟨latest, hlatest, hsame⟩ := Option.map_eq_some_iff.mp htext.symm
      obtain ⟨hname, hoffset⟩ := locationText_inj hsame
      have hcovers := List.find?_some hlatest
      rw [LoadedModule.covers, Bool.and_eq_true, decide_eq_true_iff] at hcovers
      exact ⟨latest, hlatest, hname, BitVec.eq_of_toNat_eq (by omega)⟩
    · rintro ⟨latest, hlatest, hname, hbase⟩
      rw [hlatest, Option.map_some, Option.map_some, hname, hbase]

/-- The last address resolves to nothing. -/
theorem tracks_last_iff (htop : va.toNat = 2 ^ 64 - 1) :
    Tracks events pid va ↔ NoneAtTop events pid := by
  obtain ⟨found, hfound, heq⟩ := resolveVa_eq events pid va
  have hnone : found = none := by
    refine Option.eq_none_iff_forall_ne_some.mpr fun f hf => ?_
    have hmem := (List.mem_filter.mp ((hfound f).mp hf).mem).2
    exact absurd (contains_iff.mp hmem).2 (by omega)
  have hcovers : ∀ m : LoadedModule,
      m.covers va = true ↔ ¬ m.base.toNat + m.size.toNat < 2 ^ 64 := fun m => by
    have hbase := m.base.isLt
    rw [LoadedModule.covers, Bool.and_eq_true, decide_eq_true_iff, decide_eq_true_iff]
    omega
  rw [Tracks, heq, hnone, Option.map_none, eq_comm, Option.map_eq_none_iff, List.find?_eq_none,
    NoneAtTop]
  exact forall₂_congr fun m _ => (not_congr (hcovers m)).trans not_not

theorem resolveVa_tracks_iff (events : List TraceEvent) :
    (∀ pid va, Tracks events pid va) ↔
      ∀ pid, NoneAtTop events pid ∧ ∀ va, LowestIsLatest events pid va := by
  refine forall_congr' fun pid => ?_
  have hlast : (BitVec.allOnes 64).toNat = 2 ^ 64 - 1 := by decide
  constructor
  · refine fun h => ⟨(tracks_last_iff hlast).mp (h _), fun va => ?_⟩
    by_cases hbelow : va.toNat < 2 ^ 64 - 1
    · exact (tracks_iff hbelow).mp (h va)
    · intro f hf
      exact absurd (contains_iff.mp (List.mem_filter.mp hf.mem).2).2 hbelow
  · rintro ⟨htop, hall⟩ va
    by_cases hbelow : va.toNat < 2 ^ 64 - 1
    · exact (tracks_iff hbelow).mpr (hall va)
    · have hva := va.isLt
      exact (tracks_last_iff (by omega)).mpr htop

end Lookup

def image (eventType : EventType) (name : String) (base size : BitVec 64) : TraceEvent :=
  ⟨"evt_1", 100, 4210, none, eventType, "op", ⟨.process, "proc:4210@t", none⟩,
    some ⟨.module, "module:" ++ name, some name⟩,
    [("image_base", .number base), ("image_size", .number size)]⟩

/-- The second record for the base does not replace the first one. -/
theorem reloaded_keeps_name :
    ¬ Tracks [image .imageLoad "a.dll" 0x10000 0x1000, image .imageLoad "b.dll" 0x10000 0x1000]
      4210 0x10123 := by
  rw [tracks_iff (by decide)]
  intro h
  obtain ⟨latest, hlatest, hname, -⟩ := h ⟨"a.dll", 0x10000, 0x1000⟩
    ⟨[], [⟨"b.dll", 0x10000, 0x1000⟩], by decide, by simp, by decide⟩
  have hb : latest = ⟨"b.dll", 0x10000, 0x1000⟩ := Option.some.inj (hlatest.symm.trans (by decide))
  rw [hb] at hname
  exact absurd hname (by decide)

end Axe.Trace
