import Mathlib.Data.String.Basic
import Axe.Lib.Labels

/-!
# Recovered types

The storages of a function get C types: those that the data-flow edges are tagged with, those of
the arguments and results of the calls, what the edges carry on from there, and at last a type by
the width of the storage.
-/
namespace Axe.TypeRecovery

open Labels

structure SsaValue where
  storage : String

structure DataflowEdge where
  fromStorage : Option String
  toStorage : String
  typeTag : Option String

structure ApiFlow where
  api : String
  argumentRegister : Option String
  argumentIndex : Option Nat

structure Prototype where
  returnType : String
  args : List String

abbrev Types := OrderedMap String String

def toAsciiLowercase (s : String) : String := String.ofList (s.toList.map Char.toLower)

/-- The C spellings of some types of the Windows headers. -/
def winTypes : List (List String × String) :=
  [(["LPCWSTR", "LPWSTR"], "wchar_t *"), (["LPCSTR", "LPSTR"], "char *"),
    (["HANDLE", "HMODULE", "HWND", "HKEY"], "void *"), (["LPVOID", "PVOID", "PUCHAR"], "void *"),
    (["LPDWORD", "PDWORD"], "uint32_t *"), (["DWORD", "ULONG", "UINT"], "uint32_t"),
    (["WORD", "USHORT"], "uint16_t"), (["BYTE", "UCHAR"], "uint8_t"),
    (["BOOL", "BOOLEAN"], "uint32_t"), (["SIZE_T", "ULONGLONG", "ULONG64"], "uint64_t"),
    (["HRESULT", "NTSTATUS"], "int32_t"), (["LPSECURITY_ATTRIBUTES"], "void *"),
    (["SOCKADDR_PTR"], "void *")]

def winTypeToC (tag : String) : String :=
  ((winTypes.find? fun row => row.1.contains tag).map Prod.snd).getD tag

def widthTypes : List (List String × String) :=
  [(["rax", "rbx", "rcx", "rdx", "rsi", "rdi", "rsp", "rbp", "r8", "r9", "r10", "r11", "r12", "r13",
      "r14", "r15"], "uint64_t"),
    (["eax", "ebx", "ecx", "edx", "esi", "edi", "esp", "ebp", "r8d", "r9d", "r10d", "r11d", "r12d",
      "r13d", "r14d", "r15d"], "uint32_t"),
    (["ax", "bx", "cx", "dx", "si", "di", "sp", "bp", "r8w", "r9w", "r10w", "r11w", "r12w", "r13w",
      "r14w", "r15w"], "uint16_t"),
    (["al", "bl", "cl", "dl", "sil", "dil", "spl", "bpl", "r8b", "r9b", "r10b", "r11b", "r12b",
      "r13b", "r14b", "r15b"], "uint8_t")]

def defaultTypeForStorage (storage : String) : String :=
  let lower := toAsciiLowercase storage
  if lower.toList.head? = some '[' then "uint64_t"
  else ((widthTypes.find? fun row => row.1.contains lower).map Prod.snd).getD "uint64_t"

def seedTag (types : Types) (edge : DataflowEdge) : Types :=
  edge.typeTag.elim types fun tag => orInsert types edge.toStorage (winTypeToC tag)

def seedArgument (proto : Prototype) (types : Types) (flow : ApiFlow) : Types :=
  match flow.argumentRegister, flow.argumentIndex with
  | some reg, some idx =>
    proto.args[idx]?.elim types fun tag => orInsert types (toAsciiLowercase reg) (winTypeToC tag)
  | _, _ => types

/-- What the flows of one call give: they are of the API of the first of them. -/
def seedCall (prototype : String → Option Prototype) (types : Types) (flows : List ApiFlow) :
    Types :=
  (flows.head?.bind fun flow => prototype flow.api).elim types fun proto =>
    orInsert (flows.foldl (seedArgument proto) types) "rax" (winTypeToC proto.returnType)

def propagateEdge (state : Types × Bool) (edge : DataflowEdge) : Types × Bool :=
  edge.fromStorage.elim state fun fromStorage =>
    visit state (toAsciiLowercase fromStorage, toAsciiLowercase edge.toStorage)

def propagate (dataflow : List DataflowEdge) (types : Types) : Types :=
  Saturation.run (fun types => dataflow.foldl propagateEdge (types, false)) (dataflow.length + 1)
    types

def giveDefault (types : Types) (value : SsaValue) : Types :=
  orInsert types (toAsciiLowercase value.storage)
    (defaultTypeForStorage (toAsciiLowercase value.storage))

def recoverTypes (prototype : String → Option Prototype) (ssa : List SsaValue)
    (dataflow : List DataflowEdge) (flows : OrderedMap Nat (List ApiFlow)) : Types :=
  let tagged := dataflow.foldl seedTag OrderedMap.empty
  let called := (flows.rows.map Prod.snd).foldl (seedCall prototype) tagged
  ssa.foldl giveDefault (propagate dataflow called)

def tagSeeds (dataflow : List DataflowEdge) : List (String × String) :=
  dataflow.filterMap fun edge =>
    edge.typeTag.map fun tag => (toAsciiLowercase edge.toStorage, winTypeToC tag)

def argumentSeed (proto : Prototype) (flow : ApiFlow) : Option (String × String) :=
  flow.argumentRegister.bind fun reg => flow.argumentIndex.bind fun idx =>
    proto.args[idx]?.map fun tag => (toAsciiLowercase reg, winTypeToC tag)

def callSeeds (prototype : String → Option Prototype) (flows : List ApiFlow) :
    List (String × String) :=
  (flows.head?.bind fun flow => prototype flow.api).elim [] fun proto =>
    flows.filterMap (argumentSeed proto) ++ [("rax", winTypeToC proto.returnType)]

variable (prototype : String → Option Prototype) (dataflow : List DataflowEdge)
  (flows : OrderedMap Nat (List ApiFlow))

def seeds : List (String × String) :=
  tagSeeds dataflow ++ (flows.rows.map Prod.snd).flatMap (callSeeds prototype)

/-- The type that is seeded for a storage: the first one. -/
def seed (storage : String) : Option String :=
  ((seeds prototype dataflow flows).find? fun row => row.1 = storage).map Prod.snd

/-- The edges between storages, by their names in lower case. -/
def storageEdges : List (String × String) :=
  dataflow.filterMap fun edge => edge.fromStorage.map fun fromStorage =>
    (toAsciiLowercase fromStorage, toAsciiLowercase edge.toStorage)

/-- A type that a storage has from a seed that it can be reached from. -/
def Flows (storage type : String) : Prop :=
  ∃ source, seed prototype dataflow flows source = some type ∧
    Reaches (storageEdges dataflow) source storage

/-- The types are the fixed point of the seeds and the edges, with defaults for the rest. -/
structure Recovers (ssa : List SsaValue) (types : Types) : Prop where
  seeded : ∀ storage type, seed prototype dataflow flows storage = some type →
    types.get storage = some type
  closed : ∀ edge ∈ storageEdges dataflow,
    (∃ type, Flows prototype dataflow flows edge.1 type ∨
      types.get edge.1 = some type ∧ type ≠ defaultTypeForStorage edge.1) →
    ∃ type, types.get edge.2 = some type ∧ Flows prototype dataflow flows edge.2 type
  only : ∀ storage type, types.get storage = some type →
    Flows prototype dataflow flows storage type ∨
      type = defaultTypeForStorage storage ∧
        ∃ value ∈ ssa, toAsciiLowercase value.storage = storage
  names : ∀ storage type, types.get storage = some type → toAsciiLowercase storage = storage

variable {prototype : String → Option Prototype} {dataflow : List DataflowEdge}
  {flows : OrderedMap Nat (List ApiFlow)} {types : Types} {storage type : String}

def label (types : Types) (row : String × String) : Types := orInsert types row.1 row.2

theorem toLower_toLower (c : Char) : c.toLower.toLower = c.toLower := by
  by_cases h : 'A'.val ≤ c.val ∧ c.val ≤ 'Z'.val
  · have hval : c.toLower.val = c.val + 32 := by
      have hlower : c.toLower = ⟨c.val + 32, _⟩ := dif_pos h
      rw [hlower]
    refine dif_neg ?_
    rw [hval]
    obtain ⟨hle, hge⟩ := h
    simp only [UInt32.le_iff_toNat_le, UInt32.toNat_add] at hle hge ⊢
    have hA : 'A'.val.toNat = 65 := rfl
    have hZ : 'Z'.val.toNat = 90 := rfl
    have h32 : (32 : UInt32).toNat = 32 := rfl
    omega
  · have hsame : c.toLower = c := dif_neg h
    rw [hsame, hsame]

theorem toAsciiLowercase_idem (s : String) :
    toAsciiLowercase (toAsciiLowercase s) = toAsciiLowercase s := by
  rw [toAsciiLowercase, toAsciiLowercase, String.toList_ofList, List.map_map]
  exact congrArg String.ofList (List.map_congr_left fun c _ => toLower_toLower c)

/-- What the tags of the edges are kept under: the names as they are. -/
def taggedNames (dataflow : List DataflowEdge) : List (String × String) :=
  dataflow.filterMap fun edge => edge.typeTag.map fun tag => (edge.toStorage, winTypeToC tag)

theorem foldl_seedTag :
    dataflow.foldl seedTag types = (taggedNames dataflow).foldl label types := by
  induction dataflow generalizing types with
  | nil => rfl
  | cons edge rest ih =>
    rw [List.foldl_cons, ih, taggedNames, taggedNames, List.filterMap_cons, seedTag]
    cases edge.typeTag <;> rfl

theorem taggedNames_eq (hlower : ∀ edge ∈ dataflow, edge.typeTag.isSome = true →
    toAsciiLowercase edge.toStorage = edge.toStorage) :
    taggedNames dataflow = tagSeeds dataflow := by
  refine List.filterMap_congr fun edge hmem => ?_
  cases htag : edge.typeTag with
  | none => rfl
  | some tag => rw [Option.map_some, Option.map_some, hlower edge hmem (by rw [htag]; rfl)]

theorem seedArgument_eq (proto : Prototype) (flow : ApiFlow) :
    seedArgument proto types flow = (argumentSeed proto flow).elim types (label types) := by
  rw [seedArgument, argumentSeed]
  cases flow.argumentRegister with
  | none => rfl
  | some reg =>
    cases flow.argumentIndex with
    | none => rfl
    | some idx => cases h : proto.args[idx]? <;> simp [h, label]

theorem foldl_seedArgument (proto : Prototype) (rows : List ApiFlow) :
    rows.foldl (seedArgument proto) types =
      (rows.filterMap (argumentSeed proto)).foldl label types := by
  induction rows generalizing types with
  | nil => rfl
  | cons flow rows ih =>
    rw [List.foldl_cons, ih, seedArgument_eq, List.filterMap_cons]
    cases argumentSeed proto flow <;> rfl

theorem seedCall_eq (rows : List ApiFlow) :
    seedCall prototype types rows = (callSeeds prototype rows).foldl label types := by
  rw [seedCall, callSeeds]
  cases rows.head?.bind fun flow => prototype flow.api with
  | none => rfl
  | some proto =>
    rw [Option.elim_some, Option.elim_some, foldl_seedArgument, List.foldl_append]
    rfl

theorem foldl_seedCall (calls : List (List ApiFlow)) :
    calls.foldl (seedCall prototype) types =
      (calls.flatMap (callSeeds prototype)).foldl label types := by
  induction calls generalizing types with
  | nil => rfl
  | cons rows calls ih =>
    rw [List.foldl_cons, ih, seedCall_eq, List.flatMap_cons, List.foldl_append]

theorem foldl_propagateEdge (state : Types × Bool) :
    dataflow.foldl propagateEdge state = (storageEdges dataflow).foldl visit state := by
  induction dataflow generalizing state with
  | nil => rfl
  | cons edge rest ih =>
    rw [List.foldl_cons, ih, storageEdges, storageEdges, List.filterMap_cons, propagateEdge]
    cases edge.fromStorage <;> rfl

theorem propagate_eq (dataflow : List DataflowEdge) (types : Types) :
    propagate dataflow types = spread (storageEdges dataflow) (dataflow.length + 1) types :=
  congrArg (fun round => Saturation.run round (dataflow.length + 1) types)
    (funext fun _ => foldl_propagateEdge _)

/-- What the first two phases give. -/
theorem get_called :
    ((flows.rows.map Prod.snd).foldl (seedCall prototype)
      (dataflow.foldl seedTag OrderedMap.empty)).get storage =
        ((taggedNames dataflow ++ (flows.rows.map Prod.snd).flatMap (callSeeds prototype)).find?
          fun row => row.1 = storage).map Prod.snd := by
  rw [foldl_seedCall, foldl_seedTag, ← List.foldl_append]
  exact (get_foldl_orInsert _).trans (by rw [OrderedMap.get_empty, Option.none_or])

theorem get_foldl_giveDefault (ssa : List SsaValue) :
    (ssa.foldl giveDefault types).get storage = (types.get storage).or
      ((ssa.find? fun value => toAsciiLowercase value.storage = storage).map
        fun _ => defaultTypeForStorage storage) := by
  induction ssa generalizing types with
  | nil => rw [List.foldl_nil, List.find?_nil, Option.map_none, Option.or_none]
  | cons value ssa ih =>
    rw [List.foldl_cons, ih, giveDefault, get_orInsert, List.find?_cons]
    by_cases hk : toAsciiLowercase value.storage = storage
    · rw [if_pos hk.symm, decide_eq_true hk, hk]
      cases types.get storage <;> rfl
    · rw [if_neg (Ne.symm hk), decide_eq_false hk]

theorem seed_lower (h : seed prototype dataflow flows storage = some type) :
    toAsciiLowercase storage = storage := by
  obtain ⟨row, hrow, -⟩ := Option.map_eq_some_iff.mp h
  have hkey : row.1 = storage := by simpa using List.find?_some hrow
  have hlower : toAsciiLowercase row.1 = row.1 := by
    rcases List.mem_append.mp (List.mem_of_find?_eq_some hrow) with hmem | hmem
    · obtain ⟨edge, -, hedge⟩ := List.mem_filterMap.mp hmem
      obtain ⟨tag, -, rfl⟩ := Option.map_eq_some_iff.mp hedge
      exact toAsciiLowercase_idem _
    · obtain ⟨call, -, hcall⟩ := List.mem_flatMap.mp hmem
      rw [callSeeds] at hcall
      cases hproto : call.head?.bind fun flow => prototype flow.api with
      | none =>
        rw [hproto] at hcall
        cases hcall
      | some proto =>
        rw [hproto, Option.elim_some, List.mem_append, List.mem_singleton] at hcall
        rcases hcall with harg | rfl
        · obtain ⟨flow, -, hflow⟩ := List.mem_filterMap.mp harg
          obtain ⟨reg, -, hflow⟩ := Option.bind_eq_some_iff.mp hflow
          obtain ⟨idx, -, hflow⟩ := Option.bind_eq_some_iff.mp hflow
          obtain ⟨tag, -, rfl⟩ := Option.map_eq_some_iff.mp hflow
          exact toAsciiLowercase_idem _
        · exact (by decide : toAsciiLowercase "rax" = "rax")
  rw [← hkey, hlower]

theorem reaches_lower {source : String} (h : Reaches (storageEdges dataflow) source storage)
    (hsource : toAsciiLowercase source = source) : toAsciiLowercase storage = storage := by
  cases h with
  | refl => exact hsource
  | tail _ hedge =>
    obtain ⟨edge, -, hmap⟩ := List.mem_filterMap.mp hedge
    obtain ⟨fromStorage, -, hpair⟩ := Option.map_eq_some_iff.mp hmap
    rw [← (Prod.mk.inj hpair).2]
    exact toAsciiLowercase_idem _

theorem Flows.lower (h : Flows prototype dataflow flows storage type) :
    toAsciiLowercase storage = storage :=
  h.elim fun _ hsource => reaches_lower hsource.2 (seed_lower hsource.1)

/-- Defaults on top of what has spread from the seeds are what is to be recovered. -/
theorem recovers_giveDefault (ssa : List SsaValue) {seeded : Types}
    (hseed : ∀ storage, seeded.get storage = seed prototype dataflow flows storage)
    (hspreads : Spreads (storageEdges dataflow) seeded types)
    (hclosed : Closed (storageEdges dataflow) types) :
    Recovers prototype dataflow flows ssa (ssa.foldl giveDefault types) := by
  have hkeeps : ∀ storage type, types.get storage = some type →
      (ssa.foldl giveDefault types).get storage = some type := by
    intro storage type hget
    rw [get_foldl_giveDefault, hget, Option.some_or]
  have hflows : ∀ storage type, types.get storage = some type →
      Flows prototype dataflow flows storage type := by
    intro storage type hget
    obtain ⟨source, hsource, hreaches⟩ := hspreads.comes storage type hget
    exact ⟨source, (hseed source).symm.trans hsource, hreaches⟩
  have honly : ∀ storage type, (ssa.foldl giveDefault types).get storage = some type →
      Flows prototype dataflow flows storage type ∨
        type = defaultTypeForStorage storage ∧
          ∃ value ∈ ssa, toAsciiLowercase value.storage = storage := by
    intro storage type hget
    rw [get_foldl_giveDefault] at hget
    rcases Option.or_eq_some_iff.mp hget with hget | ⟨-, hget⟩
    · exact .inl (hflows storage type hget)
    · obtain ⟨value, hvalue, rfl⟩ := Option.map_eq_some_iff.mp hget
      exact .inr ⟨rfl, value, List.mem_of_find?_eq_some hvalue, by
        simpa using List.find?_some hvalue⟩
  have htyped : ∀ storage type, Flows prototype dataflow flows storage type →
      (types.get storage).isSome = true := by
    rintro storage type ⟨source, hsource, hreaches⟩
    refine hclosed.isSome_of_reaches hreaches ?_
    rw [hspreads.keeps source type ((hseed source).trans hsource)]
    rfl
  refine ⟨fun storage type hget => ?_, fun edge hedge hsource => ?_, honly,
    fun storage type hget => ?_⟩
  · exact hkeeps storage type (hspreads.keeps storage type ((hseed storage).trans hget))
  · obtain ⟨type, hsource⟩ := hsource
    have hflow : Flows prototype dataflow flows edge.1 type := by
      rcases hsource with hflow | ⟨hget, hne⟩
      · exact hflow
      · exact (honly edge.1 type hget).resolve_right fun h => hne h.1
    obtain ⟨target, htarget⟩ :=
      Option.isSome_iff_exists.mp (hclosed edge hedge (htyped edge.1 type hflow))
    exact ⟨target, hkeeps edge.2 target htarget, hflows edge.2 target htarget⟩
  · rcases honly storage type hget with hflow | ⟨-, value, -, hvalue⟩
    · exact hflow.lower
    · rw [← hvalue]
      exact toAsciiLowercase_idem _

end Axe.TypeRecovery
