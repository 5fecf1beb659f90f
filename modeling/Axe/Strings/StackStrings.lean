import Mathlib.Data.List.DropRight
import Axe.Cpp.Thunks
import Axe.Lib.StableSort

/-!
# Strings that are stored on the stack

The immediates that a function stores are put together by their displacements. The base register,
the width of a store and the order of the stores do not count.
-/
namespace Axe.Strings.StackStrings

open Axe.Static

abbrev Byte := BitVec 8

structure RecoveredStringRecord where
  recoveredId : String
  function : Nat
  kind : String
  text : String
  confidence : String
  evidence : List Nat
  deriving DecidableEq

/-- The bytes of a number, the lowest first. -/
def toLeBytes (v : BitVec 64) : List Byte := (List.range 8).map fun k => v.extractLsb' (8 * k) 8

def immediateBytes (value : Word) : List Byte :=
  (toLeBytes (BitVec.ofFin value)).takeWhile fun byte => byte ≠ 0

def trimZeroTail (bytes : List Byte) : List Byte := bytes.rdropWhile fun byte => byte = 0

def isPrintable (byte : Byte) : Bool :=
  byte = 9 || byte = 10 || byte = 13 || 0x20 ≤ byte.toNat && byte.toNat ≤ 0x7e

/-- The text whose characters are the bytes. -/
def textOf (bytes : List Byte) : String :=
  String.ofList (bytes.map fun byte => Char.ofNat byte.toNat)

def printableText (bytes : List Byte) : Option String :=
  if bytes.isEmpty then none
  else if bytes.all isPrintable then some (textOf bytes)
  else none

/-- The bytes that are stored at the displacements, and where. -/
abbrev Stores := OrderedMap Int (List Byte × List Nat)

def addStore (address : Nat) (bytes : List Byte) (store : Option (List Byte × List Nat)) :
    List Byte × List Nat :=
  ((store.getD ([], [])).1 ++ bytes, (store.getD ([], [])).2 ++ [address])

/-- One instruction of a function; the flag says that a slot was left out. -/
def collectStore (cap : Nat) (acc : Stores × Bool) (ins : LiftedInstruction) : Stores × Bool :=
  if ins.mnemonic ≠ "mov" || !ins.memoryWrite then acc
  else
    match ins.stackSlot, ins.immediate with
    | some slot, some value =>
      let bytes := immediateBytes value
      if bytes.all (· = 0) then acc
      else if (acc.1.get slot).isNone && cap ≤ acc.1.rows.length then (acc.1, true)
      else (acc.1.upsert slot (addStore ins.address bytes), acc.2)
    | _, _ => acc

def mergeStore (acc : List Byte × List Nat) (row : Int × List Byte × List Nat) :
    List Byte × List Nat :=
  let bytes := trimZeroTail row.2.1
  if 3 ≤ bytes.length then (acc.1 ++ bytes, acc.2 ++ row.2.2) else acc

def mergeStores (stores : Stores) : List Byte × List Nat := stores.rows.foldl mergeStore ([], [])

/-- The text that is recovered, when it is long enough. -/
def recoveredText (stores : Stores) : Option String :=
  (printableText (mergeStores stores).1).filter fun text => 5 ≤ text.utf8ByteSize

def recoveredId (function : Nat) (kind : String) (index : Nat) : String :=
  "recovered:" ++ upperHex 16 function ++ ":" ++ kind ++ ":" ++ upperHex 4 index

structure Recovery where
  rows : List RecoveredStringRecord
  stackStringsRecovered : Nat
  stackStoreSlots : Bool

def recoverSlice (functions : List FunctionRecord) (ir : List LiftedInstruction) (cap : Nat)
    (acc : Recovery) (slice : FunctionSemanticSlice) : Recovery :=
  match functions[slice.functionIndex]? with
  | none => acc
  | some function =>
    let collected := (slice.part ir).foldl (collectStore cap) (.empty, acc.stackStoreSlots)
    match recoveredText collected.1 with
    | none => { acc with stackStoreSlots := collected.2 }
    | some text =>
      { rows := acc.rows ++ [{
          recoveredId := recoveredId function.start "stack_string" acc.rows.length
          function := function.start
          kind := "stack_string"
          text
          confidence := "medium"
          evidence := (mergeStores collected.1).2 }]
        stackStringsRecovered := acc.stackStringsRecovered + 1
        stackStoreSlots := collected.2 }

def recoverStrings (functions : List FunctionRecord) (slices : List FunctionSemanticSlice)
    (ir : List LiftedInstruction) (cap count : Nat) (hit : Bool) : Recovery :=
  slices.foldl (recoverSlice functions ir cap) ⟨[], count, hit⟩

/-- The immediate of a store, which for eight bytes is one of four that is extended. -/
inductive StoreImm
  | byte (v : BitVec 8)
  | word (v : BitVec 16)
  | dword (v : BitVec 32)
  | qword (v : BitVec 32)
  deriving DecidableEq

namespace StoreImm

def width : StoreImm → Nat
  | .byte _ => 8
  | .word _ => 16
  | .dword _ => 32
  | .qword _ => 64

def encoded : StoreImm → Immediate
  | .byte v => ⟨8, v, false⟩
  | .word v => ⟨16, v, false⟩
  | .dword v => ⟨32, v, false⟩
  | .qword v => ⟨32, v, true⟩

/-- What is stored. -/
def stored : (imm : StoreImm) → BitVec imm.width
  | .byte v => v
  | .word v => v
  | .dword v => v
  | .qword v => v.signExtend 64

end StoreImm

inductive Base
  | rsp | rbp
  deriving DecidableEq

def Base.reg : Base → X86.Reg
  | .rsp => .rsp
  | .rbp => .rbp

/-- `mov [base + disp], imm` -/
structure StackStore where
  ip : Nat
  len : Nat
  base : Base
  disp : BitVec 64
  imm : StoreImm
  deriving DecidableEq

namespace StackStore
variable (s : StackStore)

def decoded : Decoded where
  instr := {
    ip := s.ip
    len := s.len
    operands := [.memory, .immediate s.imm.encoded]
    memoryBase := some (.general s.base.reg .qword)
    memoryIndex := none
    memoryIndexScale := 1
    memoryDisplacement64 := s.disp.toFin
    memorySize := s.imm.width / 8
    nearBranchTarget := 0
    ipRelMemoryAddress := none }
  mnemonic := "mov"
  isCall := false
  isJump := false

def lifted : LiftedInstruction := fromIced s.decoded

def slot : Int := s.disp.toInt

def addr (σ : X86.Reg → BitVec 64) : BitVec 64 := σ s.base.reg + s.disp

/-- The bytes before the first zero. -/
def lead : List Byte := immediateBytes s.imm.encoded.value

def exec (σ : X86.Reg → BitVec 64) (mem : X86.Memory) : X86.Memory :=
  mem.store (s.addr σ) s.imm.stored

theorem lifted_fields : s.lifted.mnemonic = "mov" ∧ s.lifted.memoryWrite = true ∧
    s.lifted.stackSlot = some s.slot ∧ s.lifted.immediate = some s.imm.encoded.value ∧
    s.lifted.address = s.ip := by
  obtain ⟨ip, len, base, disp, imm⟩ := s
  cases base <;> exact ⟨rfl, rfl, rfl, rfl, rfl⟩

end StackStore

section Collection
variable {S : List StackStore} {cap : Nat} {m : Stores} {b : Byte} {slot : Int}

/-- The bytes that count for a displacement. -/
def heldAt (S : List StackStore) (slot : Int) : List Byte :=
  (S.filter fun s => s.slot = slot).flatMap StackStore.lead

/-- The stores of displacements that three bytes count for. -/
def kept (S : List StackStore) : List StackStore :=
  S.filter fun s => s.lead ≠ [] && 3 ≤ (heldAt S s.slot).length

/-- One store, when there is no limit. -/
def addLead (m : Stores) (s : StackStore) : Stores :=
  if s.lead = [] then m else m.upsert s.slot (addStore s.ip s.lead)

theorem immediateBytes_ne_zero {value : Word} (h : b ∈ immediateBytes value) : b ≠ 0 := by
  have hmem := List.mem_takeWhile_imp h
  exact of_decide_eq_true hmem

theorem all_zero_iff {value : Word} :
    (immediateBytes value).all (· = 0) = true ↔ immediateBytes value = [] := by
  rw [List.all_eq_true]
  constructor
  · intro h
    rw [List.eq_nil_iff_forall_not_mem]
    exact fun b hb => immediateBytes_ne_zero hb (of_decide_eq_true (h b hb))
  · intro h b hb
    rw [h] at hb
    cases hb

theorem collectStore_lifted (s : StackStore) (hit : Bool) :
    collectStore cap (m, hit) s.lifted =
      if s.lead = [] then (m, hit)
      else if (m.get s.slot).isNone && cap ≤ m.rows.length then (m, true)
      else (addLead m s, hit) := by
  obtain ⟨hname, hwrite, hslot, hvalue, hip⟩ := s.lifted_fields
  have hstep : collectStore cap (m, hit) s.lifted =
      if s.lead.all (· = 0) then (m, hit)
      else if (m.get s.slot).isNone && cap ≤ m.rows.length then (m, true)
      else (m.upsert s.slot (addStore s.ip s.lead), hit) := by
    rw [collectStore, hname, hwrite, hslot, hvalue, hip, if_neg (by decide)]
    rfl
  have hzero : s.lead.all (· = 0) = true ↔ s.lead = [] := all_zero_iff
  rw [hstep, addLead]
  by_cases hlead : s.lead = []
  · rw [if_pos hlead, if_pos (hzero.mpr hlead)]
  · rw [if_neg hlead, if_neg hlead, if_neg (mt hzero.mp hlead)]

theorem collectStore_hit (ins : LiftedInstruction) (hit : Bool) :
    collectStore cap (m, hit) ins =
      ((collectStore cap (m, false) ins).1, hit || (collectStore cap (m, false) ins).2) := by
  simp only [collectStore]
  split
  · rw [Bool.or_false]
  · split
    · split
      · rw [Bool.or_false]
      · split
        · rw [Bool.or_true]
        · rw [Bool.or_false]
    · rw [Bool.or_false]

/-- The flag is set once, and what is collected does not depend on it. -/
theorem foldl_collectStore (code : List LiftedInstruction) (m : Stores) (hit : Bool) :
    code.foldl (collectStore cap) (m, hit) =
      ((code.foldl (collectStore cap) (m, false)).1,
        hit || (code.foldl (collectStore cap) (m, false)).2) := by
  induction code generalizing m hit with
  | nil => rw [List.foldl_nil, List.foldl_nil, Bool.or_false]
  | cons ins rest ih =>
    rw [List.foldl_cons, List.foldl_cons, collectStore_hit, ih,
      ← Prod.mk.eta (p := collectStore cap (m, false) ins),
      ih _ (collectStore cap (m, false) ins).2, Bool.or_assoc]

/-- What is collected of stores, when no slot is left out. -/
theorem collected_eq (m : Stores)
    (hcap : ((S.map StackStore.lifted).foldl (collectStore cap) (m, false)).2 = false) :
    ((S.map StackStore.lifted).foldl (collectStore cap) (m, false)).1 = S.foldl addLead m := by
  induction S generalizing m with
  | nil => rfl
  | cons s rest ih =>
    rw [List.map_cons, List.foldl_cons] at hcap ⊢
    rw [List.foldl_cons]
    rw [collectStore_lifted] at hcap ⊢
    split at hcap <;> rename_i hlead
    · rw [if_pos hlead, addLead, if_pos hlead]
      exact ih m hcap
    · split at hcap <;> rename_i hfull
      · rw [foldl_collectStore] at hcap
        cases hcap
      · rw [if_neg hlead, if_neg hfull]
        exact ih _ hcap

/-- The stores at a displacement that have bytes before a zero. -/
def storesAt (S : List StackStore) (slot : Int) : List StackStore :=
  (S.filter fun s => s.lead ≠ []).filter fun s => s.slot = slot

theorem foldl_addStore (T : List StackStore) (v : List Byte × List Nat) :
    T.foldl (fun v s => some (addStore s.ip s.lead v)) (some v) =
      some (v.1 ++ T.flatMap StackStore.lead, v.2 ++ T.map StackStore.ip) := by
  induction T generalizing v with
  | nil => simp
  | cons s rest ih =>
    rw [List.foldl_cons, ih, addStore, Option.getD_some, List.flatMap_cons, List.map_cons,
      List.append_assoc, List.append_assoc, List.singleton_append]

theorem flatMap_storesAt : (storesAt S slot).flatMap StackStore.lead = heldAt S slot := by
  rw [storesAt, heldAt, List.filter_comm]
  induction S.filter fun s => s.slot = slot with
  | nil => rfl
  | cons s rest ih =>
    rw [List.filter_cons, List.flatMap_cons]
    split <;> rename_i hlead
    · rw [List.flatMap_cons, ih]
    · have hnil : s.lead = [] := by simpa using hlead
      rw [hnil, List.nil_append, ih]

theorem foldl_addLead_get :
    (S.foldl addLead .empty).get slot = if storesAt S slot = [] then none
      else some (heldAt S slot, (storesAt S slot).map StackStore.ip) := by
  have hfold : S.foldl addLead (.empty : Stores) = (S.filter fun s => s.lead ≠ []).foldl
      (fun m s => m.upsert s.slot (addStore s.ip s.lead)) .empty := by
    rw [List.foldl_filter]
    congr 1
    funext m s
    rw [addLead]
    split <;> rename_i hlead <;> simp [hlead]
  rw [hfold, OrderedMap.get_foldl_upsert StackStore.slot fun s => addStore s.ip s.lead,
    OrderedMap.get_empty, ← flatMap_storesAt]
  rw [show ((S.filter fun s => s.lead ≠ []).filter fun s => s.slot = slot) = storesAt S slot
    from rfl]
  cases storesAt S slot with
  | nil => rfl
  | cons s rest =>
    rw [List.foldl_cons, foldl_addStore, if_neg (List.cons_ne_nil _ _), addStore]
    rfl

theorem kept_filter : (kept S).filter (fun s => s.slot = slot) =
    if 3 ≤ (heldAt S slot).length then storesAt S slot else [] := by
  rw [kept, List.filter_filter]
  split <;> rename_i hheld
  · rw [storesAt, List.filter_filter]
    refine List.filter_congr fun s _ => ?_
    by_cases hslot : s.slot = slot
    · simp [hslot, hheld]
    · simp [hslot]
  · rw [List.filter_eq_nil_iff]
    intro s _ hs
    simp only [Bool.and_eq_true, decide_eq_true_eq] at hs
    rw [hs.1] at hs
    exact hheld hs.2.2

theorem foldl_mergeStore (rows : List (Int × List Byte × List Nat)) (acc : List Byte × List Nat) :
    (rows.foldl mergeStore acc).1 = acc.1 ++ rows.flatMap fun row =>
      if 3 ≤ (trimZeroTail row.2.1).length then trimZeroTail row.2.1 else [] := by
  induction rows generalizing acc with
  | nil => rw [List.foldl_nil, List.flatMap_nil, List.append_nil]
  | cons row rest ih =>
    rw [List.foldl_cons, ih, List.flatMap_cons, mergeStore]
    split
    · rw [List.append_assoc]
    · rw [List.nil_append]

theorem trimZeroTail_heldAt : trimZeroTail (heldAt S slot) = heldAt S slot := by
  rw [trimZeroTail, List.rdropWhile_eq_self_iff]
  intro hne hzero
  obtain ⟨s, -, hs⟩ := List.mem_flatMap.mp (List.getLast_mem hne)
  exact immediateBytes_ne_zero hs (of_decide_eq_true hzero)

/-- The bytes that are merged are those of the kept stores in the order of their displacements. -/
theorem mergeStores_eq (S : List StackStore) : ∃ P : List StackStore,
    (mergeStores (S.foldl addLead .empty)).1 = P.flatMap StackStore.lead ∧ P.Perm (kept S) ∧
      P.Pairwise fun s t => s.slot ≤ t.slot := by
  have hkeys : ((S.foldl addLead (.empty : Stores)).rows.map Prod.fst).Pairwise (· < ·) :=
    List.pairwise_map.mpr (S.foldl addLead (.empty : Stores)).sorted
  have hall : ∀ s ∈ kept S, s.slot ∈ (S.foldl addLead (.empty : Stores)).rows.map Prod.fst := by
    intro s hs
    have hmem : s ∈ (kept S).filter fun t => t.slot = s.slot :=
      List.mem_filter.mpr ⟨hs, decide_eq_true rfl⟩
    rw [kept_filter] at hmem
    split at hmem
    · rw [OrderedMap.mem_keys, foldl_addLead_get, if_neg (List.ne_nil_of_mem hmem)]
      exact ⟨_, rfl⟩
    · cases hmem
  refine ⟨_, ?_, groups_perm (hkeys.imp fun h => h.ne) hall, groups_sorted hkeys⟩
  rw [mergeStores, foldl_mergeStore, List.nil_append, List.flatMap_assoc, List.flatMap_map]
  refine List.flatMap_congr fun row hrow => ?_
  have hget := OrderedMap.get_eq_some.mpr hrow
  rw [foldl_addLead_get] at hget
  split at hget
  · cases hget
  · rw [← Option.some.inj hget, trimZeroTail_heldAt, kept_filter]
    split
    · rw [flatMap_storesAt]
    · rfl

/-- The bytes of the kept stores make a text. -/
def Readable (S : List StackStore) : Prop :=
  5 ≤ ((kept S).flatMap StackStore.lead).length ∧
    ∀ b ∈ (kept S).flatMap StackStore.lead, isPrintable b = true

theorem utf8Size_of_isPrintable (h : isPrintable b = true) : (Char.ofNat b.toNat).utf8Size = 1 := by
  have hascii : ∀ n < 128, (Char.ofNat n).utf8Size = 1 := by decide
  refine hascii b.toNat ?_
  simp only [isPrintable, Bool.or_eq_true, decide_eq_true_eq, Bool.and_eq_true] at h
  rcases h with ((rfl | rfl) | rfl) | h
  · decide
  · decide
  · decide
  · omega

theorem utf8ByteSize_textOf {bytes : List Byte} (h : ∀ b ∈ bytes, isPrintable b = true) :
    (textOf bytes).utf8ByteSize = bytes.length := by
  induction bytes with
  | nil => rfl
  | cons b rest ih =>
    have hrest := ih fun c hc => h c (List.mem_cons_of_mem _ hc)
    rw [textOf, List.map_cons, String.ofList_cons, String.utf8ByteSize_append,
      String.utf8ByteSize_singleton, utf8Size_of_isPrintable (h b List.mem_cons_self),
      List.length_cons, Nat.add_comm]
    exact congrArg (· + 1) hrest

theorem recoveredText_eq (stores : Stores) : recoveredText stores =
    if 5 ≤ (mergeStores stores).1.length ∧ ∀ b ∈ (mergeStores stores).1, isPrintable b = true then
      some (textOf (mergeStores stores).1)
    else none := by
  rw [recoveredText, printableText]
  generalize (mergeStores stores).1 = bytes
  by_cases hprintable : ∀ b ∈ bytes, isPrintable b = true
  · rw [if_pos (List.all_eq_true.mpr hprintable)]
    rw [if_congr (and_iff_left hprintable) rfl rfl]
    split <;> rename_i hempty
    · rw [List.isEmpty_iff.mp hempty]
      rfl
    · rw [Option.filter_some, utf8ByteSize_textOf hprintable]
      simp only [decide_eq_true_eq]
  · rw [if_neg (mt List.all_eq_true.mp hprintable), ite_self, if_neg fun h => hprintable h.2]
    rfl

/-- A text is recovered exactly if the bytes of the kept stores make one. -/
theorem recoveredText_isSome_iff :
    (recoveredText (S.foldl addLead .empty)).isSome = true ↔ Readable S := by
  obtain ⟨P, hbytes, hperm, -⟩ := mergeStores_eq S
  have hflat := hperm.flatMap_right StackStore.lead
  rw [recoveredText_eq, hbytes, Readable, ← hflat.length_eq]
  simp only [← hflat.mem_iff]
  split <;> rename_i h
  · exact iff_of_true rfl h
  · exact iff_of_false Bool.false_ne_true h

/-- The bytes of kept stores with distinct displacements, in the order of these. -/
theorem mergeStores_eq_of_perm {L : List StackStore} (hperm : L.Perm (kept S))
    (hascending : L.Pairwise fun s t => s.slot < t.slot) :
    (mergeStores (S.foldl addLead .empty)).1 = L.flatMap StackStore.lead := by
  obtain ⟨P, hbytes, hkept, hsorted⟩ := mergeStores_eq S
  have hdistinct : ∀ s ∈ L, ∀ t ∈ L, s.slot = t.slot → s = t := fun s hs t ht =>
    @SortedMap.Sorted.eq_of_key Int _ _ StackStore.slot _ _ _ hascending hs ht
  have heq : P = L := by
    refine (hkept.trans hperm.symm).eq_of_pairwise (fun s t hs ht hst hts => ?_) hsorted
      (hascending.imp fun h => h.le)
    exact hdistinct s (hperm.mem_iff.mpr (hkept.mem_iff.mp hs)) t ht (le_antisymm hst hts)
  rw [hbytes, heq]

end Collection

section Stack
variable {σ : X86.Reg → BitVec 64} {S : List StackStore} {s t : StackStore} {a : BitVec 64}
  {b c : Byte}

/-- The byte at an address behind the stores, whatever was there before. -/
def Left (σ : X86.Reg → BitVec 64) (S : List StackStore) (a : BitVec 64) (b : Byte) : Prop :=
  ∀ mem, S.foldl (fun mem s => s.exec σ mem) mem a = b

def Covers (σ : X86.Reg → BitVec 64) (s : StackStore) (a : BitVec 64) : Prop :=
  (a - s.addr σ).toNat < s.imm.width / 8

theorem Left.unique (h : Left σ S a b) (h' : Left σ S a c) : b = c :=
  (h fun _ => 0).symm.trans (h' fun _ => 0)

theorem exec_of_not_covers (h : ¬ Covers σ s a) (mem : X86.Memory) : s.exec σ mem a = mem a :=
  if_neg h

theorem foldl_exec_of_not_covers (h : ∀ s ∈ S, ¬ Covers σ s a) (mem : X86.Memory) :
    S.foldl (fun mem s => s.exec σ mem) mem a = mem a := by
  induction S generalizing mem with
  | nil => rfl
  | cons s rest ih =>
    rw [List.foldl_cons, ih fun t ht => h t (List.mem_cons_of_mem _ ht),
      exec_of_not_covers (h s List.mem_cons_self)]

/-- Only what a store covers is known behind them. -/
theorem Left.covered (h : Left σ S a b) : ∃ s ∈ S, Covers σ s a := by
  by_contra hno
  push Not at hno
  have hone := h fun _ => 1
  have hzero := h fun _ => 0
  rw [foldl_exec_of_not_covers hno] at hone hzero
  rw [← hzero] at hone
  exact absurd hone (by decide)

theorem StoreImm.width_le (imm : StoreImm) : imm.width ≤ 64 := by
  cases imm <;> simp only [StoreImm.width] <;> omega

/-- A byte of a store is left, when no later store covers it. -/
theorem left_of_store {pre post : List StackStore} {k : Nat} (hk : k < s.imm.width / 8)
    (hpost : ∀ t ∈ post, ¬ Covers σ t (s.addr σ + BitVec.ofNat 64 k)) :
    Left σ (pre ++ s :: post) (s.addr σ + BitVec.ofNat 64 k)
      (s.imm.stored.extractLsb' (8 * k) 8) := by
  intro mem
  rw [List.foldl_append, List.foldl_cons, foldl_exec_of_not_covers hpost, StackStore.exec,
    X86.Memory.store_apply _ _ _ hk s.imm.width_le]

theorem StoreImm.encoded_bits (imm : StoreImm) : imm.encoded.bits = imm.stored.setWidth 64 := by
  cases imm with
  | byte v => rfl
  | word v => rfl
  | dword v => rfl
  | qword v => exact (BitVec.setWidth_eq _).symm

theorem extractLsb'_setWidth {w : Nat} (hw : w ≤ 64) (x : BitVec w) (k : Nat) :
    (x.setWidth 64).extractLsb' k 8 = x.extractLsb' k 8 := by
  ext i hi
  rw [BitVec.getElem_extractLsb', BitVec.getElem_extractLsb', BitVec.getLsbD_setWidth]
  by_cases h : k + i < 64
  · rw [decide_eq_true h, Bool.true_and]
  · rw [decide_eq_false h, Bool.false_and, BitVec.getLsbD_of_ge x (k + i) (by omega)]

theorem extractLsb'_eq_zero {w k : Nat} (h : w ≤ k) (x : BitVec w) : x.extractLsb' k 8 = 0 := by
  ext i hi
  rw [BitVec.getElem_extractLsb', BitVec.getLsbD_of_ge x (k + i) (by omega)]
  exact (BitVec.getElem_zero hi).symm

theorem StoreImm.width_bytes (imm : StoreImm) : 8 * (imm.width / 8) = imm.width := by
  cases imm <;> simp only [StoreImm.width]

/-- The bytes that count for a store are among those that it stores. -/
theorem lead_getElem {k : Nat} (h : s.lead[k]? = some b) :
    k < s.imm.width / 8 ∧ s.imm.stored.extractLsb' (8 * k) 8 = b := by
  have hne : b ≠ 0 := immediateBytes_ne_zero (List.mem_of_getElem? h)
  obtain ⟨rest, hrest⟩ : ∃ rest, s.lead ++ rest = toLeBytes s.imm.encoded.bits :=
    List.takeWhile_prefix _
  have hbytes : (toLeBytes s.imm.encoded.bits)[k]? = some b := by
    rw [← hrest, List.getElem?_append_left (List.getElem?_eq_some_iff.mp h).1, h]
  rw [toLeBytes, List.getElem?_map, Option.map_eq_some_iff] at hbytes
  obtain ⟨j, hj, hbyte⟩ := hbytes
  obtain ⟨hlt, hj⟩ := List.getElem?_eq_some_iff.mp hj
  rw [List.getElem_range] at hj
  subst hj
  have hextract : s.imm.stored.extractLsb' (8 * k) 8 = b := by
    rw [← hbyte, StoreImm.encoded_bits, extractLsb'_setWidth s.imm.width_le]
  refine ⟨?_, hextract⟩
  by_contra hge
  have hbytes := s.imm.width_bytes
  exact hne (hextract.symm.trans (extractLsb'_eq_zero (by omega) _))

/-- The bytes that count for a store are still there in the end. -/
def Lasts (σ : X86.Reg → BitVec 64) (S : List StackStore) (s : StackStore) : Prop :=
  ∃ pre post, S = pre ++ s :: post ∧ ∀ t ∈ post, ∀ k < s.lead.length,
    ¬ Covers σ t (s.addr σ + BitVec.ofNat 64 k)

/-- The second store begins where what counts for the first ends. -/
def Adjoins (σ : X86.Reg → BitVec 64) (s t : StackStore) : Prop :=
  t.addr σ = s.addr σ + BitVec.ofNat 64 s.lead.length

def OccursAt (σ : X86.Reg → BitVec 64) (S : List StackStore) (a : BitVec 64) (bytes : List Byte) :
    Prop :=
  ∀ i b, bytes[i]? = some b → Left σ S (a + BitVec.ofNat 64 i) b

theorem occursAt_of_lasts (h : Lasts σ S s) : OccursAt σ S (s.addr σ) s.lead := by
  obtain ⟨pre, post, rfl, hpost⟩ := h
  intro k b hb
  obtain ⟨hk, rfl⟩ := lead_getElem hb
  exact left_of_store hk fun t ht => hpost t ht k (List.getElem?_eq_some_iff.mp hb).1

/-- Adjoining stores leave what counts for them as one piece. -/
theorem occursAt_of_adjoins {L : List StackStore} (hadjoin : (s :: L).IsChain (Adjoins σ))
    (hlasts : ∀ t ∈ s :: L, Lasts σ S t) :
    OccursAt σ S (s.addr σ) ((s :: L).flatMap StackStore.lead) := by
  induction L generalizing s with
  | nil =>
    rw [List.flatMap_cons, List.flatMap_nil, List.append_nil]
    exact occursAt_of_lasts (hlasts s List.mem_cons_self)
  | cons t rest ih =>
    obtain ⟨hnext, hadjoin⟩ := List.isChain_cons_cons.mp hadjoin
    have hrest := ih hadjoin fun u hu => hlasts u (List.mem_cons_of_mem _ hu)
    intro i b hb
    rw [List.flatMap_cons] at hb
    rcases Nat.lt_or_ge i s.lead.length with hlt | hge
    · rw [List.getElem?_append_left hlt] at hb
      exact occursAt_of_lasts (hlasts s List.mem_cons_self) i b hb
    · rw [List.getElem?_append_right hge] at hb
      have hleft := hrest (i - s.lead.length) b hb
      rwa [hnext, BitVec.add_assoc, ← BitVec.ofNat_add, Nat.add_sub_cancel' hge] at hleft

/-- A string with its end that the stores leave at an address. -/
structure Written (σ : X86.Reg → BitVec 64) (S : List StackStore) (a : BitVec 64)
    (bytes : List Byte) : Prop where
  long : 5 ≤ bytes.length
  printable : ∀ b ∈ bytes, isPrintable b = true
  occurs : OccursAt σ S a bytes
  ended : Left σ S (a + BitVec.ofNat 64 bytes.length) 0

/-- What is recovered is in the memory that the stores leave, and the strings that they leave are in
what is recovered. -/
structure Faithful (σ : X86.Reg → BitVec 64) (S : List StackStore) (text : Option String) :
    Prop where
  occurs : ∀ t, text = some t → ∃ a bytes, textOf bytes = t ∧ OccursAt σ S a bytes
  contains : ∀ a bytes, Written σ S a bytes →
    ∃ t, text = some t ∧ (textOf bytes).toList <:+: t.toList

/-- The kept stores have distinct displacements, in the order of these each begins where what
counts for the one before it ends, and no later store covers what counts for one. -/
structure Tiled (σ : X86.Reg → BitVec 64) (S L : List StackStore) : Prop where
  perm : L.Perm (kept S)
  ascending : L.Pairwise fun s t => s.slot < t.slot
  adjoin : L.IsChain (Adjoins σ)
  lasts : ∀ s ∈ L, Lasts σ S s

/-- When there is something to recover, the kept stores are tiled and printable, and the strings lie
in what counts for them. -/
def Undisturbed (σ : X86.Reg → BitVec 64) (S : List StackStore) : Prop :=
  (Readable S ∨ ∃ a bytes, Written σ S a bytes) →
    Readable S ∧ ∃ s L, Tiled σ S (s :: L) ∧ ∀ a bytes, Written σ S a bytes →
      ∃ j, a = s.addr σ + BitVec.ofNat 64 j ∧
        j + bytes.length ≤ ((s :: L).flatMap StackStore.lead).length

/-- A piece of what is at an address is the bytes that are where it is. -/
theorem infix_of_occursAt {whole bytes : List Byte} {j : Nat} (hwhole : OccursAt σ S a whole)
    (hbytes : OccursAt σ S (a + BitVec.ofNat 64 j) bytes) (hle : j + bytes.length ≤ whole.length) :
    bytes <:+: whole := by
  have heq : bytes = (whole.drop j).take bytes.length := by
    refine List.ext_getElem (by simp; omega) fun i hi hi' => ?_
    have hget : whole[j + i]? = some whole[j + i] := List.getElem?_eq_getElem (by omega)
    have hleft := hwhole (j + i) _ hget
    rw [BitVec.ofNat_add, ← BitVec.add_assoc] at hleft
    rw [List.getElem_take, List.getElem_drop]
    exact (hbytes i _ (List.getElem?_eq_getElem hi)).unique hleft
  rw [heq]
  exact (List.take_prefix _ _).isInfix.trans (List.drop_suffix _ _).isInfix

theorem textOf_infix {whole bytes : List Byte} (h : bytes <:+: whole) :
    (textOf bytes).toList <:+: (textOf whole).toList := by
  rw [textOf, textOf, String.toList_ofList, String.toList_ofList]
  exact h.map _

/-- What is recovered of undisturbed stores is faithful. -/
theorem faithful_of_undisturbed (h : Undisturbed σ S) :
    Faithful σ S (recoveredText (S.foldl addLead .empty)) := by
  by_cases hsome : Readable S ∨ ∃ a bytes, Written σ S a bytes
  · obtain ⟨hreadable, s, L, htiled, hwithin⟩ := h hsome
    have hoccurs := occursAt_of_adjoins htiled.adjoin htiled.lasts
    have htext : recoveredText (S.foldl addLead .empty) =
        some (textOf ((s :: L).flatMap StackStore.lead)) := by
      have hflat := htiled.perm.flatMap_right StackStore.lead
      rw [recoveredText_eq, mergeStores_eq_of_perm htiled.perm htiled.ascending, if_pos]
      rw [hflat.length_eq]
      simp only [hflat.mem_iff]
      exact hreadable
    refine ⟨fun t ht => ⟨_, _, Option.some.inj (htext.symm.trans ht), hoccurs⟩,
      fun a bytes hwritten => ⟨_, htext, textOf_infix ?_⟩⟩
    obtain ⟨j, rfl, hle⟩ := hwithin a bytes hwritten
    exact infix_of_occursAt hoccurs hwritten.occurs hle
  · push Not at hsome
    have hnone : recoveredText (S.foldl addLead .empty) = none := by
      rw [← Option.not_isSome_iff_eq_none, recoveredText_isSome_iff]
      exact hsome.1
    refine ⟨fun t ht => ?_, fun a bytes hwritten => absurd hwritten (hsome.2 a bytes)⟩
    rw [hnone] at ht
    cases ht

theorem readable_of_faithful (h : Faithful σ S (recoveredText (S.foldl addLead .empty)))
    {bytes : List Byte} (hwritten : Written σ S a bytes) : Readable S := by
  obtain ⟨t, ht, -⟩ := h.contains a bytes hwritten
  rw [← recoveredText_isSome_iff, ht, Option.isSome_some]

end Stack

section Recovery
variable {functions : List FunctionRecord} {slices : List FunctionSemanticSlice}
  {ir : List LiftedInstruction} {cap : Nat}

/-- What is collected of one slice. -/
def collected (cap : Nat) (code : List LiftedInstruction) : Stores × Bool :=
  code.foldl (collectStore cap) (.empty, false)

/-- The text that is recovered of a slice, with its function. -/
def sliceText (functions : List FunctionRecord) (ir : List LiftedInstruction) (cap : Nat)
    (slice : FunctionSemanticSlice) : Option (Nat × String) :=
  functions[slice.functionIndex]?.bind fun function =>
    (recoveredText (collected cap (slice.part ir)).1).map fun text => (function.start, text)

theorem recoverSlice_rows (acc : Recovery) (slice : FunctionSemanticSlice) :
    (recoverSlice functions ir cap acc slice).rows.map (fun row => (row.function, row.text)) =
        acc.rows.map (fun row => (row.function, row.text)) ++
          (sliceText functions ir cap slice).toList ∧
      (recoverSlice functions ir cap acc slice).stackStoreSlots =
        (acc.stackStoreSlots || functions[slice.functionIndex]?.isSome &&
          (collected cap (slice.part ir)).2) := by
  rw [recoverSlice, sliceText]
  cases functions[slice.functionIndex]? with
  | none => simp
  | some function =>
    simp only [foldl_collectStore (slice.part ir) .empty acc.stackStoreSlots, Option.bind_some,
      Option.isSome_some, Bool.true_and]
    rw [collected]
    cases recoveredText ((slice.part ir).foldl (collectStore cap) (.empty, false)).1 with
    | none => simp
    | some text => simp

theorem foldl_recoverSlice (acc : Recovery) :
    (slices.foldl (recoverSlice functions ir cap) acc).rows.map
        (fun row => (row.function, row.text)) =
      acc.rows.map (fun row => (row.function, row.text)) ++
        slices.filterMap (sliceText functions ir cap) ∧
    ((slices.foldl (recoverSlice functions ir cap) acc).stackStoreSlots = false →
      acc.stackStoreSlots = false ∧ ∀ slice ∈ slices,
        functions[slice.functionIndex]?.isSome = true →
          (collected cap (slice.part ir)).2 = false) := by
  induction slices generalizing acc with
  | nil => exact ⟨by simp, fun h => ⟨h, fun slice hslice => absurd hslice List.not_mem_nil⟩⟩
  | cons slice rest ih =>
    obtain ⟨hrows, hhit⟩ := @recoverSlice_rows functions ir cap acc slice
    obtain ⟨hrest, hcap⟩ := ih (recoverSlice functions ir cap acc slice)
    rw [List.foldl_cons]
    refine ⟨?_, fun h => ?_⟩
    · rw [hrest, hrows, List.append_assoc, List.filterMap_cons]
      cases sliceText functions ir cap slice <;> rfl
    · obtain ⟨hfirst, hothers⟩ := hcap h
      rw [hhit, Bool.or_eq_false_iff] at hfirst
      refine ⟨hfirst.1, fun other hother hsome => ?_⟩
      rcases List.mem_cons.mp hother with rfl | hother
      · rw [hsome, Bool.true_and] at hfirst
        exact hfirst.2
      · exact hothers other hother hsome

/-- The rows are the texts of the slices. When no slot is left out, the text of undisturbed stores
is faithful, and where they leave a string it is only when the kept bytes make a text. -/
theorem recoverStrings_faithful (functions : List FunctionRecord)
    (slices : List FunctionSemanticSlice) (ir : List LiftedInstruction) (cap count : Nat)
    (hcap : (recoverStrings functions slices ir cap count false).stackStoreSlots = false) :
    (recoverStrings functions slices ir cap count false).rows.map
        (fun row => (row.function, row.text)) =
      slices.filterMap (sliceText functions ir cap) ∧
    ∀ slice ∈ slices, ∀ function, functions[slice.functionIndex]? = some function →
      ∀ σ S, slice.part ir = S.map StackStore.lifted →
        (Undisturbed σ S → Faithful σ S ((sliceText functions ir cap slice).map Prod.snd)) ∧
        (Faithful σ S ((sliceText functions ir cap slice).map Prod.snd) →
          ∀ a bytes, Written σ S a bytes → Readable S) := by
  obtain ⟨hrows, hhit⟩ := @foldl_recoverSlice functions slices ir cap ⟨[], count, false⟩
  refine ⟨hrows, fun slice hslice function hfunction σ S hpart => ?_⟩
  have hcollected := (hhit hcap).2 slice hslice (by rw [hfunction, Option.isSome_some])
  rw [sliceText, hfunction, Option.bind_some, Option.map_map, hpart]
  rw [hpart] at hcollected
  have hid : (Prod.snd ∘ fun text : String => (function.start, text)) = id := rfl
  rw [hid, Option.map_id_fun, id, collected, collected_eq _ hcollected]
  exact ⟨faithful_of_undisturbed, fun h a bytes hwritten => readable_of_faithful h hwritten⟩

end Recovery

def greeter : FunctionRecord where
  start := 0x1000
  stop := 0x1020
  size := 32
  source := "test"
  calls := []
  ordered := by decide

def greeterSlice (stop : Nat) : FunctionSemanticSlice :=
  ⟨0, greeter.start, greeter.stop, (0, stop), (0, stop), (0, 0), none, false, false⟩

/-- The stores of `hello world` in pieces of four bytes. -/
def helloWorld : List StackStore :=
  [⟨0x1000, 7, .rsp, 0, .dword 0x6c6c6568⟩, ⟨0x1007, 8, .rsp, 4, .dword 0x6f77206f⟩,
    ⟨0x100f, 8, .rsp, 8, .dword 0x00646c72⟩]

def flatStack : X86.Reg → BitVec 64 := fun _ => 0x1000

theorem tiled_helloWorld : Tiled flatStack helloWorld helloWorld where
  perm := List.Perm.of_eq (by decide)
  ascending := by decide
  adjoin := by
    rw [helloWorld, List.isChain_cons_cons, List.isChain_cons_cons]
    exact ⟨by unfold Adjoins; decide, by unfold Adjoins; decide,
      List.IsChain.singleton _⟩
  lasts := by
    intro s hs
    simp only [helloWorld, List.mem_cons, List.not_mem_nil, or_false] at hs
    rcases hs with rfl | rfl | rfl
    · exact ⟨[], helloWorld.drop 1, rfl, by unfold Covers; decide⟩
    · exact ⟨helloWorld.take 1, helloWorld.drop 2, rfl, by unfold Covers; decide⟩
    · exact ⟨helloWorld.take 2, [], rfl, fun t ht => absurd ht List.not_mem_nil⟩

theorem undisturbed_helloWorld : Undisturbed flatStack helloWorld := by
  refine fun _ => ⟨by unfold Readable; decide, _, _, tiled_helloWorld,
    fun a bytes hwritten => ?_⟩
  have hlong := hwritten.long
  obtain ⟨s, hs, hcovers⟩ := (hwritten.occurs 0 _ (List.getElem?_eq_getElem (by omega))).covered
  obtain ⟨j, hj, rfl⟩ : ∃ j < 12, a = 0x1000#64 + BitVec.ofNat 64 j := by
    refine ⟨(a - 0x1000#64).toNat, ?_, ?_⟩
    · simp only [helloWorld, List.mem_cons, List.not_mem_nil, or_false] at hs
      rcases hs with rfl | rfl | rfl <;>
        simp only [Covers, StackStore.addr, flatStack, StoreImm.width] at hcovers <;> bv_omega
    · rw [BitVec.ofNat_toNat, BitVec.setWidth_eq, BitVec.add_comm, BitVec.sub_add_cancel]
  refine ⟨j, rfl, ?_⟩
  have htotal : (helloWorld.flatMap StackStore.lead).length = 11 := by decide
  rw [show (_ :: _ : List StackStore) = helloWorld from rfl, htotal]
  by_contra hlonger
  -- the byte behind the last store ends every string
  have hend : Left flatStack helloWorld 0x100b#64 0 :=
    @left_of_store flatStack ⟨0x100f, 8, .rsp, 8, .dword 0x00646c72⟩ (helloWorld.take 2) [] 3
      (by decide) fun t ht => absurd ht List.not_mem_nil
  have hi : 11 - j < bytes.length := by omega
  have hleft := hwritten.occurs _ _ (List.getElem?_eq_getElem hi)
  rw [BitVec.add_assoc, ← BitVec.ofNat_add, Nat.add_sub_cancel' (Nat.le_of_lt_succ hj)] at hleft
  have hprintable := hwritten.printable _ (List.getElem_mem hi)
  rw [← hend.unique hleft] at hprintable
  exact absurd hprintable (by decide)

theorem faithful_helloWorld : Faithful flatStack helloWorld (some "hello world") := by
  have hfaithful := ((recoverStrings_faithful [greeter] [greeterSlice 3]
    (helloWorld.map StackStore.lifted) 512 0 (by decide)).2 (greeterSlice 3) List.mem_cons_self
      greeter rfl flatStack helloWorld (by decide)).1 undisturbed_helloWorld
  have htext : (sliceText [greeter] (helloWorld.map StackStore.lifted) 512
      (greeterSlice 3)).map Prod.snd = some "hello world" := by decide
  rwa [htext] at hfaithful

/-- `mov dword [rsp], "aaaa"` and `mov dword [rsp], "bbbb"` -/
def overwritten : List StackStore :=
  [⟨0x1000, 7, .rsp, 0, .dword 0x61616161⟩, ⟨0x1007, 7, .rsp, 0, .dword 0x62626262⟩]

/-- Both are recovered, when only the second is left. -/
theorem overwritten_recovered :
    (recoverStrings [greeter] [greeterSlice 2] (overwritten.map StackStore.lifted) 512 0
        false).rows.map RecoveredStringRecord.text = ["aaaabbbb"] ∧
      ∀ σ, ¬ Faithful σ overwritten (some "aaaabbbb") := by
  refine ⟨by decide, fun σ h => ?_⟩
  obtain ⟨a, bytes, htext, hoccurs⟩ := h.occurs _ rfl
  have hlist := congrArg String.toList htext
  rw [textOf, String.toList_ofList] at hlist
  cases bytes with
  | nil => cases hlist
  | cons b rest =>
    have hchar : Char.ofNat b.toNat = 'a' := (List.cons.inj hlist).1
    have hnat : ∀ n < 256, Char.ofNat n = 'a' → n = 0x61 := by decide +kernel
    have hb : b = 0x61#8 := BitVec.eq_of_toNat_eq (hnat _ b.isLt hchar)
    have hleft := hoccurs 0 b rfl fun _ => 0
    rw [BitVec.add_zero, hb] at hleft
    by_cases hcovers : Covers σ ⟨0x1007, 7, .rsp, 0, .dword 0x62626262⟩ a
    · have hno : ∀ k < 4, (0x62626262#32).extractLsb' (8 * k) 8 ≠ 0x61#8 := by decide
      exact hno _ hcovers ((if_pos hcovers).symm.trans hleft)
    · rw [foldl_exec_of_not_covers] at hleft
      · exact absurd hleft (by decide)
      · intro s hs
        rcases List.mem_pair.mp hs with rfl | rfl
        · exact hcovers
        · exact hcovers

end Axe.Strings.StackStrings
