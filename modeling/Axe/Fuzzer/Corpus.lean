import Axe.Fuzzer.Coverage
import Mathlib.Logic.Function.Basic

/-!
# The corpus and the crash database

Both keep an index in memory and files under the output directory. A disk operation
may fail, and what a failed one leaves in its file is not known. The hash of the
ids and signatures is a parameter.
-/
namespace Axe.Fuzzer

abbrev Input := List UInt8

/-- The digest of some bytes. -/
abbrev Hasher := List UInt8 → List UInt8

def hexByte (b : UInt8) : List Char :=
  let digits := "0123456789abcdef".toList
  [digits.getD (b.toNat / 16) '0', digits.getD (b.toNat % 16) '0']

/-- The first eight bytes of the digest, as a file name. -/
def inputId (blake3 : Hasher) (bytes : Input) : String :=
  "blake3-" ++ String.ofList (((blake3 bytes).take 8).flatMap hexByte)

inductive ExitKind where
  | ok | crash | timeout | sanitizer | panic | emulatorOOB | emulatorLowFidelity
  deriving DecidableEq

def ExitKind.isCrashLike : ExitKind → Bool
  | .crash | .sanitizer | .panic | .emulatorOOB => true
  | _ => false

def shouldDedupe (exit : ExitKind) : Bool := exit.isCrashLike || exit = .timeout

structure CrashInfo where
  kind : String
  signal : Option Int32
  faultPc : Option UInt64
  topFrames : List UInt64
  sanitizerType : Option String
  deriving DecidableEq

def leBytes (width n : Nat) : List UInt8 :=
  (List.range width).map fun i => UInt8.ofNat (n / 256 ^ i)

abbrev CrashSignature := List UInt8

def signatureFor (blake3 : Hasher) (info : CrashInfo) : CrashSignature :=
  let bar := "|".toUTF8.toList
  let frames := info.topFrames.mergeSort (· ≤ ·)
  blake3 (info.kind.toUTF8.toList ++ bar ++
    (info.signal.map fun sig => leBytes 4 sig.toUInt32.toNat).getD [] ++ bar ++
    frames.flatMap (fun f => leBytes 8 f.toNat) ++ bar ++
    (info.sanitizerType.map fun s => s.toUTF8.toList).getD [])

/-- The files that the fuzzer writes. -/
structure Disk where
  queue : String → Option Input
  staging : String → Option Input
  crashInput : CrashSignature → Option Input
  crashInfo : CrashSignature → Option (String × CrashInfo)

/-- How a disk operation ends, and what a failed one leaves in the file. -/
inductive Fate (α : Type) where
  | done
  | failed (left : Option α)

namespace Fate
variable {α : Type}

def ok : Fate α → Bool
  | .done => true
  | .failed _ => false

/-- The file after an operation that should bring it to the given contents. -/
def leaves (fate : Fate α) (wanted : Option α) : Option α :=
  match fate with
  | .done => wanted
  | .failed left => left

end Fate

namespace Disk

def stage (fate : Fate Input) (d : Disk) (id : String) (bytes : Input) : Disk × Bool :=
  ({ d with staging := Function.update d.staging id (fate.leaves (some bytes)) }, fate.ok)

def discard (fate : Fate Input) (d : Disk) (id : String) : Disk × Bool :=
  ({ d with staging := Function.update d.staging id (fate.leaves none) }, fate.ok)

/-- The staged files, which are listed in no particular order. -/
def recoverOrphans (d : Disk) : Set (String × Input) := {f | d.staging f.1 = some f.2}

end Disk

structure QueueMetadata where
  noveltyNewEdges : Nat
  noveltyNewBuckets : Nat
  execUs : Nat

def QueueMetadata.fromNovelty (n : Novelty) (execUs : Nat) : QueueMetadata :=
  ⟨n.newEdges, n.newBuckets, execUs⟩

structure QueueEntry where
  id : String
  parentId : Option String
  input : Input
  metadata : QueueMetadata

structure FuzzCorpus where
  entries : List QueueEntry
  byId : String → Option Nat

namespace FuzzCorpus

def opened : FuzzCorpus := ⟨[], fun _ => none⟩

def persistInput (fate : Fate Input) (d : Disk) (id : String) (bytes : Input) : Disk × Bool :=
  ({ d with queue := Function.update d.queue id (fate.leaves (some bytes)) }, fate.ok)

/-- A known id is not stored again. No index is an error of the disk. -/
def add (fate : Fate Input) (c : FuzzCorpus) (d : Disk) (entry : QueueEntry) :
    FuzzCorpus × Disk × Option Nat :=
  match c.byId entry.id with
  | some existing => (c, d, some existing)
  | none =>
    let (d, ok) := persistInput fate d entry.id entry.input
    if ok then
      (⟨c.entries ++ [entry], Function.update c.byId entry.id (some c.entries.length)⟩, d,
        some c.entries.length)
    else (c, d, none)

end FuzzCorpus

structure CrashEntry where
  signature : CrashSignature
  count : Nat
  firstInputId : String

structure CrashDb where
  seen : CrashSignature → Option CrashEntry

namespace CrashDb

def opened : CrashDb := ⟨fun _ => none⟩

/-- The input is written first, then the description. -/
def persistCrash (input : Fate Input) (description : Fate (String × CrashInfo)) (d : Disk)
    (signature : CrashSignature) (id : String) (bytes : Input) (info : CrashInfo) : Disk × Bool :=
  let d := { d with
    crashInput := Function.update d.crashInput signature (input.leaves (some bytes)) }
  if input.ok then
    ({ d with
      crashInfo := Function.update d.crashInfo signature (description.leaves (some (id, info))) },
      description.ok)
  else (d, false)

/-- The signature of a new family, nothing for a known one. The outer option is the disk's. -/
def dedupAndStore (blake3 : Hasher) (input : Fate Input) (description : Fate (String × CrashInfo))
    (db : CrashDb) (d : Disk) (id : String) (bytes : Input) (info : CrashInfo) :
    CrashDb × Disk × Option (Option CrashSignature) :=
  let signature := signatureFor blake3 info
  match db.seen signature with
  | some entry =>
    (⟨Function.update db.seen signature (some { entry with count := entry.count + 1 })⟩, d,
      some none)
  | none =>
    let (d, ok) := persistCrash input description d signature id bytes info
    if ok then
      (⟨Function.update db.seen signature (some ⟨signature, 1, id⟩)⟩, d,
        some (some signature))
    else (db, d, none)

end CrashDb

section Sync
variable {blake3 : Hasher} {c : FuzzCorpus} {d d' : Disk} {entry : QueueEntry}

/-- The index knows the entries, an entry is named by its input, and its file holds the input. -/
structure FuzzCorpus.InSync (blake3 : Hasher) (c : FuzzCorpus) (d : Disk) : Prop where
  indexed : ∀ id idx, c.byId id = some idx ↔ ∃ e, c.entries[idx]? = some e ∧ e.id = id
  named : ∀ e ∈ c.entries, e.id = inputId blake3 e.input
  stored : ∀ e ∈ c.entries, d.queue e.id = some e.input

theorem opened_inSync : FuzzCorpus.opened.InSync blake3 d where
  indexed _ _ := by simp [FuzzCorpus.opened]
  named _ h := by cases h
  stored _ h := by cases h

theorem FuzzCorpus.InSync.of_queue (h : c.InSync blake3 d) (hq : d'.queue = d.queue) :
    c.InSync blake3 d' where
  indexed := h.indexed
  named := h.named
  stored e he := hq ▸ h.stored e he

theorem FuzzCorpus.InSync.byId_none (h : c.InSync blake3 d) {id : String} :
    c.byId id = none ↔ ∀ e ∈ c.entries, e.id ≠ id := by
  rw [Option.eq_none_iff_forall_ne_some]
  constructor
  · rintro hn e he rfl
    obtain ⟨idx, hidx⟩ := List.mem_iff_getElem?.mp he
    exact hn idx ((h.indexed _ _).mpr ⟨e, hidx, rfl⟩)
  · rintro hn idx hidx
    obtain ⟨e, he, hid⟩ := (h.indexed _ _).mp hidx
    exact hn e (List.mem_of_getElem? he) hid

/-- What an `add` does: nothing for a known id, else the entry and its file, or an error that
leaves the entries. -/
inductive AddSpec (fate : Fate Input) (c : FuzzCorpus) (d : Disk) (entry : QueueEntry) :
    FuzzCorpus × Disk × Option Nat → Prop
  | known {idx : Nat} : c.byId entry.id = some idx → AddSpec fate c d entry (c, d, some idx)
  | stored : c.byId entry.id = none → fate.ok = true → AddSpec fate c d entry
      (⟨c.entries ++ [entry], Function.update c.byId entry.id (some c.entries.length)⟩,
        { d with queue := Function.update d.queue entry.id (some entry.input) },
        some c.entries.length)
  | failed (left : Option Input) : c.byId entry.id = none → fate.ok = false →
      AddSpec fate c d entry (c, { d with queue := Function.update d.queue entry.id left }, none)

theorem add_spec (fate : Fate Input) (c : FuzzCorpus) (d : Disk) (entry : QueueEntry) :
    AddSpec fate c d entry (c.add fate d entry) := by
  cases hid : c.byId entry.id with
  | some idx =>
    rw [FuzzCorpus.add, hid]
    exact .known hid
  | none =>
    cases fate with
    | done =>
      simp only [FuzzCorpus.add, hid, FuzzCorpus.persistInput, Fate.ok, if_true]
      exact .stored hid rfl
    | failed left =>
      simp only [FuzzCorpus.add, hid, FuzzCorpus.persistInput, Fate.ok]
      exact .failed left hid rfl

/-- The entries with a new one behind them. -/
theorem indexed_concat (h : c.InSync blake3 d) (hid : c.byId entry.id = none) (id : String)
    (idx : Nat) : Function.update c.byId entry.id (some c.entries.length) id = some idx ↔
      ∃ e, (c.entries ++ [entry])[idx]? = some e ∧ e.id = id := by
  have hget : ∀ e, (c.entries ++ [entry])[idx]? = some e ↔
      c.entries[idx]? = some e ∨ idx = c.entries.length ∧ entry = e := by
    intro e
    grind
  by_cases heq : id = entry.id
  · subst heq
    rw [Function.update_self]
    constructor
    · intro hidx
      cases hidx
      exact ⟨entry, (hget entry).mpr (.inr ⟨rfl, rfl⟩), rfl⟩
    · rintro ⟨e, he, hname'⟩
      rcases (hget e).mp he with he | ⟨hlen, -⟩
      · exact absurd hname' (h.byId_none.mp hid e (List.mem_of_getElem? he))
      · rw [hlen]
  · rw [Function.update_of_ne heq, h.indexed]
    constructor
    · rintro ⟨e, he, hname'⟩
      exact ⟨e, (hget e).mpr (.inl he), hname'⟩
    · rintro ⟨e, he, hname'⟩
      rcases (hget e).mp he with he | ⟨-, rfl⟩
      · exact ⟨e, he, hname'⟩
      · exact absurd hname'.symm heq

theorem AddSpec.inSync {fate : Fate Input} {r : FuzzCorpus × Disk × Option Nat}
    (hadd : AddSpec fate c d entry r) (h : c.InSync blake3 d)
    (hname : entry.id = inputId blake3 entry.input) : r.1.InSync blake3 r.2.1 := by
  cases hadd with
  | known _ => exact h
  | stored hid _ =>
    refine ⟨indexed_concat h hid, fun e he => ?_, fun e he => ?_⟩
    · rcases List.mem_append.mp he with he | he
      · exact h.named e he
      · exact List.mem_singleton.mp he ▸ hname
    · rcases List.mem_append.mp he with he | he
      · exact (Function.update_of_ne (h.byId_none.mp hid e he) _ _).trans (h.stored e he)
      · rw [List.mem_singleton.mp he]
        exact Function.update_self _ _ _
  | failed left hid _ =>
    refine ⟨h.indexed, h.named, fun e he => ?_⟩
    exact (Function.update_of_ne (h.byId_none.mp hid e he) _ _).trans (h.stored e he)

/-- An input is stored in the corpus: an entry has it, and so has the entry's file. -/
def FuzzCorpus.Holds (c : FuzzCorpus) (d : Disk) (input : Input) : Prop :=
  ∃ e ∈ c.entries, e.input = input ∧ d.queue e.id = some input

theorem AddSpec.holds_iff {fate : Fate Input} {r : FuzzCorpus × Disk × Option Nat}
    (hadd : AddSpec fate c d entry r) (h : c.InSync blake3 d) (input : Input) :
    r.1.Holds r.2.1 input ↔ c.Holds d input ∨
      input = entry.input ∧ c.byId entry.id = none ∧ fate.ok = true := by
  have hkeep : ∀ {queue : String → Option Input}, c.byId entry.id = none →
      (∀ id, id ≠ entry.id → queue id = d.queue id) →
      ∀ e ∈ c.entries, queue e.id = d.queue e.id := fun hid hq e he =>
    hq _ (h.byId_none.mp hid e he)
  cases hadd with
  | known hid => simp [hid]
  | stored hid hok =>
    have hold := hkeep hid fun id hne => Function.update_of_ne hne (some entry.input) d.queue
    constructor
    · rintro ⟨e, he, rfl, hq⟩
      rcases List.mem_append.mp he with he | he
      · exact .inl ⟨e, he, rfl, (hold e he).symm.trans hq⟩
      · exact .inr ⟨congrArg _ (List.mem_singleton.mp he), hid, hok⟩
    · rintro (⟨e, he, rfl, hq⟩ | ⟨rfl, -, -⟩)
      · exact ⟨e, List.mem_append_left _ he, rfl, (hold e he).trans hq⟩
      · exact ⟨entry, List.mem_append_right _ List.mem_cons_self, rfl, Function.update_self _ _ _⟩
  | failed left hid hfail =>
    have hold := hkeep hid fun id hne => Function.update_of_ne hne left d.queue
    simp only [hfail, Bool.false_eq_true, and_false, or_false]
    constructor
    · rintro ⟨e, he, rfl, hq⟩
      exact ⟨e, he, rfl, (hold e he).symm.trans hq⟩
    · rintro ⟨e, he, rfl, hq⟩
      exact ⟨e, he, rfl, (hold e he).trans hq⟩

/-- What `dedupAndStore` does: a count for a known family, else the family and its two files, or
an error that records no family. -/
inductive DedupSpec (input : Fate Input) (description : Fate (String × CrashInfo)) (db : CrashDb)
    (d : Disk) (signature : CrashSignature) (id : String) (bytes : Input) (info : CrashInfo) :
    CrashDb × Disk × Option (Option CrashSignature) → Prop
  | known {entry : CrashEntry} : db.seen signature = some entry →
      DedupSpec input description db d signature id bytes info
        (⟨Function.update db.seen signature (some { entry with count := entry.count + 1 })⟩, d,
          some none)
  | stored : db.seen signature = none → input.ok = true → description.ok = true →
      DedupSpec input description db d signature id bytes info
        (⟨Function.update db.seen signature (some ⟨signature, 1, id⟩)⟩,
          { d with
            crashInput := Function.update d.crashInput signature (some bytes)
            crashInfo := Function.update d.crashInfo signature (some (id, info)) },
          some (some signature))
  | failed (left : Option Input) {crashInfo : CrashSignature → Option (String × CrashInfo)} :
      db.seen signature = none → input.ok = false ∨ description.ok = false →
      DedupSpec input description db d signature id bytes info
        (db, { d with
          crashInput := Function.update d.crashInput signature left
          crashInfo := crashInfo }, none)

theorem dedup_spec (blake3 : Hasher) (input : Fate Input) (description : Fate (String × CrashInfo)) (db : CrashDb)
    (d : Disk) (id : String) (bytes : Input) (info : CrashInfo) :
    DedupSpec input description db d (signatureFor blake3 info) id bytes info
      (CrashDb.dedupAndStore blake3 input description db d id bytes info) := by
  cases hseen : db.seen (signatureFor blake3 info) with
  | some entry =>
    simp only [CrashDb.dedupAndStore, hseen]
    exact .known hseen
  | none =>
    cases input with
    | failed left =>
      simp only [CrashDb.dedupAndStore, CrashDb.persistCrash, hseen, Fate.ok]
      exact .failed left hseen (.inl rfl)
    | done =>
      cases description with
      | failed left =>
        simp only [CrashDb.dedupAndStore, CrashDb.persistCrash, hseen, Fate.ok, if_true]
        exact .failed (some bytes) hseen (.inr rfl)
      | done =>
        simp only [CrashDb.dedupAndStore, CrashDb.persistCrash, hseen, Fate.ok, if_true]
        exact .stored hseen rfl rfl

/-- An input is the reproducer of a recorded family. -/
def CrashDb.Holds (db : CrashDb) (d : Disk) (input : Input) : Prop :=
  ∃ sig, (db.seen sig).isSome ∧ d.crashInput sig = some input

theorem DedupSpec.holds_iff {input : Fate Input} {description : Fate (String × CrashInfo)}
    {db : CrashDb} {signature : CrashSignature} {id : String} {bytes : Input} {info : CrashInfo}
    {r : CrashDb × Disk × Option (Option CrashSignature)}
    (hdedup : DedupSpec input description db d signature id bytes info r) (found : Input) :
    r.1.Holds r.2.1 found ↔ db.Holds d found ∨ found = bytes ∧ db.seen signature = none ∧
      input.ok = true ∧ description.ok = true := by
  cases hdedup with
  | @known entry hseen =>
    simp only [hseen, reduceCtorEq, false_and, and_false, or_false]
    refine exists_congr fun sig => and_congr_left fun _ => ?_
    dsimp only
    by_cases heq : sig = signature
    · rw [heq, Function.update_self, hseen]
      exact Iff.rfl
    · rw [Function.update_of_ne heq]
  | stored hseen hin hdesc =>
    constructor
    · rintro ⟨sig, hsig, hfound⟩
      dsimp only at hsig hfound
      by_cases heq : sig = signature
      · subst heq
        rw [Function.update_self] at hfound
        exact .inr ⟨(Option.some.inj hfound).symm, hseen, hin, hdesc⟩
      · rw [Function.update_of_ne heq] at hsig hfound
        exact .inl ⟨sig, hsig, hfound⟩
    · rintro (⟨sig, hsig, hfound⟩ | ⟨rfl, -⟩)
      · have hne : sig ≠ signature := by
          rintro rfl
          rw [hseen] at hsig
          cases hsig
        refine ⟨sig, ?_, (Function.update_of_ne hne _ _).trans hfound⟩
        dsimp only
        rw [Function.update_of_ne hne]
        exact hsig
      · refine ⟨signature, ?_, Function.update_self _ _ _⟩
        dsimp only
        rw [Function.update_self]
        rfl
  | failed left hseen hfail =>
    have hno : ¬(input.ok = true ∧ description.ok = true) := by
      rintro ⟨hin, hdesc⟩
      rcases hfail with h | h
      · exact Bool.false_ne_true (h.symm.trans hin)
      · exact Bool.false_ne_true (h.symm.trans hdesc)
    simp only [hno, and_false, or_false]
    refine exists_congr fun sig => and_congr_right fun hsig => ?_
    have hne : sig ≠ signature := by
      rintro rfl
      rw [hseen] at hsig
      cases hsig
    dsimp only
    rw [Function.update_of_ne hne]

end Sync

/-- The digest of the empty input. -/
def emptyDigest : Hasher := fun bytes =>
  if bytes = [] then [0xaf, 0x13, 0x49, 0xb9, 0xf5, 0xf9, 0xa1, 0xa6, 0xa0, 0x40, 0x4d, 0xea, 0x36,
    0xdc, 0xc9, 0x49, 0x9b, 0xcb, 0x25, 0xc9, 0xad, 0xc1, 0x12, 0xb7, 0xcc, 0x9a, 0x93, 0xca, 0xe4,
    0x1f, 0x32, 0x62] else []

def emptyDisk : Disk := ⟨fun _ => none, fun _ => none, fun _ => none, fun _ => none⟩

end Axe.Fuzzer
