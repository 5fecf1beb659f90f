import Axe.Pe.Bytes
import Axe.Static.Ir

/-!
# Tables of jump targets

The bytes at a table are read as addresses, as addresses relative to the image, and as distances
from the table, in this order. The first reading with two executable targets in front is taken.
-/
namespace Axe.Static

open Axe.Pe (fromLeBytes)
open Checked (Fault add)

structure ResolvedTable where
  kind : String
  targets : List Nat
  entrySize : Nat
  deriving DecidableEq

/-- The parts of `size` bytes; what is left over at the end is dropped. -/
def chunksExact (size : Nat) (data : List UInt8) : List (List UInt8) :=
  (List.range (data.length / size)).map fun i => (data.drop (i * size)).take size

/-- The signed number of 32 bits that the bytes stand for. -/
def i32FromLeBytes (bytes : List UInt8) : Int :=
  let n := fromLeBytes bytes
  if n < 2 ^ 31 then n else n - 2 ^ 32

/-- The targets up to the first that is not executable. -/
def leadingTargets (isExecutable : Nat → Bool) (decode : List UInt8 → Except Fault Nat) :
    List (List UInt8) → Except Fault (List Nat)
  | [] => .ok []
  | chunk :: chunks => do
    let target ← decode chunk
    if isExecutable target then
      return target :: (← leadingTargets isExecutable decode chunks)
    else return []

def enough (targets : List Nat) : Option (List Nat) :=
  if 2 ≤ targets.length then some targets else none

section Entries
variable (data : List UInt8) (isExecutable : Nat → Bool) (maxEntries : Nat)

def resolveEntries (size : Nat) (decode : List UInt8 → Except Fault Nat) :
    Except Fault (Option (List Nat)) := do
  return enough (← leadingTargets isExecutable decode ((chunksExact size data).take maxEntries))

def resolveAbsoluteEntries : Except Fault (Option (List Nat)) :=
  resolveEntries data isExecutable maxEntries 8 fun chunk => .ok (fromLeBytes chunk)

def resolveRvaEntries (imageBase : Word) : Except Fault (Option (List Nat)) :=
  resolveEntries data isExecutable maxEntries 4 fun chunk => add 64 imageBase.val (fromLeBytes chunk)

def resolveRelativeEntries (tableVa : Word) : Except Fault (Option (List Nat)) :=
  resolveEntries data isExecutable maxEntries 4 fun chunk =>
    .ok (tableVa.wrappingAddSigned (i32FromLeBytes chunk)).val

end Entries

def resolveTableEntries (tableVa : Word) (data : List UInt8) (imageBase : Word)
    (isExecutable : Nat → Bool) (maxEntries : Nat) : Except Fault (Option ResolvedTable) := do
  match ← resolveAbsoluteEntries data isExecutable maxEntries with
  | some targets => return some ⟨"absolute", targets, 8⟩
  | none =>
    match ← resolveRvaEntries data isExecutable maxEntries imageBase with
    | some targets => return some ⟨"rva", targets, 4⟩
    | none =>
      return (← resolveRelativeEntries data isExecutable maxEntries tableVa).map fun targets =>
        ⟨"relative", targets, 4⟩

section Readings
variable (data : List UInt8) (maxEntries : Nat)

def entriesOf (size : Nat) (value : List UInt8 → Nat) : List Nat :=
  ((chunksExact size data).take maxEntries).map value

def absoluteEntries : List Nat := entriesOf data maxEntries 8 fromLeBytes

def rvaEntries (imageBase : Word) : List Nat :=
  entriesOf data maxEntries 4 fun chunk => imageBase.val + fromLeBytes chunk

def relativeEntries (tableVa : Word) : List Nat :=
  entriesOf data maxEntries 4 fun chunk => (tableVa.wrappingAddSigned (i32FromLeBytes chunk)).val

end Readings

/-- A table has the executable entries in front of one reading, and without one no reading has
two of them. -/
structure Maximal (tableVa : Word) (data : List UInt8) (imageBase : Word) (isExecutable : Nat → Bool)
    (maxEntries : Nat) (result : Option ResolvedTable) : Prop where
  table : ∀ t, result = some t → 2 ≤ t.targets.length ∧ ∃ entries,
    t.targets = entries.takeWhile isExecutable ∧
    ((t.kind, t.entrySize, entries) = ("absolute", 8, absoluteEntries data maxEntries) ∨
      (t.kind, t.entrySize, entries) = ("rva", 4, rvaEntries data maxEntries imageBase) ∨
      (t.kind, t.entrySize, entries) = ("relative", 4, relativeEntries data maxEntries tableVa))
  none : result = none → ∀ entries ∈ [absoluteEntries data maxEntries,
    rvaEntries data maxEntries imageBase, relativeEntries data maxEntries tableVa],
    (entries.takeWhile isExecutable).length < 2

/-- The entries up to the first that is not executable are addresses. -/
def Fit (isExecutable : Nat → Bool) (entries : List Nat) : Prop :=
  ∀ front target rest, entries = front ++ target :: rest →
    (∀ t ∈ front, isExecutable t = true) → target < 2 ^ 64

section Proofs
variable {tableVa imageBase : Word} {maxEntries size : Nat} {data : List UInt8} {isExecutable : Nat → Bool}
  {value : List UInt8 → Nat} {chunks : List (List UInt8)}

theorem leadingTargets_total :
    leadingTargets isExecutable (fun chunk => .ok (value chunk)) chunks =
      .ok ((chunks.map value).takeWhile isExecutable) := by
  induction chunks with
  | nil => rfl
  | cons chunk chunks ih =>
    rw [List.map_cons, List.takeWhile_cons, leadingTargets, ih]
    cases h : isExecutable (value chunk) <;> simp [h, bind, Except.bind, pure, Except.pure]

theorem leadingTargets_value {decode : List UInt8 → Except Fault Nat} {targets : List Nat}
    (hdecode : ∀ chunk t, decode chunk = .ok t → t = value chunk)
    (h : leadingTargets isExecutable decode chunks = .ok targets) :
    targets = (chunks.map value).takeWhile isExecutable := by
  induction chunks generalizing targets with
  | nil =>
    cases h
    rfl
  | cons chunk chunks ih =>
    obtain ⟨target, htarget, h⟩ := Checked.bind_eq_ok.mp h
    rw [List.map_cons, List.takeWhile_cons, ← hdecode chunk target htarget]
    split at h
    · rename_i hexec
      obtain ⟨rest, hrest, h⟩ := Checked.bind_eq_ok.mp h
      cases h
      rw [if_pos hexec, ih hrest]
    · rename_i hexec
      cases h
      rw [if_neg hexec]

theorem fit_cons {target : Nat} {rest : List Nat} : Fit isExecutable (target :: rest) ↔
    target < 2 ^ 64 ∧ (isExecutable target = true → Fit isExecutable rest) := by
  constructor
  · intro h
    refine ⟨h [] target rest rfl fun _ ht => absurd ht List.not_mem_nil, fun hexec => ?_⟩
    intro front t rest' heq hfront
    refine h (target :: front) t rest' (by rw [heq, List.cons_append]) fun x hx => ?_
    rcases List.mem_cons.mp hx with rfl | hx
    · exact hexec
    · exact hfront x hx
  · rintro ⟨hlt, hrest⟩ front t rest' heq hfront
    cases front with
    | nil =>
      cases heq
      exact hlt
    | cons x front =>
      obtain ⟨rfl, hrest'⟩ := List.cons.inj heq
      exact hrest (hfront target List.mem_cons_self) front t rest' hrest'
        fun y hy => hfront y (List.mem_cons_of_mem _ hy)

theorem add_value {chunk : List UInt8} {t : Nat}
    (h : add 64 imageBase.val (fromLeBytes chunk) = .ok t) :
    t = imageBase.val + fromLeBytes chunk := by
  rw [add] at h
  split at h <;> cases h
  rfl

/-- Sums are made up to the first target that is not executable. -/
theorem leadingTargets_add :
    (∃ targets, leadingTargets isExecutable
      (fun chunk => add 64 imageBase.val (fromLeBytes chunk)) chunks = .ok targets) ↔
    Fit isExecutable (chunks.map fun chunk => imageBase.val + fromLeBytes chunk) := by
  induction chunks with
  | nil =>
    refine iff_of_true ⟨[], rfl⟩ fun front target rest heq => ?_
    cases front <;> cases heq
  | cons chunk chunks ih =>
    rw [List.map_cons, fit_cons, leadingTargets, add]
    by_cases hlt : imageBase.val + fromLeBytes chunk < 2 ^ 64
    · rw [if_pos hlt, and_iff_right hlt, ← ih]
      cases hexec : isExecutable (imageBase.val + fromLeBytes chunk) with
      | false => simp [bind, Except.bind, pure, Except.pure, hexec]
      | true =>
        rw [imp_iff_right rfl]
        constructor
        · rintro ⟨targets, heq⟩
          obtain ⟨target, htarget, heq⟩ := Checked.bind_eq_ok.mp heq
          cases htarget
          rw [if_pos hexec] at heq
          obtain ⟨rest, hrest, -⟩ := Checked.bind_eq_ok.mp heq
          exact ⟨rest, hrest⟩
        · rintro ⟨rest, hrest⟩
          refine ⟨(imageBase.val + fromLeBytes chunk) :: rest,
            Checked.bind_eq_ok.mpr ⟨_, rfl, ?_⟩⟩
          rw [if_pos hexec]
          exact Checked.bind_eq_ok.mpr ⟨rest, hrest, rfl⟩
    · rw [if_neg hlt]
      refine iff_of_false ?_ fun h => hlt h.1
      rintro ⟨targets, heq⟩
      cases heq

theorem enough_eq_some {targets found : List Nat} :
    enough targets = some found ↔ targets = found ∧ 2 ≤ found.length := by
  rw [enough, Option.ite_none_right_eq_some, Option.some.injEq]
  constructor
  · rintro ⟨hlen, rfl⟩
    exact ⟨rfl, hlen⟩
  · rintro ⟨rfl, hlen⟩
    exact ⟨hlen, rfl⟩

theorem enough_eq_none {targets : List Nat} : enough targets = none ↔ targets.length < 2 := by
  rw [enough, ite_eq_right_iff]
  constructor
  · intro h
    by_contra hlen
    exact absurd (h (not_lt.mp hlen)) nofun
  · intro h hlen
    omega

theorem resolveAbsoluteEntries_eq : resolveAbsoluteEntries data isExecutable maxEntries =
    .ok (enough ((absoluteEntries data maxEntries).takeWhile isExecutable)) := by
  rw [resolveAbsoluteEntries, resolveEntries, leadingTargets_total]
  rfl

theorem resolveRelativeEntries_eq : resolveRelativeEntries data isExecutable maxEntries tableVa =
    .ok (enough ((relativeEntries data maxEntries tableVa).takeWhile isExecutable)) := by
  rw [resolveRelativeEntries, resolveEntries, leadingTargets_total]
  rfl

theorem resolveRvaEntries_eq (hfit : Fit isExecutable (rvaEntries data maxEntries imageBase)) :
    resolveRvaEntries data isExecutable maxEntries imageBase =
      .ok (enough ((rvaEntries data maxEntries imageBase).takeWhile isExecutable)) := by
  obtain ⟨targets, heq⟩ := leadingTargets_add.mpr hfit
  rw [resolveRvaEntries, resolveEntries, heq, leadingTargets_value (fun _ _ => add_value) heq]
  rfl

theorem resolveRvaEntries_fit {found : Option (List Nat)}
    (h : resolveRvaEntries data isExecutable maxEntries imageBase = .ok found) :
    Fit isExecutable (rvaEntries data maxEntries imageBase) := by
  obtain ⟨targets, heq, -⟩ := Checked.bind_eq_ok.mp h
  exact leadingTargets_add.mp ⟨targets, heq⟩

/-- Where a reading gives a table or none, the table is the first that the readings have. -/
theorem maximal_of_absolute {targets : List Nat}
    (h : enough ((absoluteEntries data maxEntries).takeWhile isExecutable) = some targets) :
    Maximal tableVa data imageBase isExecutable maxEntries (some ⟨"absolute", targets, 8⟩) where
  table := by
    rintro t ⟨⟩
    obtain ⟨heq, hlen⟩ := enough_eq_some.mp h
    exact ⟨hlen, _, heq.symm, .inl rfl⟩
  none := nofun

theorem maximal_of_rva {targets : List Nat}
    (h : enough ((rvaEntries data maxEntries imageBase).takeWhile isExecutable) = some targets) :
    Maximal tableVa data imageBase isExecutable maxEntries (some ⟨"rva", targets, 4⟩) where
  table := by
    rintro t ⟨⟩
    obtain ⟨heq, hlen⟩ := enough_eq_some.mp h
    exact ⟨hlen, _, heq.symm, .inr (.inl rfl)⟩
  none := nofun

theorem maximal_of_relative
    (habsolute : enough ((absoluteEntries data maxEntries).takeWhile isExecutable) = none)
    (hrva : enough ((rvaEntries data maxEntries imageBase).takeWhile isExecutable) = none) :
    Maximal tableVa data imageBase isExecutable maxEntries
      ((enough ((relativeEntries data maxEntries tableVa).takeWhile isExecutable)).map
        fun targets => ⟨"relative", targets, 4⟩) where
  table := by
    intro t ht
    obtain ⟨targets, htargets, rfl⟩ := Option.map_eq_some_iff.mp ht
    obtain ⟨heq, hlen⟩ := enough_eq_some.mp htargets
    exact ⟨hlen, _, heq.symm, .inr (.inr rfl)⟩
  none := by
    intro hnone entries hmem
    have hrelative := Option.map_eq_none_iff.mp hnone
    simp only [List.mem_cons, List.not_mem_nil, or_false] at hmem
    rcases hmem with rfl | rfl | rfl
    · exact enough_eq_none.mp habsolute
    · exact enough_eq_none.mp hrva
    · exact enough_eq_none.mp hrelative

end Proofs

/-- The decoding makes no sum that overflows, and finds the executable entries in front of the
first reading that has two, just when the absolute reading has two or the sums up to the first
relative address that is not executable are addresses. -/
theorem resolveTableEntries_maximal_iff (tableVa imageBase : Word) (data : List UInt8)
    (isExecutable : Nat → Bool) (maxEntries : Nat) :
    (∃ result, resolveTableEntries tableVa data imageBase isExecutable maxEntries = .ok result ∧
      Maximal tableVa data imageBase isExecutable maxEntries result) ↔
    2 ≤ ((absoluteEntries data maxEntries).takeWhile isExecutable).length ∨
      Fit isExecutable (rvaEntries data maxEntries imageBase) := by
  rw [resolveTableEntries, resolveAbsoluteEntries_eq]
  cases habsolute : enough ((absoluteEntries data maxEntries).takeWhile isExecutable) with
  | some targets =>
    obtain ⟨heq, hlen⟩ := enough_eq_some.mp habsolute
    exact iff_of_true ⟨_, rfl, maximal_of_absolute habsolute⟩ (.inl (heq ▸ hlen))
  | none =>
    rw [or_iff_right (not_le.mpr (enough_eq_none.mp habsolute))]
    constructor
    · rintro ⟨result, heq, -⟩
      obtain ⟨_, hnone, heq⟩ := Checked.bind_eq_ok.mp heq
      cases hnone
      obtain ⟨found, hfound, -⟩ := Checked.bind_eq_ok.mp heq
      exact resolveRvaEntries_fit hfound
    · intro hfit
      rw [resolveRvaEntries_eq hfit, resolveRelativeEntries_eq]
      cases hrva : enough ((rvaEntries data maxEntries imageBase).takeWhile isExecutable) with
      | some targets => exact ⟨_, rfl, maximal_of_rva hrva⟩
      | none => exact ⟨_, rfl, maximal_of_relative habsolute hrva⟩

/-- An image at the top of the address space: the first sum overflows. -/
theorem top_image_overflows :
    resolveTableEntries 0 [0, 16, 0, 0, 0, 16, 0, 0] 18446744073709547520 (fun _ => true) 128 =
      .error (.overflow 64) := by
  decide

end Axe.Static
