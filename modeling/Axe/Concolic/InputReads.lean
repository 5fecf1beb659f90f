import Axe.Concolic.ShadowRuns
import Axe.Concolic.ShadowValues

/-!
# Reads of the input region

With overflow checks an addition that overflows panics, without them it goes on with the wrapped
sum. A read is inside when neither happens and each byte of its result is the byte at its address.
-/
namespace Axe.Concolic

open Shadow (checked)

section Wrapping

def concatInputBytesWrapping (start : BitVec 32) (count : Nat) : Shadow (Option NodeId) :=
  concatBytes (fun i => some <$> inputByteVar (start + BitVec.ofNat 32 i)) (List.range count) none

def concatShadowBytesWrapping (addr : BitVec 64) (count : Nat) : Shadow (Option NodeId) :=
  concatBytes (fun i => do return (← get).state.memory (addr + BitVec.ofNat 64 i))
    (List.range count) none

def ShadowEmulator.inInputWrapping (em : ShadowEmulator) (addr : BitVec 64) (count : Nat) : Bool :=
  em.inputBase ≤ addr &&
    addr + BitVec.ofNat 64 count ≤ em.inputBase + em.inputLen.setWidth 64

/-- `read_memory_region` of a build without overflow checks. -/
def readMemoryRegionWrapping (base : Option (List Char)) (disp : BitVec 64) (widthBits : Nat) :
    Shadow (Option NodeId) := do
  if widthBits = 0 ∨ widthBits % 8 ≠ 0 then return none
  let em ← get
  let addr := em.effectiveAddr base disp
  if ¬ em.baseConcrete base then return none
  if em.inInputWrapping addr (widthBits / 8) then
    concatInputBytesWrapping ((addr - em.inputBase).setWidth 32) (widthBits / 8)
  else concatShadowBytesWrapping addr (widthBits / 8)

/-- Where the one ends, the other ends the same way. -/
def AgreesWith {α : Type} (m m' : Shadow α) : Prop := ∀ em, m em = none ∨ m em = m' em

variable {α β : Type} {m m' : Shadow α} {f f' : α → Shadow β}

theorem AgreesWith.refl (m : Shadow α) : AgreesWith m m := fun _ => .inr rfl

theorem AgreesWith.bind (hm : AgreesWith m m') (hf : ∀ a, AgreesWith (f a) (f' a)) :
    AgreesWith (m >>= f) (m' >>= f') := by
  intro em
  show (m em).bind (fun p => f p.1 p.2) = none ∨
    (m em).bind (fun p => f p.1 p.2) = (m' em).bind fun p => f' p.1 p.2
  rcases hm em with h | h
  · exact .inl (by rw [h]; rfl)
  · rw [← h]
    cases m em with
    | none => exact .inl rfl
    | some p => exact hf p.1 p.2

theorem AgreesWith.get_bind {f f' : ShadowEmulator → Shadow β}
    (h : ∀ em, f em em = none ∨ f em em = f' em em) : AgreesWith (get >>= f) (get >>= f') := h

theorem AgreesWith.checkedAdd {w : Nat} (a b : BitVec w) :
    AgreesWith (checked (checkedAdd a b)) (pure (a + b)) := by
  intro em
  unfold checked Concolic.checkedAdd
  split
  · exact .inr rfl
  · exact .inl rfl

theorem concatBytes_agrees {byte byte' : Nat → Shadow (Option NodeId)}
    (h : ∀ i, AgreesWith (byte i) (byte' i)) (is : List Nat) (acc : Option NodeId) :
    AgreesWith (concatBytes byte is acc) (concatBytes byte' is acc) := by
  induction is generalizing acc with
  | nil => exact .refl _
  | cons i is ih =>
    refine (h i).bind fun b => ?_
    cases b with
    | none => exact .refl _
    | some b =>
      cases acc with
      | none => exact ih _
      | some low => exact (AgreesWith.refl _).bind fun n => ih _

theorem concatInputBytes_agrees (start : BitVec 32) (count : Nat) :
    AgreesWith (concatInputBytes start count) (concatInputBytesWrapping start count) :=
  concatBytes_agrees (fun i => (AgreesWith.checkedAdd start (BitVec.ofNat 32 i)).bind fun _ => .refl _)
    _ _

theorem concatShadowBytes_agrees (addr : BitVec 64) (count : Nat) :
    AgreesWith (concatShadowBytes addr count) (concatShadowBytesWrapping addr count) :=
  concatBytes_agrees (fun i => (AgreesWith.checkedAdd addr (BitVec.ofNat 64 i)).bind fun _ => .refl _)
    _ _

theorem inInput_wrapping {em : ShadowEmulator} {addr : BitVec 64} {count : Nat} {q : Bool}
    (h : em.inInput addr count = some q) : q = em.inInputWrapping addr count := by
  unfold ShadowEmulator.inInput at h
  unfold ShadowEmulator.inInputWrapping
  split at h
  · rename_i hle
    obtain ⟨stop, hstop, h⟩ := Option.bind_eq_some_iff.mp h
    obtain ⟨inputStop, hinput, h⟩ := Option.bind_eq_some_iff.mp h
    obtain ⟨rfl, -⟩ := checkedAdd_eq_some hstop
    obtain ⟨rfl, -⟩ := checkedAdd_eq_some hinput
    rw [decide_eq_true hle, Bool.true_and]
    exact (Option.some.inj h).symm
  · rename_i hle
    rw [decide_eq_false hle, Bool.false_and]
    exact (Option.some.inj h).symm

/-- Unless it panics, a read does what it does without overflow checks. -/
theorem readMemoryRegion_agrees (base : Option (List Char)) (disp : BitVec 64) (width : Nat) :
    AgreesWith (readMemoryRegion base disp width) (readMemoryRegionWrapping base disp width) := by
  unfold readMemoryRegion readMemoryRegionWrapping
  split
  · exact .refl _
  · refine AgreesWith.get_bind fun em => ?_
    by_cases hc : em.baseConcrete base
    · rw [if_neg (not_not_intro hc), if_neg (not_not_intro hc)]
      cases hin : em.inInput (em.effectiveAddr base disp) (width / 8) with
      | none => exact .inl rfl
      | some q =>
        rw [← inInput_wrapping hin]
        cases q with
        | true => exact concatInputBytes_agrees _ _ em
        | false => exact concatShadowBytes_agrees _ _ em
    · rw [if_pos hc, if_pos hc]
      exact .inr rfl

end Wrapping

section Ends
variable {em : ShadowEmulator}

theorem checkedAdd_eq_none {w : Nat} {a b : BitVec w} :
    checkedAdd a b = none ↔ 2 ^ w ≤ a.toNat + b.toNat := by
  unfold checkedAdd
  split
  · rename_i h
    simp only [reduceCtorEq, false_iff]
    omega
  · rename_i h
    simp only [true_iff]
    omega

theorem bind_of_some {α β : Type} {m : Shadow α} {f : α → Shadow β} {a : α} {em' : ShadowEmulator}
    (h : m em = some (a, em')) : (m >>= f) em = f a em' := by
  show (m em).bind (fun p => f p.1 p.2) = f a em'
  rw [h]
  rfl

/-- A loop whose bytes are always there ends. -/
theorem concatBytes_ends {byte : Nat → Shadow (Option NodeId)} {is : List Nat}
    (h : ∀ i ∈ is, ∀ em, byte i em ≠ none) (acc : Option NodeId) (em : ShadowEmulator) :
    concatBytes byte is acc em ≠ none := by
  induction is generalizing acc em with
  | nil => exact Option.some_ne_none _
  | cons i is ih =>
    have ih := ih fun i hi => h i (List.mem_cons_of_mem _ hi)
    obtain ⟨⟨b, em'⟩, hb⟩ := Option.ne_none_iff_exists'.mp (h i List.mem_cons_self em)
    rw [concatBytes]
    intro hnone
    have hnone := (Option.bind_eq_none_iff.mp hnone) _ hb
    cases b with
    | none => cases hnone
    | some b =>
      cases acc with
      | none => exact ih _ _ hnone
      | some low => exact ih _ _ hnone

theorem concatInputBytes_ends {start : BitVec 32} {count : Nat} (h : start.toNat + count ≤ 2 ^ 32)
    (em : ShadowEmulator) : concatInputBytes start count em ≠ none := by
  refine concatBytes_ends (fun i hi em hnone => ?_) none em
  have hi := List.mem_range.mp hi
  have hidx : (BitVec.ofNat 32 i).toNat = i := by
    rw [BitVec.toNat_ofNat, Nat.mod_eq_of_lt (by omega)]
  have hadd : checkedAdd start (BitVec.ofNat 32 i) = some (start + BitVec.ofNat 32 i) := by
    rw [checkedAdd, if_pos (by omega)]
  have hnone := (Option.bind_eq_none_iff.mp hnone) (start + BitVec.ofNat 32 i, em) (by
    rw [checked, hadd]
    rfl)
  cases hnone

/-- The loop over shadow bytes overflows when all bytes up to the end of the address space are
there. -/
theorem concatShadow_none_iff {addr : BitVec 64} {j k : Nat} (hk : j + k < 2 ^ 64)
    (acc : Option NodeId) (em : ShadowEmulator) :
    concatBytes (fun i => do
        let addr ← checked (checkedAdd addr (BitVec.ofNat 64 i))
        return (← get).state.memory addr) (List.range' j k) acc em = none ↔
      ∃ i, j ≤ i ∧ i < j + k ∧ 2 ^ 64 ≤ addr.toNat + i ∧
        ∀ l, j ≤ l → l < i → (em.state.memory (addr + BitVec.ofNat 64 l)).isSome := by
  induction k generalizing j acc em with
  | zero =>
    constructor
    · intro h
      cases h
    · rintro ⟨i, hi, hi', -⟩
      omega
  | succ k ih =>
    have hj : (BitVec.ofNat 64 j).toNat = j := by
      rw [BitVec.toNat_ofNat, Nat.mod_eq_of_lt (by omega)]
    -- the bytes behind this one, in any state with the same memory
    have hrest : ∀ acc em', em'.state.memory = em.state.memory →
        (em.state.memory (addr + BitVec.ofNat 64 j)).isSome → addr.toNat + j < 2 ^ 64 →
        (concatBytes (fun i => do
          let addr ← checked (checkedAdd addr (BitVec.ofNat 64 i))
          return (← get).state.memory addr) (List.range' (j + 1) k) acc em' = none ↔
        ∃ i, j ≤ i ∧ i < j + (k + 1) ∧ 2 ^ 64 ≤ addr.toNat + i ∧
          ∀ l, j ≤ l → l < i → (em.state.memory (addr + BitVec.ofNat 64 l)).isSome) := by
      intro acc em' hmem hsome hlt
      rw [ih (by omega), hmem]
      constructor
      · rintro ⟨i, hi, hi', hover, hall⟩
        refine ⟨i, by omega, by omega, hover, fun l hl hl' => ?_⟩
        by_cases hlj : l = j
        · exact hlj ▸ hsome
        · exact hall l (by omega) hl'
      · rintro ⟨i, hi, hi', hover, hall⟩
        exact ⟨i, by omega, by omega, hover, fun l hl hl' => hall l (by omega) hl'⟩
    rw [List.range'_succ]
    by_cases hlt : addr.toNat + j < 2 ^ 64
    · have hadd : checkedAdd addr (BitVec.ofNat 64 j) = some (addr + BitVec.ofNat 64 j) := by
        rw [checkedAdd, if_pos (by omega)]
      have hbyte : (do
          let addr ← checked (checkedAdd addr (BitVec.ofNat 64 j))
          return (← get).state.memory addr : Shadow (Option NodeId)) em =
            some (em.state.memory (addr + BitVec.ofNat 64 j), em) := by
        rw [hadd]
        rfl
      rw [concatBytes, bind_of_some hbyte]
      cases hm : em.state.memory (addr + BitVec.ofNat 64 j) with
      | none =>
        constructor
        · intro h
          cases h
        · rintro ⟨i, hi, -, hover, hall⟩
          have hsome := hall j le_rfl (by omega)
          rw [hm] at hsome
          cases hsome
      | some b =>
        have hsome : (em.state.memory (addr + BitVec.ofNat 64 j)).isSome := by rw [hm]; rfl
        cases acc with
        | none => exact hrest (some b) em rfl hsome hlt
        | some low => exact hrest _ _ rfl hsome hlt
    · have hadd : checkedAdd addr (BitVec.ofNat 64 j) = none := by
        rw [checkedAdd_eq_none, hj]
        omega
      rw [concatBytes, hadd]
      exact ⟨fun _ => ⟨j, le_rfl, by omega, by omega, fun l hl hl' => by omega⟩, fun _ => rfl⟩

theorem concatShadowBytes_none_iff {addr : BitVec 64} {count : Nat} (hcount : count < 2 ^ 64) :
    concatShadowBytes addr count em = none ↔
      2 ^ 64 < addr.toNat + count ∧ ∀ a, addr ≤ a → (em.state.memory a).isSome := by
  have haddr := addr.isLt
  rw [concatShadowBytes, List.range_eq_range', concatShadow_none_iff (by omega)]
  constructor
  · rintro ⟨i, -, hi, hover, hall⟩
    refine ⟨by omega, fun a ha => ?_⟩
    have ha := BitVec.le_def.mp ha
    have halt := a.isLt
    have hsome := hall (a.toNat - addr.toNat) (Nat.zero_le _) (by omega)
    have hsum : addr + BitVec.ofNat 64 (a.toNat - addr.toNat) = a := by
      apply BitVec.eq_of_toNat_eq
      rw [BitVec.toNat_add, BitVec.toNat_ofNat]
      omega
    rwa [hsum] at hsome
  · rintro ⟨hover, hall⟩
    refine ⟨2 ^ 64 - addr.toNat, Nat.zero_le _, by omega, by omega, fun l _ hl => hall _ ?_⟩
    rw [BitVec.le_def, BitVec.toNat_add, BitVec.toNat_ofNat]
    omega

end Ends

/-- A byte of the input, or of the shadow memory, is at an address. -/
def ShadowEmulator.StandsAt (em : ShadowEmulator) (addr : Nat) : Loc → Prop
  | .input i => i < em.inputLen.toNat ∧ em.inputBase.toNat + i = addr
  | .byte a => a.toNat = addr
  | .reg _ => False

/-- The node is put together from the bytes at `count` addresses, the lowest first. -/
def ShadowEmulator.Located (em : ShadowEmulator) (dag : ExprDag) (addr count : Nat) (n : NodeId) :
    Prop :=
  ∃ byte : Nat → Loc, (∀ j < count, em.StandsAt (addr + j) (byte j)) ∧
    ∃ t, concatTerm (fun j => some (.symbol (byte j))) (List.range count) none = some t ∧
      Represents em.state dag n t

/-- No addition of the read overflows, and what it returns are the bytes of the access. -/
def ShadowEmulator.ReadsInside (em : ShadowEmulator) (base : Option (List Char)) (disp : BitVec 64)
    (width : Nat) : Prop :=
  readMemoryRegion base disp width em ≠ none ∧
    ∀ n em', readMemoryRegionWrapping base disp width em = some (some n, em') →
      em.Located em'.dag (em.effectiveAddr base disp).toNat (width / 8) n

/-- Above the start of the input, the access and the input end below the end of the address space.
Below it, the access does, or there is a concrete byte in front of that end. -/
def ShadowEmulator.StaysBelow (em : ShadowEmulator) (addr : BitVec 64) (count : Nat) : Prop :=
  if em.inputBase ≤ addr then
    addr.toNat + count < 2 ^ 64 ∧ em.inputBase.toNat + em.inputLen.toNat < 2 ^ 64
  else addr.toNat + count ≤ 2 ^ 64 ∨ ∃ a, addr ≤ a ∧ em.state.memory a = none

section Reads
variable {em : ShadowEmulator} {base : Option (List Char)} {disp : BitVec 64} {width : Nat}

theorem inInput_none_iff {addr : BitVec 64} {count : Nat} (hcount : count < 2 ^ 64) :
    em.inInput addr count = none ↔ em.inputBase ≤ addr ∧
      (2 ^ 64 ≤ addr.toNat + count ∨ 2 ^ 64 ≤ em.inputBase.toNat + em.inputLen.toNat) := by
  have hlen := em.inputLen.isLt
  have hcount' : (BitVec.ofNat 64 count).toNat = count := by
    rw [BitVec.toNat_ofNat, Nat.mod_eq_of_lt hcount]
  have hlen' : (em.inputLen.setWidth 64).toNat = em.inputLen.toNat := by
    rw [BitVec.toNat_setWidth, Nat.mod_eq_of_lt (by omega)]
  unfold ShadowEmulator.inInput
  split
  · rename_i hle
    cases h₁ : checkedAdd addr (BitVec.ofNat 64 count) with
    | none =>
      have := checkedAdd_eq_none.mp h₁
      rw [hcount'] at this
      exact ⟨fun _ => ⟨hle, .inl this⟩, fun _ => rfl⟩
    | some stop =>
      have hstop := (checkedAdd_eq_some h₁).2
      rw [hcount'] at hstop
      cases h₂ : checkedAdd em.inputBase (em.inputLen.setWidth 64) with
      | none =>
        have := checkedAdd_eq_none.mp h₂
        rw [hlen'] at this
        exact ⟨fun _ => ⟨hle, .inr this⟩, fun _ => rfl⟩
      | some inputStop =>
        have hinput := (checkedAdd_eq_some h₂).2
        rw [hlen'] at hinput
        refine ⟨fun h => (by cases h), ?_⟩
        rintro ⟨-, h | h⟩ <;> omega
  · rename_i hle
    exact ⟨fun h => (by cases h), fun h => absurd h.1 hle⟩

theorem readMemoryRegion_concrete (hskip : ¬ (width = 0 ∨ width % 8 ≠ 0))
    (hc : em.baseConcrete base) : readMemoryRegion base disp width em =
      (checked (em.inInput (em.effectiveAddr base disp) (width / 8)) >>= fun q =>
        if q then concatInputBytes ((em.effectiveAddr base disp - em.inputBase).setWidth 32)
          (width / 8) else concatShadowBytes (em.effectiveAddr base disp) (width / 8)) em := by
  unfold readMemoryRegion
  rw [if_neg hskip]
  refine (bind_of_some (m := get) rfl).trans ?_
  rw [if_neg (not_not_intro hc)]

/-- A read overflows exactly when the access does not stay below. -/
theorem readMemoryRegion_none_iff (hw : width ≤ 2 ^ 32) :
    readMemoryRegion base disp width em = none ↔
      ¬ (width = 0 ∨ width % 8 ≠ 0) ∧ em.baseConcrete base ∧
        ¬ em.StaysBelow (em.effectiveAddr base disp) (width / 8) := by
  have hcount : width / 8 < 2 ^ 64 := by omega
  by_cases hskip : width = 0 ∨ width % 8 ≠ 0
  · rw [readMemoryRegion, if_pos hskip]
    exact ⟨fun h => (by cases h), fun h => absurd hskip h.1⟩
  by_cases hc : em.baseConcrete base
  · rw [readMemoryRegion_concrete hskip hc]
    cases hin : em.inInput (em.effectiveAddr base disp) (width / 8) with
    | none =>
      obtain ⟨hle, hover⟩ := (inInput_none_iff hcount).mp hin
      refine ⟨fun _ => ⟨hskip, hc, fun hbelow => ?_⟩, fun _ => rfl⟩
      rw [ShadowEmulator.StaysBelow, if_pos hle] at hbelow
      omega
    | some q =>
      have hsome : checked (some q) em = some (q, em) := rfl
      rw [bind_of_some hsome]
      cases q with
      | true =>
        obtain ⟨hle, hspace, hstop⟩ := inInput_true hcount hin
        have hlen := em.inputLen.isLt
        obtain ⟨k, hk, hfit, -⟩ := inInput_offset hcount hin
        have hstart : ((em.effectiveAddr base disp - em.inputBase).setWidth 32).toNat +
            width / 8 ≤ 2 ^ 32 := by
          rw [BitVec.toNat_setWidth, hk]
          omega
        refine ⟨fun h => absurd h (concatInputBytes_ends hstart em), fun h => absurd ?_ h.2.2⟩
        rw [ShadowEmulator.StaysBelow, if_pos hle]
        omega
      | false =>
        rw [if_neg (by decide), concatShadowBytes_none_iff hcount]
        have hstays : ¬ em.StaysBelow (em.effectiveAddr base disp) (width / 8) ↔
            2 ^ 64 < (em.effectiveAddr base disp).toNat + width / 8 ∧
              ∀ a, em.effectiveAddr base disp ≤ a → (em.state.memory a).isSome := by
          by_cases hle : em.inputBase ≤ em.effectiveAddr base disp
          · have hends := mt (inInput_none_iff hcount).mpr (by rw [hin]; simp)
            rw [ShadowEmulator.StaysBelow, if_pos hle]
            constructor
            · intro h
              exact absurd ⟨hle, by omega⟩ hends
            · rintro ⟨h, -⟩
              omega
          · rw [ShadowEmulator.StaysBelow, if_neg hle, not_or, not_exists, not_le]
            refine and_congr_right fun _ => forall_congr' fun a => ?_
            rw [not_and, ← Ne, Option.isSome_iff_ne_none]
        rw [hstays]
        exact ⟨fun h => ⟨hskip, hc, h⟩, fun h => h.2.2⟩
  · constructor
    · intro h
      rw [readMemoryRegion, if_neg hskip] at h
      have h := (bind_of_some (m := get) rfl).symm.trans h
      rw [if_pos hc] at h
      cases h
    · exact fun h => absurd h.2.1 hc

/-- A term that is there has all its bytes. -/
theorem concatTerm_isSome {byte : Nat → Option ShadowTerm} {is : List Nat} {acc : Option ShadowTerm}
    {t : ShadowTerm} (h : concatTerm byte is acc = some t) : ∀ i ∈ is, (byte i).isSome := by
  induction is generalizing acc with
  | nil => simp
  | cons i is ih =>
    rw [concatTerm.eq_def] at h
    dsimp only at h
    split at h
    · cases h
    · rename_i b hb
      exact List.forall_mem_cons.mpr ⟨by rw [hb]; rfl, ih h⟩
    · rename_i b low hb
      exact List.forall_mem_cons.mpr ⟨by rw [hb]; rfl, ih h⟩

theorem concatTerm_congr {byte byte' : Nat → Option ShadowTerm} {is : List Nat}
    (h : ∀ i ∈ is, byte i = byte' i) (acc : Option ShadowTerm) :
    concatTerm byte is acc = concatTerm byte' is acc := by
  induction is generalizing acc with
  | nil => rfl
  | cons i is ih =>
    have ih := fun acc => ih (fun j hj => h j (List.mem_cons_of_mem _ hj)) acc
    unfold concatTerm
    rw [h i List.mem_cons_self]
    cases byte' i with
    | none => rfl
    | some b =>
      cases acc with
      | none => exact ih _
      | some low => exact ih _

/-- What a read represents, when its access stays below, are the bytes of the access. -/
theorem regionTerm_located {dag : ExprDag} {n : NodeId} {t : ShadowTerm} (hw : width ≤ 2 ^ 32)
    (hbelow : em.StaysBelow (em.effectiveAddr base disp) (width / 8))
    (h : em.regionTerm base disp width = some t) (hn : Represents em.state dag n t) :
    em.Located dag (em.effectiveAddr base disp).toNat (width / 8) n := by
  have hcount : width / 8 < 2 ^ 64 := by omega
  unfold ShadowEmulator.regionTerm at h
  dsimp only at h
  generalize em.effectiveAddr base disp = addr at hbelow h ⊢
  split at h
  · cases h
  split at h
  · -- the bytes of the input
    rename_i hin
    obtain ⟨hle, hspace, hstop⟩ := inInput_true hcount hin
    obtain ⟨k, hk, hfit, -⟩ := inInput_offset hcount hin
    have hlen := em.inputLen.isLt
    have hstart : ((addr - em.inputBase).setWidth 32).toNat = k := by
      rw [BitVec.toNat_setWidth, hk, Nat.mod_eq_of_lt (by omega)]
    rw [BitVec.toNat_sub_of_le hle] at hk
    have hle := BitVec.le_def.mp hle
    rw [inputTerm, hstart] at h
    refine ⟨fun j => .input (k + j), fun j hj => ⟨by omega, by omega⟩, t, h, hn⟩
  · -- the bytes of the shadow memory, all of which are there
    have hall := concatTerm_isSome h
    have hstop : addr.toNat + width / 8 ≤ 2 ^ 64 := by
      rw [ShadowEmulator.StaysBelow] at hbelow
      split at hbelow
      · omega
      · rcases hbelow with hbelow | ⟨a, ha, hnone⟩
        · exact hbelow
        · by_contra hover
          have ha := BitVec.le_def.mp ha
          have halt := a.isLt
          have hsome := hall (a.toNat - addr.toNat) (List.mem_range.mpr (by omega))
          have hsum : addr + BitVec.ofNat 64 (a.toNat - addr.toNat) = a := by
            apply BitVec.eq_of_toNat_eq
            rw [BitVec.toNat_add, BitVec.toNat_ofNat]
            omega
          rw [hsum, hnone] at hsome
          cases hsome
    refine ⟨fun j => .byte (addr + BitVec.ofNat 64 j), fun j hj => ?_, t, ?_, hn⟩
    · show (addr + BitVec.ofNat 64 j).toNat = addr.toNat + j
      rw [BitVec.toNat_add, BitVec.toNat_ofNat]
      omega
    · rw [← h, ShadowEmulator.bytesTerm]
      refine concatTerm_congr (fun j hj => ?_) none
      obtain ⟨n, hn⟩ := Option.isSome_iff_exists.mp (hall j hj)
      obtain ⟨m, hm, -⟩ := Option.map_eq_some_iff.mp hn
      rw [hm]
      rfl

/-- The additions of a read fit and its bytes are those of the access, exactly when the access
stays below, or when nothing is read at all. -/
theorem readsInside_iff (em : ShadowEmulator) (hv : em.Valid) (base : Option (List Char))
    (disp : BitVec 64) (width : Nat) (hw : width ≤ 2 ^ 32) (hroom : em.dag.Room (3 * (width / 8))) :
    em.ReadsInside base disp width ↔
      (width = 0 ∨ width % 8 ≠ 0) ∨ em.baseConcrete base = false ∨
        em.StaysBelow (em.effectiveAddr base disp) (width / 8) := by
  have hends : readMemoryRegion base disp width em ≠ none ↔
      (width = 0 ∨ width % 8 ≠ 0) ∨ em.baseConcrete base = false ∨
        em.StaysBelow (em.effectiveAddr base disp) (width / 8) := by
    rw [Ne, readMemoryRegion_none_iff hw]
    rw [not_and_or, not_and_or, not_not, not_not, Bool.not_eq_true]
  refine ⟨fun h => hends.mp h.1, fun h => ⟨hends.mpr h, fun n em' hrun => ?_⟩⟩
  -- without a panic both builds do the same
  have hrun := ((readMemoryRegion_agrees base disp width em).resolve_left (hends.mpr h)).trans hrun
  obtain ⟨dag, rfl, -, hrep⟩ := readMemoryRegion_reads hv base disp hw hroom _ _ hrun
  generalize ht : em.regionTerm base disp width = t at hrep
  cases hrep with
  | some hn =>
    refine regionTerm_located hw ?_ ht hn
    rcases h with h | h | h
    · rw [ShadowEmulator.regionTerm, if_pos (h.imp_right .inl)] at ht
      cases ht
    · rw [ShadowEmulator.regionTerm, if_pos (.inr (.inr (by simp [h])))] at ht
      cases ht
    · exact h

theorem readsInside_word :
    (ShadowEmulator.new .new 0x1000 8).ReadsInside (some "rdi".toList) 4 32 := by
  refine (readsInside_iff (.new .new 0x1000 8) (new_valid .new 0x1000 8) (some "rdi".toList) 4 32
    (by decide) ⟨.new, by decide, by decide⟩).mpr (.inr (.inr ?_))
  have hbelow : (0x1000 : BitVec 64) ≤ 0x1000 + 4 ∧
      (((0x1000 : BitVec 64) + 4).toNat + 32 / 8 < 2 ^ 64 ∧
        (0x1000 : BitVec 64).toNat + (8 : BitVec 32).toNat < 2 ^ 64) := by decide
  exact (if_pos hbelow.1).mpr hbelow.2

/-- Four bytes in front of an input at zero: with overflow checks the read panics, without them it
returns input bytes that do not exist. -/
theorem read_before_zero_wraps :
    readMemoryRegion (some "rdi".toList) (-4) 64 (.new .new 0 8) = none ∧
      (∃ n em', readMemoryRegionWrapping (some "rdi".toList) (-4) 64 (.new .new 0 8) =
          some (some n, em') ∧
        em'.dag.symbols = ["input_b4294967292", "input_b4294967293", "input_b4294967294",
          "input_b4294967295", "input_b0", "input_b1", "input_b2", "input_b3"]) ∧
      ¬ (ShadowEmulator.new .new 0 8).ReadsInside (some "rdi".toList) (-4) 64 := by
  have hpanic : (readMemoryRegion (some "rdi".toList) (-4) 64 (.new .new 0 8)).isNone = true := by
    decide +kernel
  have hwraps : ((readMemoryRegionWrapping (some "rdi".toList) (-4) 64 (.new .new 0 8)).any fun p =>
      p.1.isSome && decide (p.2.dag.symbols = ["input_b4294967292", "input_b4294967293",
        "input_b4294967294", "input_b4294967295", "input_b0", "input_b1", "input_b2",
        "input_b3"])) = true := by decide +kernel
  obtain ⟨⟨r, em'⟩, hrun, hp⟩ := (Option.any_eq_true _ _).mp hwraps
  rw [Bool.and_eq_true, decide_eq_true_iff] at hp
  obtain ⟨n, rfl⟩ := Option.isSome_iff_exists.mp hp.1
  have hpanic := Option.isNone_iff_eq_none.mp hpanic
  exact ⟨hpanic, ⟨n, em', hrun, hp.2⟩, fun h => h.1 hpanic⟩

end Reads

end Axe.Concolic
