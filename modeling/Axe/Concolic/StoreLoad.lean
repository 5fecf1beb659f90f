import Axe.Concolic.InputReads

/-!
# Stores and later loads

A store puts the bytes of its value into the shadow memory, at an address in which every base
register stands for the input. A load of these bytes outside the input has the value that was
stored; a load of other bytes, or of the input, does not see the store.
-/
namespace Axe.Concolic

open Smt (Value Assignment)
open Shadow (intern internSymbol checked)

def ShadowEmulator.withState (em : ShadowEmulator) (st : ShadowState) : ShadowEmulator :=
  { em with state := st }

section Frame
variable {st st' : ShadowState} {α β : Type} {m : Shadow α} {f : α → Shadow β}

/-- From either state the computation does the same, and keeps the state. -/
def Blind (st st' : ShadowState) (m : Shadow α) : Prop :=
  ∀ em, em.state = st → (∀ a e, m em = some (a, e) → e.state = st) ∧
    m (em.withState st') = (m em).map fun p => (p.1, p.2.withState st')

theorem Blind.pure (a : α) : Blind st st' (pure a : Shadow α) := fun em hem =>
  ⟨fun b e h => by cases h; exact hem, rfl⟩

theorem Blind.bind (hm : Blind st st' m) (hf : ∀ a, Blind st st' (f a)) :
    Blind st st' (m >>= f) := by
  intro em hem
  obtain ⟨hstate, hsame⟩ := hm em hem
  constructor
  · intro b e h
    obtain ⟨p, hp, hb⟩ := Option.bind_eq_some_iff.mp h
    exact ((hf p.1) p.2 (hstate p.1 p.2 hp)).1 b e hb
  · show (m (em.withState st')).bind (fun p => f p.1 p.2) =
      ((m em).bind fun p => f p.1 p.2).map fun p => (p.1, p.2.withState st')
    rw [hsame]
    cases hp : m em with
    | none => rfl
    | some p => exact ((hf p.1) p.2 (hstate p.1 p.2 hp)).2

theorem Blind.map (hm : Blind st st' m) (g : α → β) : Blind st st' (g <$> m) :=
  hm.bind fun a => .pure (g a)

theorem Blind.intern (e : Expr) : Blind st st' (intern e) := fun em hem =>
  ⟨fun b e' h => by cases h; exact hem, rfl⟩

theorem Blind.internSymbol (name : String) : Blind st st' (internSymbol name) := fun em hem =>
  ⟨fun b e' h => by cases h; exact hem, rfl⟩

theorem Blind.checked_bind {o : Option α} (h : ∀ a, o = some a → Blind st st' (f a)) :
    Blind st st' (checked o >>= f) := by
  cases o with
  | none => exact fun em hem => ⟨fun b e h => (by cases h), rfl⟩
  | some a => exact h a rfl

theorem concatBytes_blind {byte : Nat → Shadow (Option NodeId)} {is : List Nat}
    (h : ∀ i ∈ is, Blind st st' (byte i)) (acc : Option NodeId) :
    Blind st st' (concatBytes byte is acc) := by
  induction is generalizing acc with
  | nil => exact .pure acc
  | cons i is ih =>
    have ih := ih fun j hj => h j (List.mem_cons_of_mem _ hj)
    refine (h i List.mem_cons_self).bind fun b => ?_
    cases b with
    | none => exact .pure none
    | some b =>
      cases acc with
      | none => exact ih _
      | some low => exact (Blind.intern _).bind fun n => ih _

theorem concatInputBytes_blind (start : BitVec 32) (count : Nat) :
    Blind st st' (concatInputBytes start count) :=
  concatBytes_blind (fun _ _ => Blind.checked_bind fun _ _ =>
    ((Blind.internSymbol _).bind fun _ => .intern _).map _) none

theorem concatShadowBytes_blind {addr : BitVec 64} {count : Nat}
    (h : ∀ i < count,
      st'.memory (addr + BitVec.ofNat 64 i) = st.memory (addr + BitVec.ofNat 64 i)) :
    Blind st st' (concatShadowBytes addr count) := by
  refine concatBytes_blind (fun i hi => Blind.checked_bind fun a ha => ?_) none
  obtain ⟨rfl, -⟩ := checkedAdd_eq_some ha
  intro em hem
  refine ⟨fun b e he => by cases he; exact hem, ?_⟩
  show some (st'.memory (addr + BitVec.ofNat 64 i), em.withState st') =
    some (em.state.memory (addr + BitVec.ofNat 64 i), em.withState st')
  rw [h i (List.mem_range.mp hi), hem]

/-- A load of bytes that are the same in both states, or of the input, does the same. -/
theorem readMemoryRegion_withState {em : ShadowEmulator} {base : Option (List Char)}
    {disp : BitVec 64} {width : Nat} (hregs : st'.regs = em.state.regs)
    (h : em.inInput (em.effectiveAddr base disp) (width / 8) = some false → ∀ i < width / 8,
      st'.memory (em.effectiveAddr base disp + BitVec.ofNat 64 i) =
        em.state.memory (em.effectiveAddr base disp + BitVec.ofNat 64 i)) :
    (∀ a e, readMemoryRegion base disp width em = some (a, e) → e.state = em.state) ∧
    readMemoryRegion base disp width (em.withState st') =
      (readMemoryRegion base disp width em).map fun p => (p.1, p.2.withState st') := by
  by_cases hskip : width = 0 ∨ width % 8 ≠ 0
  · have hnone : readMemoryRegion base disp width = pure none := by
      rw [readMemoryRegion, if_pos hskip]
    rw [hnone]
    exact Blind.pure none em rfl
  have hbase : (em.withState st').baseConcrete base = em.baseConcrete base := by
    unfold ShadowEmulator.baseConcrete
    rw [show (em.withState st').state.regs = em.state.regs from hregs]
  by_cases hc : em.baseConcrete base
  · rw [readMemoryRegion_concrete hskip hc, readMemoryRegion_concrete hskip (hbase.trans hc)]
    refine Blind.checked_bind (fun q hq => ?_) em rfl
    cases q with
    | true => exact concatInputBytes_blind _ _
    | false => exact concatShadowBytes_blind (h hq)
  · have hnone : ∀ e : ShadowEmulator, ¬ e.baseConcrete base →
        readMemoryRegion base disp width e = some (none, e) := by
      intro e he
      rw [readMemoryRegion, if_neg hskip]
      refine (bind_of_some (m := get) rfl).trans ?_
      rw [if_pos he]
      rfl
    rw [hnone em hc, hnone _ (hbase ▸ hc)]
    exact ⟨fun a e h => (by cases h; rfl), rfl⟩

theorem narrowTo_blind (full w : Nat) (isAh : Bool) : Blind st st' (narrowTo full w isAh) := by
  unfold narrowTo
  split
  · exact .intern _
  · split
    · exact .pure full
    · exact .intern _

/-- The same for a memory operand. -/
theorem readOperand_withState {em : ShadowEmulator} {base : Option (List Char)} {disp : BitVec 64}
    {width w : Nat} (hregs : st'.regs = em.state.regs)
    (h : em.inInput (em.effectiveAddr base disp) (min width w / 8) = some false →
      ∀ i < min width w / 8, st'.memory (em.effectiveAddr base disp + BitVec.ofNat 64 i) =
        em.state.memory (em.effectiveAddr base disp + BitVec.ofNat 64 i)) :
    readOperand (.mem base disp width) w (em.withState st') =
      (readOperand (.mem base disp width) w em).map fun p => (p.1, p.2.withState st') := by
  obtain ⟨hstate, hsame⟩ := readMemoryRegion_withState hregs h
  show (readMemoryRegion base disp (min width w) (em.withState st')).bind _ =
    ((readMemoryRegion base disp (min width w) em).bind _).map _
  rw [hsame]
  cases hp : readMemoryRegion base disp (min width w) em with
  | none => rfl
  | some p =>
    obtain ⟨r, e⟩ := p
    have he := hstate r e hp
    cases r with
    | none => rfl
    | some load => exact (((narrowTo_blind load w false).map _) e he).2

end Frame

section Stores
variable {em em' : ShadowEmulator} {addr : BitVec 64} {value : Option NodeId}

/-- A store that ends has all its bytes below the end of the address space. -/
theorem writeLoop_fits {is : List Nat} {u : Unit}
    (hrun : is.forM (writeByteOf addr value) em = some (u, em')) :
    ∀ i ∈ is, addr.toNat + (BitVec.ofNat 64 i).toNat < 2 ^ 64 := by
  induction is generalizing em with
  | nil => simp
  | cons i is ih =>
    obtain ⟨⟨u₁, em₁⟩, hstep, hrest⟩ := Option.bind_eq_some_iff.mp hrun
    obtain ⟨⟨r, em₂⟩, -, hstep⟩ := Option.bind_eq_some_iff.mp hstep
    obtain ⟨⟨a, em₃⟩, ha, -⟩ := Option.bind_eq_some_iff.mp hstep
    obtain ⟨a', ha', -⟩ := Option.map_eq_some_iff.mp ha
    exact List.forall_mem_cons.mpr ⟨(checkedAdd_eq_some ha').2, ih hrest⟩

theorem concatTerm_of_bytes {byte : Nat → Option ShadowTerm} {is : List Nat}
    (h : ∀ i ∈ is, (byte i).isSome) {acc : Option ShadowTerm} (hacc : is = [] → acc.isSome) :
    (concatTerm byte is acc).isSome := by
  induction is generalizing acc with
  | nil => exact hacc rfl
  | cons i is ih =>
    have ih := fun {acc} => @ih (fun j hj => h j (List.mem_cons_of_mem _ hj)) acc
    obtain ⟨b, hb⟩ := Option.isSome_iff_exists.mp (h i List.mem_cons_self)
    unfold concatTerm
    rw [hb]
    cases acc with
    | none => exact ih fun _ => rfl
    | some low => exact ih fun _ => rfl

/-- The bytes of a number that was stored at an address, and nothing else. -/
def storedBytes (addr : BitVec 64) {w : Nat} (y : BitVec w) : Loc → Option Value
  | .byte a =>
    if (a - addr).toNat < w / 8 then some (.bv 8 (X86.Memory.store (fun _ => 0) addr y a)) else none
  | _ => none

/-- A state that has a node in every register and nowhere else. -/
def ShadowState.inRegs (s : NodeId) : ShadowState := ⟨fun _ => some s, fun _ => none, 0⟩

/-- A node for a byte of a stored value has that byte. -/
theorem byte_evaluates {dag : ExprDag} {σ : Assignment SymbolId} {s n : NodeId} {w i : Nat}
    {y : BitVec w} (hi : i < w / 8)
    (hn : Represents (.inRegs s) dag n (byteTerm (.symbol (.reg .rax)) i))
    (hs : dag.Evaluates σ s (.bv w y)) : dag.Evaluates σ n (.bv 8 (y.extractLsb' (8 * i) 8)) := by
  have hterm : HasValue (fun l => if l = .reg .rax then some (.bv w y) else none)
      (byteTerm (.symbol (.reg .rax)) i) (.bv 8 (y.extractLsb' (8 * i) 8)) := by
    have hreg : HasValue (fun l => if l = .reg .rax then some (.bv w y) else none)
        (.symbol (.reg .rax)) (.bv w y) := .loc (if_pos rfl)
    have h := (hreg.extract (by omega : i * 8 ≤ i * 8 + 7) (by omega)).cast
      (by omega : i * 8 + 7 - i * 8 + 1 = 8)
    have hbyte : BitVec.ofNat 8 (y.extractLsb' (i * 8) (i * 8 + 7 - i * 8 + 1)).toNat =
        y.extractLsb' (8 * i) 8 := by
      apply BitVec.eq_of_toNat_eq
      have hwidth : i * 8 + 7 - i * 8 + 1 = 8 := by omega
      rw [BitVec.toNat_ofNat, BitVec.extractLsb'_toNat, BitVec.extractLsb'_toNat, hwidth,
        Nat.mod_mod, Nat.mul_comm]
    rwa [hbyte] at h
  refine hn.evaluates (fun r m x hr hx => ?_) (fun a m x ha _ => by cases ha)
    (fun i s x _ hx => by cases hx) hterm
  cases hr
  obtain ⟨-, hx⟩ := Option.ite_none_right_eq_some.mp hx
  cases hx
  exact hs

theorem readOperand_mem_ends {base : Option (List Char)} {disp : BitVec 64} {width w : Nat}
    (h : readMemoryRegion base disp (min width w) em ≠ none) :
    readOperand (.mem base disp width) w em ≠ none := by
  obtain ⟨⟨r, em₁⟩, hr⟩ := Option.ne_none_iff_exists'.mp h
  intro hnone
  have hnone := (Option.bind_eq_none_iff.mp hnone) _ hr
  cases r with
  | none => cases hnone
  | some load =>
    have hnarrow : narrowTo load w false em₁ ≠ none := by
      unfold narrowTo
      split
      · exact Option.some_ne_none _
      · split <;> exact Option.some_ne_none _
    obtain ⟨p, hp⟩ := Option.ne_none_iff_exists'.mp hnarrow
    have hnone := (Option.bind_eq_none_iff.mp hnone) p hp
    cases hnone

/-- Bytes of a stored value outside the input load as the value. -/
theorem readOperand_stored {base : Option (List Char)} {disp : BitVec 64} {w : Nat} {s : NodeId}
    (hv : em.Valid) (hroom : em.dag.Room 25) (hw : OperandWidth w) (hc : em.baseConcrete base)
    (hin : em.inInput (em.effectiveAddr base disp) (w / 8) = some false)
    (hfit : (em.effectiveAddr base disp).toNat + w / 8 ≤ 2 ^ 64)
    (hbytes : ∀ i < w / 8, ∃ n, em.state.memory (em.effectiveAddr base disp + BitVec.ofNat 64 i) =
      some n ∧ Represents (.inRegs s) em.dag n (byteTerm (.symbol (.reg .rax)) i)) :
    ∃ n em₁, readOperand (.mem base disp w) w em = some (some n, em₁) ∧
      ∀ σ (y : BitVec w), em.dag.Evaluates σ s (.bv w y) → em₁.dag.Evaluates σ n (.bv w y) := by
  have hbd := hw.bounds
  have hw8 : w % 8 = 0 := by
    simp only [OperandWidth, List.mem_cons, List.not_mem_nil, or_false] at hw
    omega
  have hskip : ¬ (w = 0 ∨ w % 8 ≠ 0) := by omega
  have hends : readMemoryRegion base disp (min w w) em ≠ none := by
    rw [min_self, Ne, readMemoryRegion_none_iff (by omega)]
    rintro ⟨-, -, hbelow⟩
    refine hbelow ?_
    unfold ShadowEmulator.StaysBelow
    split
    · rename_i hle
      have hsome : em.inInput (em.effectiveAddr base disp) (w / 8) ≠ none := by
        rw [hin]
        exact Option.some_ne_none _
      have hover := not_and.mp (mt (inInput_none_iff (by omega)).mpr hsome) hle
      omega
    · exact .inl hfit
  obtain ⟨⟨r, em₁⟩, hread⟩ := Option.ne_none_iff_exists'.mp (readOperand_mem_ends hends)
  obtain ⟨dag, rfl, hg, hrep⟩ := readOperand_reads hv _ hbd.2 hroom r em₁ hread
  -- the term of the region: the bytes are all there
  have hregion : em.regionTerm base disp w = em.bytesTerm (em.effectiveAddr base disp) (w / 8) := by
    have hnot : ¬ (w = 0 ∨ w % 8 ≠ 0 ∨ ¬ em.baseConcrete base) := by
      rintro (h | h | h)
      · exact hskip (.inl h)
      · exact hskip (.inr h)
      · exact h hc
    rw [ShadowEmulator.regionTerm, if_neg hnot, if_neg (by rw [hin]; decide)]
  have hsome : (em.bytesTerm (em.effectiveAddr base disp) (w / 8)).isSome := by
    refine concatTerm_of_bytes (fun i hi => ?_) (fun h => ?_)
    · obtain ⟨n, hn, -⟩ := hbytes i (List.mem_range.mp hi)
      rw [hn]
      rfl
    · have := congrArg List.length h
      rw [List.length_range, List.length_nil] at this
      omega
  obtain ⟨t, ht⟩ := Option.isSome_iff_exists.mp hsome
  have hterm : em.operandTerm (.mem base disp w) w = some (narrowTerm t w false) := by
    rw [ShadowEmulator.operandTerm, min_self, hregion, ht]
    rfl
  rw [hterm] at hrep
  cases hrep with
  | some hn =>
    refine ⟨_, _, hread, fun σ y hs => ?_⟩
    -- each byte of the term has the byte of the value that was stored
    have hval : HasValue (storedBytes (em.effectiveAddr base disp) y) t
        (.bv (8 * (0 + w / 8)) (BitVec.ofNat _ ((X86.Memory.store (fun _ => 0)
          (em.effectiveAddr base disp) y).number (em.effectiveAddr base disp) (0 + w / 8)))) := by
      rw [ShadowEmulator.bytesTerm, List.range_eq_range'] at ht
      refine concatTerm_hasValue (fun i u _ hi hu => ?_) (by simp) (by simp) ht
      obtain ⟨m, -, rfl⟩ := Option.map_eq_some_iff.mp hu
      have hsub : (em.effectiveAddr base disp + BitVec.ofNat 64 i -
          em.effectiveAddr base disp).toNat = i := by
        rw [BitVec.add_comm, BitVec.add_sub_cancel, BitVec.toNat_ofNat, Nat.mod_eq_of_lt (by omega)]
      refine .loc ?_
      rw [storedBytes, hsub, if_pos (by omega)]
    have hval := hval.cast (by omega : 8 * (0 + w / 8) = w)
    have hload : BitVec.ofNat w (BitVec.ofNat (8 * (0 + w / 8)) ((X86.Memory.store (fun _ => 0)
        (em.effectiveAddr base disp) y).number (em.effectiveAddr base disp)
          (0 + w / 8))).toNat = y := by
      rw [BitVec.toNat_ofNat, Nat.mod_eq_of_lt (X86.Memory.number_lt _ _ _), Nat.zero_add]
      exact X86.Memory.load_store _ _ y hw8 hbd.2
    rw [hload] at hval
    have hval := hval.narrow (by omega) le_rfl hbd.2
    rw [BitVec.setWidth_eq] at hval
    refine hn.evaluates (fun r m x _ hx => by cases hx) (fun a m x ha hx => ?_)
      (fun i s x _ hx => by cases hx) hval
    obtain ⟨hlt, hx⟩ := Option.ite_none_right_eq_some.mp hx
    cases hx
    obtain ⟨m', hm', hrep⟩ := hbytes _ hlt
    have haddr : em.effectiveAddr base disp +
        BitVec.ofNat 64 (a - em.effectiveAddr base disp).toNat = a := by
      rw [BitVec.ofNat_toNat, BitVec.setWidth_eq, BitVec.add_comm, BitVec.sub_add_cancel]
    rw [haddr, ha] at hm'
    cases hm'
    have hbyte := X86.Memory.store_apply (fun _ => 0) (em.effectiveAddr base disp) y hlt hbd.2
    rw [haddr] at hbyte
    rw [hbyte]
    exact byte_evaluates hlt (hrep.grow hg) (hs.extend hg.keeps)

/-- Two accesses have an address in common. -/
def Overlap (a : BitVec 64) (n : Nat) (b : BitVec 64) (m : Nat) : Prop :=
  ∃ i < n, ∃ j < m, a + BitVec.ofNat 64 i = b + BitVec.ofNat 64 j

/-- What the loads behind a store see of it. Every base register stands for the input. -/
structure StoreSeen (em em' : ShadowEmulator) (base : Option (List Char)) (disp : BitVec 64)
    (w : Nat) (src : Operand) : Prop where
  /-- Outside the input, a symbolic value is loaded again. -/
  loads : ∀ s em₀, readOperand src w em = some (some s, em₀) →
    em'.inInput (em'.effectiveAddr base disp) (w / 8) = some false →
    ∃ n em₁, readOperand (.mem base disp w) w em' = some (some n, em₁) ∧
      ∀ σ (y : BitVec w), em₀.dag.Evaluates σ s (.bv w y) → em₁.dag.Evaluates σ n (.bv w y)
  /-- A load that does not do the same over the state before the store has an address of it, and
  does not lie in the input. -/
  frame : ∀ base' disp' width v, readOperand (.mem base' disp' width) v em' ≠
      (readOperand (.mem base' disp' width) v (em'.withState em.state)).map
        (fun p => (p.1, p.2.withState em'.state)) →
    em'.inInput (em'.effectiveAddr base' disp') (min width v / 8) = some false ∧
      Overlap (em'.effectiveAddr base disp) (w / 8) (em'.effectiveAddr base' disp')
        (min width v / 8)

variable {ir : InstructionRecord} {event : Option BranchEventWithNodeIds}
  {base : Option (List Char)} {disp : BitVec 64} {w : Nat} {src : Operand}

/-- A step of `mov` to memory reads its source and writes the bytes. -/
theorem stepInstruction_store (hmov : ir.lowerMnemonic = "mov".toList)
    (hops : parseOperands ir.opStr = some [.mem base disp w, src])
    (h : stepInstruction ir em = some (event, em')) :
    ∃ v em₀, readOperand src w em = some (v, em₀) ∧
      writeMemoryRegion base disp w v em₀ = some ((), em') := by
  have hjump : relationForBranch ir.lowerMnemonic = none := hmov ▸ mov_dispatch.1
  have hfamily : familyOf ir.lowerMnemonic = .mov := hmov ▸ mov_dispatch.2
  unfold stepInstruction at h
  obtain ⟨⟨ops, em₂⟩, hchecked, h⟩ := Option.bind_eq_some_iff.mp h
  obtain ⟨ops', hparse, hpair⟩ := Option.map_eq_some_iff.mp hchecked
  cases hpair
  cases hops.symm.trans hparse
  simp only [hjump, hfamily] at h
  obtain ⟨⟨u, em₃⟩, hact, h⟩ := Option.bind_eq_some_iff.mp h
  cases h
  obtain ⟨⟨v, em₀⟩, hread, hwrite⟩ := Option.bind_eq_some_iff.mp
    (show (readOperand src w em).bind _ = some (u, em') from hact)
  exact ⟨v, em₀, hread, hwrite⟩

/-- The bytes of a symbolic value after its store. -/
theorem writeMemoryRegion_bytes {s : NodeId} {u : Unit} (hskip : ¬ (w = 0 ∨ w % 8 ≠ 0))
    (hw : w ≤ 64) (hroom : em.dag.Room 8) (hs : s < em.dag.len)
    (h : writeMemoryRegion base disp w (some s) em = some (u, em')) :
    em.dag.Grows 8 em'.dag ∧
      (em.effectiveAddr base disp).toNat + w / 8 ≤ 2 ^ 64 ∧
      ∀ i < w / 8, ∃ n, em'.state.memory (em.effectiveAddr base disp + BitVec.ofNat 64 i) = some n ∧
        Represents (.inRegs s) em'.dag n (byteTerm (.symbol (.reg .rax)) i) := by
  unfold writeMemoryRegion at h
  rw [if_neg hskip] at h
  have hloop : (List.range (w / 8)).forM (writeByteOf (em.effectiveAddr base disp) (some s)) em =
    some (u, em') := h
  have hlen : (List.range (w / 8)).length ≤ 8 := by
    rw [List.length_range]
    omega
  have hsource : RepresentsOpt (.inRegs s) em.dag (some s) (some (.symbol (.reg .rax))) :=
    .some (.reg rfl hs)
  obtain ⟨hg, -, -, -, -, hbytes, -⟩ := writeLoop_spec
    (fun i hi => by have := List.mem_range.mp hi; omega) (hroom.mono hlen) hsource hloop
  refine ⟨hg.mono hlen, ?_, fun i hi => ?_⟩
  · have hlast := writeLoop_fits hloop (w / 8 - 1) (List.mem_range.mpr (by omega))
    rw [BitVec.toNat_ofNat, Nat.mod_eq_of_lt (by omega)] at hlast
    omega
  · have hrep := hbytes i (List.mem_range.mpr hi)
    generalize em'.state.memory (em.effectiveAddr base disp + BitVec.ofNat 64 i) = r at hrep ⊢
    cases hrep with
    | some hn => exact ⟨_, rfl, hn⟩

/-- In every reachable state a store is seen by the loads of its bytes outside the input, and by
no load of other bytes. -/
theorem store_seen_by_loads (dag : ExprDag) (hd : dag.Built) (inputBase : BitVec 64)
    (inputLen : BitVec 32) (em em' : ShadowEmulator)
    (hreach : Reached (.new dag inputBase inputLen) (fun em _ => em.HasRoom) em)
    (hroom : em.HasRoom) (ir : InstructionRecord) (hmov : ir.lowerMnemonic = "mov".toList)
    (base : Option (List Char)) (disp : BitVec 64) (w : Nat) (src : Operand)
    (hops : parseOperands ir.opStr = some [.mem base disp w, src])
    (hconc : em.baseConcrete base) (event : Option BranchEventWithNodeIds)
    (hstep : stepInstruction ir em = some (event, em')) : StoreSeen em em' base disp w src := by
  obtain ⟨hb, hv⟩ := hreach.valid (fun _ _ h => h) hd (new_valid dag inputBase inputLen)
  have hroom : em.dag.Room (25 + (8 + 31)) := ⟨hb, hroom.nodes, hroom.symbols⟩
  have hsteps := stepInstruction_steps hv hroom hstep
  have hw : OperandWidth w :=
    operandWidth (parseOperands_wellFormed hops (.mem base disp w) (by simp)) rfl
  have hbd := hw.bounds
  have hskip : ¬ (w = 0 ∨ w % 8 ≠ 0) := by
    simp only [OperandWidth, List.mem_cons, List.not_mem_nil, or_false] at hw
    omega
  obtain ⟨v, em₀, hread, hwrite⟩ := stepInstruction_store hmov hops hstep
  have hjump : relationForBranch ir.lowerMnemonic = none := hmov ▸ mov_dispatch.1
  have hfamily : familyOf ir.lowerMnemonic = .mov := hmov ▸ mov_dispatch.2
  cases hsteps with
  | branch hrel _ => exact absurd (hjump.symm.trans hrel) (by simp)
  | act _ hparse h =>
    cases hops.symm.trans hparse
    have haddr : ∀ base disp, em'.effectiveAddr base disp = em.effectiveAddr base disp := by
      intro base disp
      rw [ShadowEmulator.effectiveAddr, ShadowEmulator.effectiveAddr, h.inputBase]
    have hout := h.outcome
    rw [hfamily] at hout
    have heff : em.effect .mov [.mem base disp w, src] =
        .setMem (em.effectiveAddr base disp) (w / 8) (em.operandTerm src w) := if_neg hskip
    rw [heff] at hout
    obtain ⟨hregs, -, -, hother⟩ := hout
    constructor
    · intro s em₁ hs hin
      cases hread.symm.trans hs
      obtain ⟨dag', rfl, hg, hrep⟩ :=
        readOperand_reads hv src hbd.2 (hroom.mono (by decide)) _ _ hread
      have hlt : s < dag'.len := by
        generalize em.operandTerm src w = t at hrep
        cases hrep with
        | some hs => exact hs.lt
      have hroom' := hg.room hroom
      obtain ⟨hg', hfit, hbytes⟩ := writeMemoryRegion_bytes hskip hbd.2
        (show (em.withDag dag').dag.Room 8 from hroom'.mono (by decide)) hlt hwrite
      have hconc' : em'.baseConcrete base := by
        unfold ShadowEmulator.baseConcrete at hconc ⊢
        rwa [hregs]
      have haddr' : em'.effectiveAddr base disp = (em.withDag dag').effectiveAddr base disp :=
        haddr base disp
      obtain ⟨n, em₁, hload, heval⟩ := readOperand_stored (s := s)
        (h.valid hv) ((hg'.room hroom').mono (by decide)) hw hconc' hin
        (haddr' ▸ hfit) (haddr' ▸ hbytes)
      exact ⟨n, em₁, hload, fun σ y hy => heval σ y (hy.extend hg'.keeps)⟩
    · intro base' disp' width u hne
      by_contra hno
      have hsame : readOperand (.mem base' disp' width) u
          ((em'.withState em.state).withState em'.state) =
            (readOperand (.mem base' disp' width) u (em'.withState em.state)).map
              fun p => (p.1, p.2.withState em'.state) := by
        refine readOperand_withState hregs fun hin i hi => ?_
        refine hother _ fun j hj heq => hno ⟨hin, j, hj, i, hi, ?_⟩
        rw [haddr base disp]
        exact heq.symm
      exact hne hsame

/-- The first byte of the input is stored behind it. -/
example : X86.Memory.store (fun _ => 0) 64 (0x1234 : BitVec 16) 65 = 0x12 := by decide +kernel

theorem store_seen_by_loads_byte : ∃ em em',
    stepInstruction ⟨0, "mov", "al, byte ptr [rdi]"⟩ (.new .new 0 2) = some (none, em) ∧
      stepInstruction ⟨3, "mov", "byte ptr [rdi + 64], al"⟩ em = some (none, em') ∧
      StoreSeen em em' (some "rdi".toList) 64 8 (.reg "al".toList 8) := by
  have hrun : ((stepInstruction ⟨0, "mov", "al, byte ptr [rdi]"⟩ (.new .new 0 2)).any fun p =>
      p.1.isNone && p.2.baseConcrete (some "rdi".toList) &&
        decide (p.2.dag.len ≤ 64 ∧ p.2.dag.symbols.length ≤ 64) &&
        (stepInstruction ⟨3, "mov", "byte ptr [rdi + 64], al"⟩ p.2).any fun q =>
          q.1.isNone) = true := by decide +kernel
  obtain ⟨⟨e₁, em⟩, h₁, hrun⟩ := (Option.any_eq_true _ _).mp hrun
  rw [Bool.and_eq_true, Bool.and_eq_true, Bool.and_eq_true, Option.isNone_iff_eq_none,
    decide_eq_true_iff] at hrun
  obtain ⟨⟨⟨rfl, hconc⟩, hlen⟩, hrun⟩ := hrun
  obtain ⟨⟨e₂, em'⟩, h₂, hrun⟩ := (Option.any_eq_true _ _).mp hrun
  cases Option.isNone_iff_eq_none.mp hrun
  have hnodes : em.dag.len ≤ 64 := hlen.1
  have hsymbols : em.dag.symbols.length ≤ 64 := hlen.2
  exact ⟨em, em', h₁, h₂, store_seen_by_loads .new .new 0 2 em em'
    (.step .start ⟨by decide, by decide⟩ h₁) ⟨by omega, by omega⟩
    ⟨3, "mov", "byte ptr [rdi + 64], al"⟩ (by decide +kernel) (some "rdi".toList) 64 8
    (.reg "al".toList 8) (by decide +kernel) hconc none h₂⟩

/-- Every variable has its own number as its value. -/
def numbered : Assignment SymbolId
  | v, .bv w => BitVec.ofNat w v
  | v, s => (default : Assignment SymbolId) v s

/-- What is stored over the input is not loaded again, and what is stored through one base is
loaded through another. -/
theorem store_in_input_unseen : ∃ em,
    stepInstruction ⟨0, "mov", "al, byte ptr [rdi]"⟩ (.new .new 0 2) = some (none, em) ∧
      (∃ em' s n e e', stepInstruction ⟨3, "mov", "byte ptr [rdi + 1], al"⟩ em = some (none, em') ∧
        readOperand (.reg "al".toList 8) 8 em = some (some s, e) ∧
        readOperand (.mem (some "rdi".toList) 1 8) 8 em' = some (some n, e') ∧
        e.dag.Evaluates numbered s (.bv 8 0) ∧ ¬ e'.dag.Evaluates numbered n (.bv 8 0)) ∧
      ∃ em' n e e', stepInstruction ⟨3, "mov", "byte ptr [rbx + 64], al"⟩ em = some (none, em') ∧
        readOperand (.mem (some "rcx".toList) 64 8) 8 em' = some (some n, e) ∧
        readOperand (.mem (some "rcx".toList) 64 8) 8 (em'.withState em.state) =
          some (none, e') := by
  have hrun : ((stepInstruction ⟨0, "mov", "al, byte ptr [rdi]"⟩ (.new .new 0 2)).any fun p =>
      p.1.isNone &&
        (((stepInstruction ⟨3, "mov", "byte ptr [rdi + 1], al"⟩ p.2).any fun q => q.1.isNone &&
            ((readOperand (.mem (some "rdi".toList) 1 8) 8 q.2).any fun r =>
              decide (r.1 = some 6) && decide (r.2.dag.nodes = [.var 0 (.bv 8), .extract 7 0 0,
                .zeroExt 56 1, .extract 7 0 2, .extract 7 0 3, .var 1 (.bv 8), .extract 7 0 5])) &&
            ((readOperand (.reg "al".toList 8) 8 p.2).any fun r => decide (r.1 = some 3) &&
              decide (r.2.dag.nodes = [.var 0 (.bv 8), .extract 7 0 0, .zeroExt 56 1,
                .extract 7 0 2]))) &&
          (stepInstruction ⟨3, "mov", "byte ptr [rbx + 64], al"⟩ p.2).any fun q => q.1.isNone &&
            ((readOperand (.mem (some "rcx".toList) 64 8) 8 q.2).any fun r => r.1.isSome) &&
            (readOperand (.mem (some "rcx".toList) 64 8) 8 (q.2.withState p.2.state)).any
              fun r => r.1.isNone)) = true := by decide +kernel
  obtain ⟨⟨ev, em⟩, hload, hrun⟩ := (Option.any_eq_true _ _).mp hrun
  rw [Bool.and_eq_true, Bool.and_eq_true, Option.isNone_iff_eq_none] at hrun
  obtain ⟨rfl, hinput, hbase⟩ := hrun
  refine ⟨em, hload, ?_, ?_⟩
  · obtain ⟨⟨ev', em'⟩, hstore, hrun⟩ := (Option.any_eq_true _ _).mp hinput
    rw [Bool.and_eq_true, Bool.and_eq_true, Option.isNone_iff_eq_none] at hrun
    obtain ⟨⟨rfl, hread⟩, hsource⟩ := hrun
    obtain ⟨⟨n, e'⟩, hread, hn⟩ := (Option.any_eq_true _ _).mp hread
    obtain ⟨⟨s, e⟩, hsource, hs⟩ := (Option.any_eq_true _ _).mp hsource
    rw [Bool.and_eq_true, decide_eq_true_iff, decide_eq_true_iff] at hn hs
    obtain ⟨rfl, hn⟩ := hn
    obtain ⟨rfl, hs⟩ := hs
    have hget : e.dag.tryGet = fun id => [Expr.var 0 (.bv 8), .extract 7 0 0, .zeroExt 56 1,
        .extract 7 0 2][id]? := by
      funext id
      rw [ExprDag.tryGet, hs]
    have hget' : e'.dag.tryGet = fun id => [Expr.var 0 (.bv 8), .extract 7 0 0, .zeroExt 56 1,
        .extract 7 0 2, .extract 7 0 3, .var 1 (.bv 8), .extract 7 0 5][id]? := by
      funext id
      rw [ExprDag.tryGet, hn]
    have hstored : e.dag.Evaluates numbered 3 (.bv 8 0) := by
      rw [ExprDag.Evaluates, hget]
      exact ⟨5, rfl⟩
    have hloaded : e'.dag.Evaluates numbered 6 (.bv 8 1) := by
      rw [ExprDag.Evaluates, hget']
      exact ⟨5, rfl⟩
    exact ⟨em', 3, 6, e, e', hstore, hsource, hread, hstored, fun h => by
      cases hloaded.unique h⟩
  · obtain ⟨⟨ev', em'⟩, hstore, hrun⟩ := (Option.any_eq_true _ _).mp hbase
    rw [Bool.and_eq_true, Bool.and_eq_true, Option.isNone_iff_eq_none] at hrun
    obtain ⟨⟨rfl, hread⟩, hbefore⟩ := hrun
    obtain ⟨⟨r, e⟩, hread, hr⟩ := (Option.any_eq_true _ _).mp hread
    obtain ⟨⟨r', e'⟩, hbefore, hr'⟩ := (Option.any_eq_true _ _).mp hbefore
    obtain ⟨n, rfl⟩ := Option.isSome_iff_exists.mp hr
    cases Option.isNone_iff_eq_none.mp hr'
    exact ⟨em', n, e, e', hstore, hread, hbefore⟩

/-- The byte behind a stored number keeps its value. -/
example : X86.Memory.store (fun _ => 7) 64 (0x1234 : BitVec 16) 66 = 7 := by decide +kernel

end Stores

end Axe.Concolic
