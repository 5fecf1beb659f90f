import Axe.Concolic.ShadowSorts

/-!
# What the shadow state says about a machine

A machine agrees with the shadow state when every register and byte that has a
node has the value of the node. Then the term of an operand has the value that
the operand has on the machine.
-/
namespace Axe.Concolic

open Smt (SmtSort Term Value Assignment)
open X86 (Reg Machine)

section Denotation

/-- The value of a term, given the values of its locations. -/
inductive HasValue (ν : Loc → Option Value) : ShadowTerm → Value → Prop
  | loc {l : Loc} {x : Value} : ν l = some x → HasValue ν (.symbol l) x
  | num (v w : Nat) : HasValue ν (.bvNum v w) (.bv w (BitVec.ofNat w v))
  | un {o : Smt.Op} {t : ShadowTerm} {x y : Value} : HasValue ν t x → o.apply [x] = some y →
      HasValue ν (.app o [t]) y
  | bin {o : Smt.Op} {t u : ShadowTerm} {x y z : Value} : HasValue ν t x → HasValue ν u y →
      o.apply [x, y] = some z → HasValue ν (.app o [t, u]) z

variable {ν : Loc → Option Value} {st : ShadowState} {dag : ExprDag} {σ : Assignment SymbolId}
  {n : NodeId} {t u : ShadowTerm} {x : Value} {v w : Nat}

theorem evalAlg_op {e : Expr} {o : Smt.Op} (ho : e.op = some o) (vs : List Value) :
    evalAlg σ e vs = o.apply vs := by
  rw [evalAlg, ho]

/-- A node has the value of the term it represents. -/
theorem Represents.evaluates
    (hregs : ∀ r n x, st.regs r = some n → ν (.reg r) = some x → dag.Evaluates σ n x)
    (hmem : ∀ a n x, st.memory a = some n → ν (.byte a) = some x → dag.Evaluates σ n x)
    (hinput : ∀ i s x, dag.symbolName s = some s!"input_b{i}" → ν (.input i) = some x →
      x = .bv 8 (σ s (.bv 8)))
    (h : Represents st dag n t) (hd : HasValue ν t x) : dag.Evaluates σ n x := by
  induction h generalizing x with
  | reg hr _ =>
    cases hd with
    | loc hl => exact hregs _ _ _ hr hl
  | byte ha _ =>
    cases hd with
    | loc hl => exact hmem _ _ _ ha hl
  | input he hname =>
    cases hd with
    | loc hl =>
      rw [hinput _ _ _ hname hl]
      exact DagFold.Folds.iff.mpr ⟨_, [], he, .nil, rfl⟩
  | num he =>
    cases hd
    exact DagFold.Folds.iff.mpr ⟨_, [], he, .nil, rfl⟩
  | un he ho hc _ _ ih =>
    cases hd with
    | un hd happ =>
      exact DagFold.Folds.iff.mpr
        ⟨_, [_], he, hc ▸ .cons (ih hd) .nil, (evalAlg_op ho _).trans happ⟩
  | bin he ho hc _ _ _ ih₁ ih₂ =>
    cases hd with
    | bin hd₁ hd₂ happ =>
      exact DagFold.Folds.iff.mpr
        ⟨_, [_, _], he, hc ▸ .cons (ih₁ hd₁) (.cons (ih₂ hd₂) .nil), (evalAlg_op ho _).trans happ⟩

theorem HasValue.cast {x : BitVec v} (h : HasValue ν t (.bv v x)) (hw : v = w) :
    HasValue ν t (.bv w (BitVec.ofNat w x.toNat)) := by
  cases hw
  rwa [BitVec.ofNat_toNat, BitVec.setWidth_eq]

theorem HasValue.extract {x : BitVec v} {hi lo : Nat} (h : HasValue ν t (.bv v x)) (hlo : lo ≤ hi)
    (hhi : hi < v) :
    HasValue ν (.app (.extract hi lo) [t]) (.bv (hi - lo + 1) (x.extractLsb' lo (hi - lo + 1))) :=
  .un h (if_pos ⟨hlo, hhi⟩)

theorem HasValue.concat {x : BitVec v} {y : BitVec w} (h : HasValue ν t (.bv v x))
    (h' : HasValue ν u (.bv w y)) : HasValue ν (.app .concat [t, u]) (.bv (v + w) (x ++ y)) :=
  .bin h h' rfl

theorem HasValue.binop {o : Smt.BvBin} {x y : BitVec w} (h : HasValue ν t (.bv w x))
    (h' : HasValue ν u (.bv w y)) : HasValue ν (.app (.bin o) [t, u]) (.bv w (o.den x y)) :=
  .bin h h' (by simp [Smt.Op.apply])

theorem HasValue.widen {x : BitVec w} (h : HasValue ν t (.bv w x)) (hw : w ≤ 64) :
    HasValue ν (widenTerm t w) (.bv 64 (x.setWidth 64)) := by
  unfold widenTerm
  split
  · have hw : w = 64 := by omega
    subst hw
    rwa [BitVec.setWidth_eq]
  · have h' : HasValue ν (.app (.zeroExtend (64 - w)) [t])
        (.bv (w + (64 - w)) (x.setWidth (w + (64 - w)))) := .un h rfl
    have := h'.cast (by omega : w + (64 - w) = 64)
    rwa [BitVec.toNat_setWidth_of_le (by omega), BitVec.ofNat_toNat] at this

/-- The low bits of a value. -/
theorem HasValue.narrow {x : BitVec v} (h : HasValue ν t (.bv v x)) (hw : 1 ≤ w) (hv : w ≤ v)
    (hv' : v ≤ 64) : HasValue ν (narrowTerm t w false) (.bv w (x.setWidth w)) := by
  unfold narrowTerm
  rw [if_neg (by decide)]
  split
  · have hw : v = w := by omega
    subst hw
    rwa [BitVec.setWidth_eq]
  · have := (h.extract (Nat.zero_le (w - 1)) (by omega)).cast (by omega : w - 1 - 0 + 1 = w)
    have hval : BitVec.ofNat w (x.extractLsb' 0 (w - 1 - 0 + 1)).toNat = x.setWidth w := by
      apply BitVec.eq_of_toNat_eq
      have hw1 : w - 1 - 0 + 1 = w := by omega
      rw [BitVec.toNat_ofNat, BitVec.extractLsb'_toNat, BitVec.toNat_setWidth, hw1]
      simp
    rwa [hval] at this

end Denotation

section Operands

/-- Whether an alias names the second byte of its register. -/
def isHighByte (name : List Char) : Bool :=
  ["ah".toList, "bh".toList, "ch".toList, "dh".toList].contains name

/-- The lowest bit of its register that an alias names. -/
def aliasLow (name : List Char) : Nat := if isHighByte name then 8 else 0

/-- The address of a memory operand. -/
def memAddress (M : Machine) (base : Option (List Char)) (disp : BitVec 64) :
    Option (BitVec 64) :=
  match base with
  | none => some disp
  | some b => (canonicalReg b).map fun c => M.regs c + disp

/-- The value an operand has in an instruction of a width. A register operand has that
width; memory without a size keyword counts as 64 bits wide. -/
def Operand.value (M : Machine) (w : Nat) : Operand → Option (BitVec w)
  | .imm v => some (v.setWidth w)
  | .reg name width =>
    if width = w then (canonicalReg name).map fun c => X86.readPart (aliasLow name) w (M.regs c)
    else none
  | .mem base disp width =>
    if w ≤ width then (memAddress M base disp).map fun addr => M.mem.load addr w else none

/-- The values of registers, bytes and input bytes on a machine. -/
def ShadowEmulator.valuation (em : ShadowEmulator) (M : Machine) : Loc → Option Value
  | .reg r => some (.bv 64 (M.regs r))
  | .byte a => some (.bv 8 (M.mem a))
  | .input i =>
    if i < em.inputLen.toNat then some (.bv 8 (M.mem (em.inputBase + BitVec.ofNat 64 i)))
    else none

/-- The machine has the values of the nodes the shadow state holds, and the input
variables stand for the bytes of the input. -/
structure ShadowEmulator.Agrees (em : ShadowEmulator) (dag : ExprDag) (σ : Assignment SymbolId)
    (M : Machine) : Prop where
  regs : ∀ r n, em.state.regs r = some n → dag.Evaluates σ n (.bv 64 (M.regs r))
  memory : ∀ a n, em.state.memory a = some n → dag.Evaluates σ n (.bv 8 (M.mem a))
  inputs : ∀ i s, dag.symbolName s = some s!"input_b{i}" → i < em.inputLen.toNat →
    σ s (.bv 8) = M.mem (em.inputBase + BitVec.ofNat 64 i)

/-- A base register holds the address of the input. -/
def ShadowEmulator.BaseHolds (em : ShadowEmulator) (M : Machine) : Operand → Prop
  | .mem (some b) _ _ => ∀ c ∈ canonicalReg b, M.regs c = em.inputBase
  | _ => True

variable {em : ShadowEmulator} {dag : ExprDag} {σ : Assignment SymbolId} {M : Machine}
  {n : NodeId} {t : ShadowTerm} {x : Value} {w : Nat}

theorem ShadowEmulator.Agrees.evaluates (h : em.Agrees dag σ M)
    (hn : Represents em.state dag n t) (hd : HasValue (em.valuation M) t x) :
    dag.Evaluates σ n x := by
  refine hn.evaluates (fun r n x hr hx => ?_) (fun a n x ha hx => ?_) (fun i s x hs hx => ?_) hd
  · cases hx
    exact h.regs r n hr
  · cases hx
    exact h.memory a n ha
  · obtain ⟨hi, hx⟩ := Option.ite_none_right_eq_some.mp hx
    rw [← Option.some.inj hx, h.inputs i s hs hi]

/-- The bytes put together are the number they store. -/
theorem concatTerm_hasValue {ν : Loc → Option Value} {mem : X86.Memory}
    {byte : Nat → Option ShadowTerm} {addr : BitVec 64} {j k : Nat}
    (hbyte : ∀ i u, j ≤ i → i < j + k → byte i = some u →
      HasValue ν u (.bv 8 (mem (addr + BitVec.ofNat 64 i))))
    {acc : Option ShadowTerm}
    (hacc : ∀ a, acc = some a →
      HasValue ν a (.bv (8 * j) (BitVec.ofNat _ (mem.number addr j))))
    (hj : acc = none → j = 0) (ht : concatTerm byte (List.range' j k) acc = some t) :
    HasValue ν t (.bv (8 * (j + k)) (BitVec.ofNat _ (mem.number addr (j + k)))) := by
  induction k generalizing j acc with
  | zero => exact hacc t ht
  | succ k ih =>
    have hrest : ∀ i u, j + 1 ≤ i → i < j + 1 + k → byte i = some u →
        HasValue ν u (.bv 8 (mem (addr + BitVec.ofNat 64 i))) :=
      fun i u h₁ h₂ => hbyte i u (by omega) (by omega)
    rw [List.range'_succ, concatTerm.eq_def] at ht
    dsimp only at ht
    split at ht
    · cases ht
    · rename_i b hb
      cases hj rfl
      have hb := hbyte 0 b le_rfl (by omega) hb
      have hnum : mem.number addr 1 = (mem (addr + BitVec.ofNat 64 0)).toNat := by
        simp [X86.Memory.number]
      have := ih hrest (fun a ha => by cases ha; exact hnum ▸ hb.cast rfl) (fun h => by cases h) ht
      rwa [Nat.add_right_comm] at this
    · rename_i b low hb
      have hb := (hbyte j b le_rfl (by omega) hb).concat (hacc low rfl)
      have hb := hb.cast (by omega : 8 + 8 * j = 8 * (j + 1))
      have hnum : mem.number addr (j + 1) = ((mem (addr + BitVec.ofNat 64 j)) ++
          BitVec.ofNat (8 * j) (mem.number addr j)).toNat := by
        rw [BitVec.toNat_append, BitVec.toNat_ofNat, Nat.mod_eq_of_lt (X86.Memory.number_lt _ _ _),
          ← Nat.shiftLeft_add_eq_or_of_lt (X86.Memory.number_lt _ _ _), Nat.shiftLeft_eq, X86.Memory.number,
          Nat.pow_mul]
      have := ih hrest (fun a ha => by cases ha; exact hnum ▸ hb) (fun h => by cases h) ht
      rwa [Nat.add_right_comm] at this

theorem effectiveAddr_eq {base : Option (List Char)} {disp : BitVec 64} {width : Nat}
    (hb : em.BaseHolds M (.mem base disp width)) (hc : em.baseConcrete base) :
    memAddress M base disp = some (em.effectiveAddr base disp) := by
  cases base with
  | none => rfl
  | some b =>
    obtain ⟨c, hc⟩ := Option.isSome_iff_exists.mp hc
    have hc := (Option.filter_eq_some_iff.mp hc).1
    rw [memAddress, hc, Option.map_some, hb c hc]
    rfl

/-- A region of the input lies between its bounds. -/
theorem inInput_true {addr : BitVec 64} {count : Nat} (hcount : count < 2 ^ 64)
    (h : em.inInput addr count = some true) :
    em.inputBase ≤ addr ∧ em.inputBase.toNat + em.inputLen.toNat < 2 ^ 64 ∧
      addr.toNat + count ≤ em.inputBase.toNat + em.inputLen.toNat := by
  unfold ShadowEmulator.inInput at h
  split at h
  · rename_i hle
    obtain ⟨stop, hstop, h⟩ := Option.bind_eq_some_iff.mp h
    obtain ⟨inputStop, hinput, h⟩ := Option.bind_eq_some_iff.mp h
    obtain ⟨rfl, hstop⟩ := checkedAdd_eq_some hstop
    obtain ⟨rfl, hinput⟩ := checkedAdd_eq_some hinput
    have hle' : addr + BitVec.ofNat 64 count ≤ em.inputBase + em.inputLen.setWidth 64 :=
      of_decide_eq_true (Option.some.inj h)
    have hlen := em.inputLen.isLt
    refine ⟨hle, ?_⟩
    simp only [BitVec.le_def, BitVec.toNat_add, BitVec.toNat_setWidth, BitVec.toNat_ofNat] at *
    omega
  · cases h

/-- A region of the input starts within it. -/
theorem inInput_offset {addr : BitVec 64} {count : Nat} (hcount : count < 2 ^ 64)
    (h : em.inInput addr count = some true) :
    ∃ k, (addr - em.inputBase).toNat = k ∧ k + count ≤ em.inputLen.toNat ∧
      em.inputBase + BitVec.ofNat 64 k = addr := by
  obtain ⟨hle, -, hstop⟩ := inInput_true hcount h
  have hsub : (addr - em.inputBase).toNat = addr.toNat - em.inputBase.toNat :=
    BitVec.toNat_sub_of_le hle
  have hle := BitVec.le_def.mp hle
  refine ⟨_, rfl, by rw [hsub]; omega, ?_⟩
  rw [BitVec.ofNat_toNat, BitVec.setWidth_eq, BitVec.add_comm, BitVec.sub_add_cancel]

theorem regionTerm_hasValue {base : Option (List Char)} {disp : BitVec 64} (hw : w ≤ 64)
    {width : Nat} (hb : em.BaseHolds M (.mem base disp width))
    (h : em.regionTerm base disp w = some t) : ∃ addr, memAddress M base disp = some addr ∧
      HasValue (em.valuation M) t (.bv w (M.mem.load addr w)) := by
  unfold ShadowEmulator.regionTerm at h
  dsimp only at h
  split at h
  · cases h
  · rename_i hskip
    have hconc : em.baseConcrete base = true := by
      by_contra hn
      exact hskip (.inr (.inr hn))
    have hw8 : 8 * (0 + w / 8) = w := by omega
    refine ⟨_, effectiveAddr_eq hb hconc, ?_⟩
    have hnum : (BitVec.ofNat (8 * (0 + w / 8))
        (M.mem.number (em.effectiveAddr base disp) (0 + w / 8))).toNat =
          M.mem.number (em.effectiveAddr base disp) (w / 8) := by
      rw [BitVec.toNat_ofNat, Nat.mod_eq_of_lt (X86.Memory.number_lt _ _ _), Nat.zero_add]
    have hcast : HasValue (em.valuation M) t (.bv (8 * (0 + w / 8)) (BitVec.ofNat _
        (M.mem.number (em.effectiveAddr base disp) (0 + w / 8)))) := by
      split at h
      · rename_i hin
        obtain ⟨k, hk, hlen, haddr⟩ := inInput_offset (by omega) hin
        rw [inputTerm, List.range_eq_range'] at h
        refine concatTerm_hasValue (fun i u _ hi hu => ?_) (by simp) (by simp) h
        cases hu
        have hlen32 := em.inputLen.isLt
        have hstart : ((em.effectiveAddr base disp - em.inputBase).setWidth 32).toNat = k := by
          rw [BitVec.toNat_setWidth, hk, Nat.mod_eq_of_lt (by omega)]
        refine .loc ?_
        rw [hstart, ShadowEmulator.valuation, if_pos (by omega), ← BitVec.ofNat_add_ofNat,
          ← BitVec.add_assoc, haddr]
      · rw [ShadowEmulator.bytesTerm, List.range_eq_range'] at h
        refine concatTerm_hasValue (fun i u _ hi hu => ?_) (by simp) (by simp) h
        obtain ⟨n, -, rfl⟩ := Option.map_eq_some_iff.mp hu
        exact .loc rfl
    have := hcast.cast hw8
    rwa [hnum] at this

theorem extractLsb'_zero_eq {v : Nat} (x : BitVec v) (w : Nat) : x.extractLsb' 0 w = x.setWidth w := by
  apply BitVec.eq_of_toNat_eq
  rw [BitVec.extractLsb'_toNat, BitVec.toNat_setWidth, Nat.shiftRight_zero]

/-- An immediate is cut to the width it is read at. -/
theorem immTerm_value (hw : OperandWidth w) (v : BitVec 64) :
    BitVec.ofNat w (v.setWidth 128 &&& immMask w).toNat = v.setWidth w := by
  have hmask : (immMask w).toNat = 2 ^ w - 1 := by
    simp only [OperandWidth, List.mem_cons, List.not_mem_nil, or_false] at hw
    rcases hw with rfl | rfl | rfl | rfl <;> decide
  apply BitVec.eq_of_toNat_eq
  rw [BitVec.toNat_and, hmask, Nat.and_two_pow_sub_one_eq_mod, BitVec.toNat_setWidth_of_le (by decide),
    BitVec.toNat_ofNat, BitVec.toNat_setWidth, Nat.mod_mod]

/-- An operand that has a value at a width is read at a width it has. -/
theorem readsAt_of_value {op : Operand} {y : BitVec w} (hwf : op.WellFormed)
    (hy : op.value M w = some y) : op.ReadsAt w := by
  cases op with
  | imm v => trivial
  | reg name width =>
    obtain ⟨rfl, -⟩ := Option.ite_none_right_eq_some.mp hy
    exact readsAt_self hwf rfl
  | mem base disp width => exact (Option.ite_none_right_eq_some.mp hy).1

/-- The term of an operand has the value of the operand. -/
theorem operandTerm_hasValue {op : Operand} {y : BitVec w} (hw : OperandWidth w)
    (hwf : op.WellFormed) (hb : em.BaseHolds M op)
    (hhigh : ∀ name width, op = .reg name width → isHighByte name → name = "ah".toList)
    (h : em.operandTerm op w = some t) (hy : op.value M w = some y) :
    HasValue (em.valuation M) t (.bv w y) := by
  have hbd := hw.bounds
  have hr := readsAt_of_value hwf hy
  cases op with
  | imm v =>
    cases h
    cases hy
    have hmin : min w 127 = w := by omega
    rw [immTerm, hmin]
    rw [← immTerm_value hw]
    exact .num _ w
  | reg name width =>
    obtain ⟨c, hc, h⟩ := Option.bind_eq_some_iff.mp h
    obtain ⟨n, -, rfl⟩ := Option.map_eq_some_iff.mp h
    obtain ⟨rfl, hy⟩ := Option.ite_none_right_eq_some.mp hy
    rw [hc, Option.map_some] at hy
    cases hy
    have hloc : HasValue (em.valuation M) (.symbol (.reg c)) (.bv 64 (M.regs c)) := .loc rfl
    by_cases hah : name = "ah".toList
    · cases hr hah
      rw [narrowTerm, if_pos (by simpa using hah), X86.readPart, aliasLow,
        if_pos (hah ▸ by decide)]
      exact hloc.extract (by decide) (by decide)
    · rw [show decide (name = "ah".toList) = false by simpa using hah]
      rw [X86.readPart, aliasLow, if_neg fun hh => hah (hhigh _ _ rfl hh), extractLsb'_zero_eq]
      exact hloc.narrow (by omega) hbd.2 le_rfl
  | mem base disp width =>
    obtain ⟨u, hu, rfl⟩ := Option.map_eq_some_iff.mp h
    have hmin : min width w = w := Nat.min_eq_right hr
    rw [hmin] at hu
    obtain ⟨addr, haddr, hd⟩ := regionTerm_hasValue hbd.2 hb hu
    rw [Operand.value, if_pos (show w ≤ width from hr), haddr] at hy
    cases hy
    have := hd.narrow (by omega) le_rfl hbd.2
    rwa [BitVec.setWidth_eq] at this

end Operands

end Axe.Concolic
