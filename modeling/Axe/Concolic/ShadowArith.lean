import Axe.Concolic.ShadowValues

/-!
# Arithmetic and comparisons over concrete operands

The emulator does not know the values of concrete operands, so a result that
depends on one has to stay concrete, and a result that is symbolic has to be the
one the machine computes.
-/
namespace Axe.Concolic

open Smt (SmtSort Term Value Assignment)
open X86 (Reg Machine)

section Machine

def Binop.alu : Binop → X86.AluOp
  | .add => .add
  | .sub => .sub
  | .mul => .imul
  | .and => .and
  | .or => .or
  | .xor => .xor

def Shift.x86 : Shift → X86.ShiftOp
  | .shl => .shl
  | .lshr => .shr
  | .ashr => .sar

/-- The count of a shift is an immediate or `cl`. -/
def Operand.count (M : Machine) : Operand → Option (BitVec 8)
  | .imm v => some (v.setWidth 8)
  | .reg name _ => if name = "cl".toList then some ((M.regs .rcx).setWidth 8) else none
  | .mem _ _ _ => none

/-- The machine with a new value in a destination of that width. -/
def Operand.put (M : Machine) {w : Nat} (y : BitVec w) : Operand → Option Machine
  | .imm _ => none
  | .reg name _ => (canonicalReg name).map fun c =>
    { M with regs := Function.update M.regs c (X86.writePart (aliasLow name) (M.regs c) y) }
  | .mem base disp _ => (memAddress M base disp).map fun addr =>
    { M with mem := M.mem.store addr y }

/-- The machine after an arithmetic, logic or shift instruction of a width. -/
def execArith (M : Machine) (family : Family) (dst src : Operand) (w : Nat) : Option Machine := do
  let x ← dst.value M w
  match family with
  | .binop o => dst.put M (o.alu.den x (← src.value M w))
  | .shift o => dst.put M (o.x86.den x (← src.count M))
  | _ => none

end Machine

section Laws

/-- Arithmetic, logic, shifts and comparisons; also those outside the table. -/
def Family.Computes : Family → Prop
  | .binop _ | .shift _ | .cmp _ | .unsupported => True
  | .mov | .movx _ | .lea => False

/-- The width at which the operands are read. -/
def readWidth (family : Family) (dst src : Operand) : Nat :=
  match family with
  | .cmp _ => cmpWidth dst src
  | _ => dst.width.getD 64

namespace ShadowEmulator
variable (em : ShadowEmulator)

/-- A register or memory operand without a shadow. -/
def Concrete (op : Operand) (w : Nat) : Prop := op.isLocation ∧ em.operandTerm op w = none

/-- The destination is concrete after the instruction. -/
def LeavesConcrete (family : Family) (dst : Operand) : Prop :=
  match family with
  | .cmp _ => em.lastCmp = none
  | _ => dst.isLocation → em.operandTerm dst (dst.width.getD 64) = none

/-- The nodes of a destination have the values it has on a machine. -/
def DestinationHas (σ : Assignment SymbolId) (M : Machine) : Operand → Prop
  | .imm _ => True
  | .reg name _ => ∀ c ∈ canonicalReg name, ∀ n, em.state.regs c = some n →
    em.dag.Evaluates σ n (.bv 64 (M.regs c))
  | .mem base disp w => ∀ i < w / 8, ∀ n,
    em.state.memory (em.effectiveAddr base disp + BitVec.ofNat 64 i) = some n →
      em.dag.Evaluates σ n (.bv 8 (M.mem (em.effectiveAddr base disp + BitVec.ofNat 64 i)))

/-- The sides of the comparison have the values of the operands; for `test` they are the
conjunction of the operands and zero. -/
def ComparisonHas (σ : Assignment SymbolId) (M : Machine) (isTest : Bool) (a b : Operand)
    (w : Nat) : Prop :=
  ∀ c ∈ em.lastCmp, ∀ x y, a.value M w = some x → b.value M w = some y →
    c.width = w ∧ c.isTest = isTest ∧
      em.dag.Evaluates σ c.lhs (.bv w (if isTest then x &&& y else x)) ∧
      em.dag.Evaluates σ c.rhs (.bv w (if isTest then 0 else y))

/-- What the instruction writes is what the machine computes. -/
def Computed (σ : Assignment SymbolId) (M : Machine) (family : Family) (dst src : Operand) :
    Prop :=
  match family with
  | .cmp isTest => em.ComparisonHas σ M isTest dst src (cmpWidth dst src)
  | family => ∀ M', execArith M family dst src (dst.width.getD 64) = some M' →
    em.DestinationHas σ M' dst

/-- No byte of a destination in memory is symbolic. -/
def MemoryConcrete (base : Option (List Char)) (disp : BitVec 64) (w : Nat) : Prop :=
  em.inInput (em.effectiveAddr base disp) (w / 8) ≠ some true ∧
    ∀ i < w / 8, em.state.memory (em.effectiveAddr base disp + BitVec.ofNat 64 i) = none

/-- The operands that an instruction handles without inventing a value. -/
def Handles (family : Family) (dst src : Operand) : Prop :=
  match family, dst with
  | .cmp _, _ =>
    (dst.isLocation → src.isLocation →
      ((em.operandTerm dst (cmpWidth dst src)).isSome ↔
        (em.operandTerm src (cmpWidth dst src)).isSome)) ∧
    ∀ op ∈ [dst, src], ∀ name w, op = .reg name w → isHighByte name → name = "ah".toList
  | .binop _, .reg name w =>
    (src.isLocation = false → (em.operandTerm (.reg name w) w).isSome) ∧
    (w < 32 → em.operandTerm (.reg name w) w = none ∨ em.operandTerm src w = none)
  | .shift _, .reg name w =>
    w < 32 → em.operandTerm (.reg name w) w = none ∨ em.operandTerm src w = none
  | _, .mem base disp w => em.MemoryConcrete base disp w
  | _, _ => True

end ShadowEmulator

/-- The count of a shift of a width is less than the width. -/
def CountFits (M : Machine) (w : Nat) : Operand → Prop
  | .imm v => v.toNat < w
  | .reg _ _ => ((M.regs .rcx).setWidth w).toNat < w
  | .mem _ _ _ => True

/-- What the law asks of the machine beyond agreement. -/
structure ShadowEmulator.Plain (em : ShadowEmulator) (M : Machine) (family : Family)
    (dst src : Operand) : Prop where
  dstBase : em.BaseHolds M dst
  srcBase : em.BaseHolds M src
  count : ∀ o, family = .shift o → CountFits M (dst.width.getD 64) src

/-- With a concrete operand the destination is left concrete, and what becomes symbolic is
what every machine computes that agrees with the state before. -/
structure Respects (em em' : ShadowEmulator) (family : Family) (dst src : Operand) : Prop where
  concrete : (∃ op ∈ [dst, src], em.Concrete op (readWidth family dst src)) →
    em'.LeavesConcrete family dst
  computed : ∀ σ M, em.Agrees em'.dag σ M → em.Plain M family dst src →
    em'.Computed σ M family dst src

end Laws

section Proofs
variable {em em' : ShadowEmulator} {dst src : Operand} {w : Nat} {σ : Assignment SymbolId}
  {M M' : Machine} {k : Nat}

theorem isHighByte_width {name : List Char} {w : Nat} (h : isHighByte name)
    (hw : registerWidth name = some w) : w = 8 := by
  have hall : ∀ name ∈ ["ah".toList, "bh".toList, "ch".toList, "dh".toList],
      registerWidth name = some 8 := by simp [registerWidth, registerNames, toAsciiLowercase]
  exact Option.some.inj (hw.symm.trans (hall name (List.contains_iff_mem.mp h)))

/-- Only `ah` is a high byte among the operands of a width above 8 bits. -/
theorem high_of_wide {op : Operand} {y : BitVec w} (hwf : op.WellFormed)
    (hy : op.value M w = some y) (hw : w ≠ 8) :
    ∀ name width, op = .reg name width → isHighByte name → name = "ah".toList := by
  rintro name width rfl hh
  obtain ⟨rfl, -⟩ := Option.ite_none_right_eq_some.mp hy
  exact absurd (isHighByte_width hh hwf) hw

/-- A state with the same registers and memory reads operands alike. -/
theorem operandTerm_congr (hregs : em'.state.regs = em.state.regs)
    (hmem : em'.state.memory = em.state.memory) (hbase : em'.inputBase = em.inputBase)
    (hlen : em'.inputLen = em.inputLen) (op : Operand) (w : Nat) :
    em'.operandTerm op w = em.operandTerm op w := by
  obtain ⟨dag, ⟨regs, memory, events⟩, inputBase, inputLen, lastCmp⟩ := em
  obtain ⟨dag', ⟨regs', memory', events'⟩, inputBase', inputLen', lastCmp'⟩ := em'
  dsimp only at hregs hmem hbase hlen
  subst hregs hmem hbase hlen
  rfl

theorem regTerm_none {name : List Char} {w : Nat} :
    em.operandTerm (.reg name w) w = none ↔ ∀ c ∈ canonicalReg name, em.state.regs c = none := by
  rw [ShadowEmulator.operandTerm]
  cases canonicalReg name with
  | none => simp
  | some c => simp

theorem memoryConcrete_operandTerm {base : Option (List Char)} {disp : BitVec 64} (hw : 8 ≤ w)
    (h : em.MemoryConcrete base disp w) : em.operandTerm (.mem base disp w) w = none := by
  obtain ⟨hin, hbytes⟩ := h
  have h0 := hbytes 0 (by omega)
  obtain ⟨k, hk⟩ : ∃ k, w / 8 = k + 1 := ⟨w / 8 - 1, by omega⟩
  rw [ShadowEmulator.operandTerm, Nat.min_self, Option.map_eq_none_iff, ShadowEmulator.regionTerm]
  split
  · rfl
  · rw [ShadowEmulator.bytesTerm, hk, List.range_eq_range', List.range'_succ,
      concatTerm.eq_def]
    simp only [h0, Option.map_none]

/-- A register that gets no node is concrete. -/
theorem setReg_none {name : List Char} {t : Option ShadowTerm}
    (h : Realizes k em (regEffect name t) em') (ht : t = none) :
    ∀ c ∈ canonicalReg name, em'.state.regs c = none := by
  intro c hc
  have ho := h.outcome
  rw [regEffect, Option.mem_def.mp hc] at ho
  obtain ⟨-, -, r, hregs, hrep⟩ := ho
  rw [ht] at hrep
  cases hrep
  rw [hregs, Function.update_self]

/-- A register that gets a node has the value of the term. -/
theorem setReg_evaluates {name : List Char} {t : Option ShadowTerm}
    (h : Realizes k em (regEffect name t) em') (hag : em.Agrees em'.dag σ M)
    (hd : ∀ c ∈ canonicalReg name, ∀ u, t = some u →
      HasValue (em.valuation M) u (.bv 64 (M'.regs c))) :
    ∀ c ∈ canonicalReg name, ∀ n, em'.state.regs c = some n →
      em'.dag.Evaluates σ n (.bv 64 (M'.regs c)) := by
  intro c hc n hn
  have ho := h.outcome
  rw [regEffect, Option.mem_def.mp hc] at ho
  obtain ⟨-, -, r, hregs, hrep⟩ := ho
  rw [hregs, Function.update_self] at hn
  subst hn
  cases t with
  | none => cases hrep
  | some u =>
    cases hrep with
    | some hrep => exact hag.evaluates hrep (hd c hc u rfl)

/-- The term a binary instruction writes has the value it computes. -/
theorem binopTerm_hasValue {o : Binop} {name : List Char} {x y : BitVec w} {u : ShadowTerm}
    (hw : OperandWidth w) (h32 : w ≠ 8) (hdst : (Operand.reg name w).WellFormed)
    (hsrc : src.WellFormed) (hbase : em.BaseHolds M src)
    (himm : src.isLocation = false → (em.operandTerm (.reg name w) w).isSome)
    (hx : (Operand.reg name w).value M w = some x) (hy : src.value M w = some y)
    (hu : binopTerm o src w (em.operandTerm (.reg name w) w) (em.operandTerm src w) = some u) :
    HasValue (em.valuation M) u (.bv w (o.alu.den x y)) := by
  unfold binopTerm at hu
  split at hu
  · rename_i l r hl hr
    cases hu
    have hdl := operandTerm_hasValue hw hdst trivial (high_of_wide hdst hx h32) hl hx
    have hdr := operandTerm_hasValue hw hsrc hbase (high_of_wide hsrc hy h32) hr hy
    have := hdl.binop (o := o.op) hdr
    cases o <;> exact this
  · rename_i l hl hr
    cases src with
    | imm v => cases hr
    | reg | mem => cases hu
  · rename_i r hl hr
    cases src with
    | imm v =>
      have := himm rfl
      rw [hl] at this
      cases this
    | reg | mem => cases hu
  · cases hu

/-- A count below the width is used as it is. -/
theorem shift_den {o : Shift} {x y : BitVec w} {c : BitVec 8} (hw : OperandWidth w) (h32 : 32 ≤ w)
    (hc : c.toNat = y.toNat) (hlt : y.toNat < w) : o.op.den x y = o.x86.den x c := by
  have hcount : X86.shiftCount w c = y.toNat := by
    simp only [OperandWidth, List.mem_cons, List.not_mem_nil, or_false] at hw
    unfold X86.shiftCount
    split
    · rw [hc, Nat.mod_eq_of_lt (by omega)]
    · rw [hc, Nat.mod_eq_of_lt (by omega)]
  cases o <;> simp only [Shift.op, Shift.x86, Smt.BvBin.den, X86.ShiftOp.den, hcount]

theorem shiftTerm_hasValue {o : Shift} {name : List Char} {x : BitVec w} {c : BitVec 8}
    {u : ShadowTerm} (hw : OperandWidth w) (h32 : 32 ≤ w) (hdst : (Operand.reg name w).WellFormed)
    (hcount : CountFits M w src) (hx : (Operand.reg name w).value M w = some x)
    (hc : src.count M = some c)
    (hu : shiftTerm o (em.operandTerm (.reg name w) w) (em.amountTerm src w) = some u) :
    HasValue (em.valuation M) u (.bv w (o.x86.den x c)) := by
  have hb := hw.bounds
  have h256 : 64 < 2 ^ 8 := by decide
  unfold shiftTerm at hu
  split at hu
  · rename_i l a hl ha
    cases hu
    have hdl := operandTerm_hasValue hw hdst trivial (high_of_wide hdst hx (by omega)) hl hx
    cases src with
    | imm v =>
      have hlt : v.toNat < w := hcount
      have hpow := hlt.trans Nat.lt_two_pow_self
      cases ha
      cases hc
      have hd : HasValue (em.valuation M)
          (.bvNum (v.setWidth 128 &&& immMask w).toNat w) (.bv w (v.setWidth w)) :=
        immTerm_value hw v ▸ .num _ w
      have hv : (v.setWidth w).toNat = v.toNat := by
        rw [BitVec.toNat_setWidth, Nat.mod_eq_of_lt hpow]
      have hv8 : (v.setWidth 8).toNat = v.toNat := by
        rw [BitVec.toNat_setWidth, Nat.mod_eq_of_lt (by omega)]
      rw [← shift_den hw h32 (hv8.trans hv.symm) (hv ▸ hlt)]
      exact hdl.binop hd
    | reg name' w' =>
      obtain ⟨hcl, hc⟩ := Option.ite_none_right_eq_some.mp hc
      cases hc
      have hlt : ((M.regs .rcx).setWidth w).toNat < w := hcount
      obtain ⟨n, -, rfl⟩ : ∃ n, em.state.regs .rcx = some n ∧
          narrowTerm (.symbol (.reg .rcx)) w false = a := by
        have ha : em.operandTerm (.reg name' w') w = some a := ha
        rw [ShadowEmulator.operandTerm, hcl, canonicalReg_cl, Option.bind_some] at ha
        exact Option.map_eq_some_iff.mp ha
      have hd : HasValue (em.valuation M) (narrowTerm (.symbol (.reg .rcx)) w false)
          (.bv w ((M.regs .rcx).setWidth w)) :=
        HasValue.narrow (x := M.regs .rcx) (.loc rfl) (by omega) hb.2 le_rfl
      have h8 : ((M.regs .rcx).setWidth 8).toNat = ((M.regs .rcx).setWidth w).toNat := by
        have hmod : (M.regs .rcx).toNat % 2 ^ w % 2 ^ 8 = (M.regs .rcx).toNat % 2 ^ 8 :=
          Nat.mod_mod_of_dvd _ (pow_dvd_pow 2 hb.1)
        rw [BitVec.toNat_setWidth] at hlt ⊢
        rw [BitVec.toNat_setWidth, ← hmod, Nat.mod_eq_of_lt (by omega)]
      rw [← shift_den hw h32 h8 hlt]
      exact hdl.binop hd
    | mem => cases ha
  · cases hu

theorem binopTerm_none {o : Binop} {l r : Option ShadowTerm}
    (himm : src.isLocation = false → l.isSome) (h : l = none ∨ src.isLocation ∧ r = none) :
    binopTerm o src w l r = none := by
  cases src with
  | imm v =>
    obtain rfl | ⟨hloc, -⟩ := h
    · cases himm rfl
    · cases hloc
  | reg | mem =>
    obtain rfl | ⟨-, rfl⟩ := h
    · cases r <;> rfl
    · cases l <;> rfl

theorem shiftTerm_none {o : Shift} (h : em.operandTerm dst w = none ∨
    src.isLocation ∧ em.operandTerm src w = none) :
    shiftTerm o (em.operandTerm dst w) (em.amountTerm src w) = none := by
  obtain h | ⟨hloc, h⟩ := h
  · rw [h]
    rfl
  · have ha : em.amountTerm src w = none := by
      cases src with
      | imm v => cases hloc
      | reg name' w' => exact h
      | mem => rfl
    rw [ha]
    cases em.operandTerm dst w <;> rfl

/-- An instruction with a register destination: what it does when its term is missing, and
what when it is there. -/
theorem reg_law {family : Family} {name : List Char} {t : Option ShadowTerm}
    (hcmp : ∀ b, family ≠ .cmp b) (hw : OperandWidth w)
    (h : Realizes k em (regEffect name (t.map fun t => widenTerm t w)) em')
    (hnone : ((Operand.reg name w).isLocation ∧ em.operandTerm (.reg name w) w = none ∨
      src.isLocation ∧ em.operandTerm src w = none) → t = none)
    (hvalue : ∀ M M', em.Plain M family (.reg name w) src →
      execArith M family (.reg name w) src w = some M' → ∀ c ∈ canonicalReg name, ∀ u, t = some u →
        ∃ y : BitVec w, HasValue (em.valuation M) u (.bv w y) ∧ M'.regs c = y.setWidth 64) :
    Respects em em' family (.reg name w) src := by
  have hread : readWidth family (.reg name w) src = w := by
    cases family <;> first | rfl | exact absurd rfl (hcmp _)
  constructor
  · rintro ⟨op, hop, hconc⟩
    rw [hread] at hconc
    have ht : t = none := hnone (by
      obtain rfl | hop := List.mem_cons.mp hop
      · exact .inl hconc
      · exact .inr (List.mem_singleton.mp hop ▸ hconc))
    have hregs := setReg_none h (by rw [ht]; rfl)
    have : em'.operandTerm (.reg name w) w = none := regTerm_none.mpr hregs
    cases family <;> first | exact fun _ => this | exact absurd rfl (hcmp _)
  · intro σ M hag hplain
    have hcomp : ∀ M', execArith M family (.reg name w) src w = some M' →
        em'.DestinationHas σ M' (.reg name w) := by
      intro M' hM'
      refine setReg_evaluates h hag fun c hc u hu => ?_
      obtain ⟨u, ht, rfl⟩ := Option.map_eq_some_iff.mp hu
      obtain ⟨y, hd, hy⟩ := hvalue M M' hplain hM' c hc u ht
      rw [hy]
      exact hd.widen hw.bounds.2
    cases family <;> first | exact hcomp | exact absurd rfl (hcmp _)

/-- A write of at least 32 bits. -/
theorem put_reg {name : List Char} {c : Reg} {y : BitVec w} (h32 : 32 ≤ w)
    (hM : (Operand.reg name w).put M y = some M') (hc : c ∈ canonicalReg name) :
    M'.regs c = y.setWidth 64 := by
  rw [Operand.put, Option.mem_def.mp hc, Option.map_some] at hM
  cases hM
  exact (Function.update_self ..).trans (X86.writePart_wide h32 _ _ _)

theorem binop_law {o : Binop} {name : List Char} (hdst : (Operand.reg name w).WellFormed)
    (hsrc : src.WellFormed) (hh : em.Handles (.binop o) (.reg name w) src)
    (h : Realizes k em (em.binopEffect o [.reg name w, src]) em') :
    Respects em em' (.binop o) (.reg name w) src := by
  obtain ⟨himm, hnarrow⟩ := hh
  have hw : OperandWidth w := operandWidth hdst rfl
  refine reg_law (by simp) hw h (fun hn => binopTerm_none himm (hn.imp_left And.right)) ?_
  intro M M' hplain hM' c hc u hu
  have h32 : 32 ≤ w := by
    by_contra hlt
    have := hnarrow (by omega)
    have hnone : binopTerm o src w (em.operandTerm (.reg name w) w) (em.operandTerm src w) = none := by
      refine binopTerm_none himm (this.imp_right fun hs => ⟨?_, hs⟩)
      cases src with
      | imm v => cases hs
      | reg | mem => rfl
    rw [hnone] at hu
    cases hu
  obtain ⟨x, hx, hM'⟩ := Option.bind_eq_some_iff.mp hM'
  obtain ⟨y, hy, hM'⟩ := Option.bind_eq_some_iff.mp hM'
  exact ⟨_, binopTerm_hasValue hw (by omega) hdst hsrc hplain.srcBase himm hx hy hu,
    put_reg h32 hM' hc⟩

theorem shift_law {o : Shift} {name : List Char} (hdst : (Operand.reg name w).WellFormed)
    (hh : em.Handles (.shift o) (.reg name w) src)
    (h : Realizes k em (em.shiftEffect o [.reg name w, src]) em') :
    Respects em em' (.shift o) (.reg name w) src := by
  have hw : OperandWidth w := operandWidth hdst rfl
  refine reg_law (by simp) hw h (fun hn => shiftTerm_none (hn.imp_left And.right)) ?_
  intro M M' hplain hM' c hc u hu
  have h32 : 32 ≤ w := by
    by_contra hlt
    have hnone : shiftTerm o (em.operandTerm (.reg name w) w) (em.amountTerm src w) = none := by
      refine shiftTerm_none ((hh (by omega)).imp_right fun hs => ⟨?_, hs⟩)
      cases src with
      | imm v => cases hs
      | reg | mem => rfl
    rw [hnone] at hu
    cases hu
  obtain ⟨x, hx, hM'⟩ := Option.bind_eq_some_iff.mp hM'
  obtain ⟨n, hn, hM'⟩ := Option.bind_eq_some_iff.mp hM'
  exact ⟨_, shiftTerm_hasValue hw h32 hdst (hplain.count o rfl) hx hn hu, put_reg h32 hM' hc⟩

theorem unsupported_law {name : List Char} (hdst : (Operand.reg name w).WellFormed)
    (h : Realizes k em (ShadowEmulator.unsupportedEffect [.reg name w, src]) em') :
    Respects em em' .unsupported (.reg name w) src :=
  reg_law (t := none) (by simp) (operandWidth hdst rfl) h (fun _ => rfl)
    fun _ _ _ _ _ _ _ hu => (by cases hu)

/-- An instruction whose destination is not a register changes nothing. -/
theorem other_law {family : Family} (hcmp : ∀ b, family ≠ .cmp b) (hdst : dst.WellFormed)
    (hreg : ∀ name w, dst ≠ .reg name w)
    (hmem : ∀ base disp w, dst = .mem base disp w → em.MemoryConcrete base disp w)
    (h : Realizes k em .none em') : Respects em em' family dst src := by
  obtain ⟨hregs, hmemory, -⟩ := h.outcome
  have haddr : ∀ base disp, em'.effectiveAddr base disp = em.effectiveAddr base disp := by
    intro base disp
    rw [ShadowEmulator.effectiveAddr, h.inputBase]
    rfl
  cases dst with
  | reg name w => exact absurd rfl (hreg name w)
  | imm v =>
    refine ⟨fun _ => ?_, fun σ M _ _ => ?_⟩
    · cases family <;> first | exact fun hloc => (by cases hloc) | exact absurd rfl (hcmp _)
    · cases family <;> first | exact fun _ _ => trivial | exact absurd rfl (hcmp _)
  | mem base disp w =>
    have hconc := hmem base disp w rfl
    refine ⟨fun _ => ?_, fun σ M _ _ => ?_⟩
    · have hnone : em'.operandTerm (.mem base disp w) w = none :=
        (operandTerm_congr hregs hmemory h.inputBase h.inputLen _ _).trans
          (memoryConcrete_operandTerm (operandWidth hdst rfl).bounds.1 hconc)
      cases family <;> first | exact fun _ => hnone | exact absurd rfl (hcmp _)
    · have hhas : ∀ M', em'.DestinationHas σ M' (.mem base disp w) := by
        intro M' i hi n hn
        rw [haddr, hmemory, hconc.2 i hi] at hn
        cases hn
      cases family <;> first | exact fun M' _ => hhas M' | exact absurd rfl (hcmp _)

theorem sideTerm_some {op : Operand} {t : ShadowTerm} (h : em.operandTerm op w = some t) :
    sideTerm op (em.operandTerm op w) w = t := by
  rw [sideTerm, h, Option.getD_some]

theorem cmp_law {isTest : Bool} (hdst : dst.WellFormed) (hsrc : src.WellFormed)
    (hh : em.Handles (.cmp isTest) dst src)
    (h : Realizes k em (em.cmpEffect isTest [dst, src]) em') :
    Respects em em' (.cmp isTest) dst src := by
  obtain ⟨hiff, hhigh⟩ := hh
  obtain ⟨-, -, hcmp⟩ := h.outcome
  obtain ⟨hw, -, -⟩ := cmpWidth_spec hdst hsrc
  have himm : ∀ {op : Operand} {w : Nat}, op.isLocation = false → (em.operandTerm op w).isSome := by
    intro op w hop
    cases op with
    | imm v => rfl
    | reg | mem => cases hop
  -- a comparison is kept only when both sides have a term
  have hboth : ∀ ct, em.compareTerm dst src isTest = some ct →
      (em.operandTerm dst (cmpWidth dst src)).isSome ∧
        (em.operandTerm src (cmpWidth dst src)).isSome := by
    intro ct hct
    obtain ⟨hsym, -⟩ := Option.ite_none_left_eq_some.mp hct
    rcases not_and_or.mp hsym with hsym | hsym
    · obtain ⟨hloc, hd⟩ := not_not.mp hsym
      refine ⟨hd, ?_⟩
      cases hs : src.isLocation with
      | true => exact (hiff hloc hs).mp hd
      | false => exact himm hs
    · obtain ⟨hloc, hs⟩ := not_not.mp hsym
      refine ⟨?_, hs⟩
      cases hd : dst.isLocation with
      | true => exact (hiff hd hloc).mpr hs
      | false => exact himm hd
  constructor
  · rintro ⟨op, hop, hloc, hnone⟩
    have hct : em.compareTerm dst src isTest = none := by
      by_contra hne
      obtain ⟨ct, hct⟩ := Option.ne_none_iff_exists'.mp hne
      obtain ⟨hd, hs⟩ := hboth ct hct
      have hnone : em.operandTerm op (cmpWidth dst src) = none := hnone
      obtain rfl | hop := List.mem_cons.mp hop
      · rw [hnone] at hd
        cases hd
      · cases List.mem_singleton.mp hop
        rw [hnone] at hs
        cases hs
    rw [hct] at hcmp
    show em'.lastCmp = none
    cases hlast : em'.lastCmp with
    | none => rfl
    | some c =>
      rw [hlast] at hcmp
      cases hcmp
  · intro σ M hag hplain c hc x y hx hy
    rw [Option.mem_def.mp hc] at hcmp
    cases hct : em.compareTerm dst src isTest with
    | none =>
      rw [hct] at hcmp
      cases hcmp
    | some ct =>
      obtain ⟨hd, hs⟩ := hboth ct hct
      obtain ⟨l, hl⟩ := Option.isSome_iff_exists.mp hd
      obtain ⟨r, hr⟩ := Option.isSome_iff_exists.mp hs
      rw [hct] at hcmp
      cases hcmp with
      | some hrep =>
        have hdl := operandTerm_hasValue hw hdst hplain.dstBase (hhigh dst (by simp)) hl hx
        have hdr := operandTerm_hasValue hw hsrc hplain.srcBase (hhigh src (by simp)) hr hy
        have heq := (Option.ite_none_left_eq_some.mp hct).2
        rw [sideTerm_some hl, sideTerm_some hr] at heq
        cases heq
        have hlhs := hrep.lhs
        have hrhs := hrep.rhs
        have hwidth := hrep.width
        have htest := hrep.isTest
        cases isTest with
        | true =>
          exact ⟨hwidth, htest, hag.evaluates hlhs (hdl.binop (o := .and) hdr),
            hag.evaluates hrhs (.num _ _)⟩
        | false => exact ⟨hwidth, htest, hag.evaluates hlhs hdl, hag.evaluates hrhs hdr⟩

/-- In every reachable state an instruction that handles its operands leaves a concrete
destination concrete, and computes what the machine computes. -/
theorem arith_respects_concrete (dag : ExprDag) (hd : dag.Built) (base : BitVec 64)
    (len : BitVec 32) (em em' : ShadowEmulator)
    (hreach : Reached (.new dag base len) (fun em _ => em.HasRoom) em) (hroom : em.HasRoom)
    (ir : InstructionRecord) (dst src : Operand) (hops : parseOperands ir.opStr = some [dst, src])
    (hjump : relationForBranch ir.lowerMnemonic = none)
    (hfamily : (familyOf ir.lowerMnemonic).Computes)
    (hh : em.Handles (familyOf ir.lowerMnemonic) dst src) (event : Option BranchEventWithNodeIds)
    (hstep : stepInstruction ir em = some (event, em')) :
    Respects em em' (familyOf ir.lowerMnemonic) dst src := by
  obtain ⟨hb, hv⟩ := hreach.valid (fun _ _ h => h) hd (new_valid dag base len)
  have hwf := parseOperands_wellFormed hops
  have hdst := hwf dst (by simp)
  have hsrc := hwf src (by simp)
  cases stepInstruction_steps hv ⟨hb, hroom.nodes, hroom.symbols⟩ hstep with
  | branch hrel _ => exact absurd (hjump.symm.trans hrel) (by simp)
  | act _ hparse h =>
    cases hops.symm.trans hparse
    generalize familyOf ir.lowerMnemonic = family at hfamily hh h
    cases family with
    | mov | movx | lea => exact hfamily.elim
    | cmp isTest => exact cmp_law hdst hsrc hh h
    | binop o =>
      cases dst with
      | reg name w => exact binop_law hdst hsrc hh h
      | imm v => exact other_law (by simp) hdst (by simp) (by simp) h
      | mem b d w =>
        exact other_law (by simp) hdst (by simp) (fun _ _ _ he => by cases he; exact hh) h
    | shift o =>
      cases dst with
      | reg name w => exact shift_law hdst hh h
      | imm v => exact other_law (by simp) hdst (by simp) (by simp) h
      | mem b d w =>
        exact other_law (by simp) hdst (by simp) (fun _ _ _ he => by cases he; exact hh) h
    | unsupported =>
      cases dst with
      | reg name w => exact unsupported_law hdst h
      | imm v => exact other_law (by simp) hdst (by simp) (by simp) h
      | mem b d w =>
        exact other_law (by simp) hdst (by simp) (fun _ _ _ he => by cases he; exact hh) h

/-- An immediate is added to four bytes of the input. -/
example : readWidth (.binop .add) (.reg "eax".toList 32) (.imm 5) = 32 := by decide +kernel

theorem arith_respects_concrete_addImm : ∃ em₁ em₂,
    stepInstruction ⟨0, "mov", "eax, dword ptr [rdi]"⟩ (.new .new 0 8) = some (none, em₁) ∧
      stepInstruction ⟨2, "add", "eax, 5"⟩ em₁ = some (none, em₂) ∧
      (em₂.state.regs .rax).isSome ∧
      Respects em₁ em₂ (.binop .add) (.reg "eax".toList 32) (.imm 5) := by
  have hrun : ((stepInstruction ⟨0, "mov", "eax, dword ptr [rdi]"⟩ (.new .new 0 8)).any fun p =>
      p.1.isNone && (p.2.operandTerm (.reg "eax".toList 32) 32).isSome &&
        decide (p.2.dag.len ≤ 64 ∧ p.2.dag.symbols.length ≤ 64) &&
        (stepInstruction ⟨2, "add", "eax, 5"⟩ p.2).any fun q =>
          q.1.isNone && (q.2.state.regs .rax).isSome) = true := by decide +kernel
  obtain ⟨⟨e₁, em₁⟩, h₁, hrun⟩ := (Option.any_eq_true _ _).mp hrun
  rw [Bool.and_eq_true, Bool.and_eq_true, Bool.and_eq_true, Option.isNone_iff_eq_none,
    decide_eq_true_iff] at hrun
  obtain ⟨⟨⟨rfl, hsome⟩, hlen⟩, hrun⟩ := hrun
  obtain ⟨⟨e₂, em₂⟩, h₂, hrun⟩ := (Option.any_eq_true _ _).mp hrun
  rw [Bool.and_eq_true, Option.isNone_iff_eq_none] at hrun
  obtain ⟨rfl, hrax⟩ := hrun
  refine ⟨em₁, em₂, h₁, h₂, hrax, ?_⟩
  have hadd : familyOf (InstructionRecord.lowerMnemonic ⟨2, "add", "eax, 5"⟩) = .binop .add := by
    decide +kernel
  have hnodes : em₁.dag.len ≤ 64 := hlen.1
  have hsymbols : em₁.dag.symbols.length ≤ 64 := hlen.2
  refine hadd ▸ arith_respects_concrete .new .new 0 8 em₁ em₂
    (.step .start ⟨by decide, by decide⟩ h₁) ⟨by omega, by omega⟩ ⟨2, "add", "eax, 5"⟩
    (.reg "eax".toList 32) (.imm 5) (by decide +kernel) (by decide +kernel) (hadd ▸ trivial) ?_ none
    h₂
  rw [hadd]
  exact ⟨fun _ => hsome, fun h => absurd h (by decide)⟩

/-- With `eax` concrete the immediate takes its place: five and five are added. -/
theorem add_invents_constant :
    (ShadowEmulator.new .new 0 8).Concrete (.reg "eax".toList 32) 32 ∧
      ∃ em', stepInstruction ⟨0, "add", "eax, 5"⟩ (.new .new 0 8) = some (none, em') ∧
        em'.dag.nodes = [.bvConst 5 32, .bvAdd 0 0, .zeroExt 32 1] ∧
        em'.state.regs .rax = some 2 := by
  refine ⟨⟨rfl, by decide +kernel⟩, ?_⟩
  have hrun : ((stepInstruction ⟨0, "add", "eax, 5"⟩ (.new .new 0 8)).any fun p =>
      p.1.isNone && decide (p.2.dag.nodes = [.bvConst 5 32, .bvAdd 0 0, .zeroExt 32 1]) &&
        decide (p.2.state.regs .rax = some 2)) = true := by decide +kernel
  obtain ⟨⟨e, em'⟩, h, hrun⟩ := (Option.any_eq_true _ _).mp hrun
  rw [Bool.and_eq_true, Bool.and_eq_true, Option.isNone_iff_eq_none, decide_eq_true_iff,
    decide_eq_true_iff] at hrun
  obtain ⟨⟨rfl, hnodes⟩, hrax⟩ := hrun
  exact ⟨em', h, hnodes, hrax⟩

/-- Shadows are added at the width of the destination. -/
example : readWidth (.binop .sub) (.mem none 0 16) (.reg "ax".toList 16) = 16 := by decide +kernel

end Proofs

end Axe.Concolic
