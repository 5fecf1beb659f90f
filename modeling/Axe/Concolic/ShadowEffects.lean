import Axe.Concolic.ShadowTerms

/-!
# What an instruction does to the shadow state

The effect of an instruction is one write of a term, computed from the operands
without the DAG. Each handler realizes the effect of its family: it writes a node
that represents the term and leaves everything else as it is.
-/
namespace Axe.Concolic

open Smt (SmtSort Term)
open X86 (Reg)
open Shadow (intern internSymbol checked)

def Binop.op : Binop → Smt.BvBin
  | .add => .add
  | .sub => .sub
  | .mul => .mul
  | .and => .and
  | .or => .or
  | .xor => .xor

def Shift.op : Shift → Smt.BvBin
  | .shl => .shl
  | .lshr => .lshr
  | .ashr => .ashr

theorem Binop.toExpr_op (op : Binop) (l r : NodeId) :
    (op.toExpr l r).op = some (.bin op.op) ∧ childrenOf (op.toExpr l r) = [l, r] ∧
      (∀ s, (op.toExpr l r).byteWide s = true) ∧ ExprDag.U32 (op.toExpr l r) := by
  cases op <;> exact ⟨rfl, rfl, fun _ => rfl, trivial⟩

theorem Shift.toExpr_op (shift : Shift) (l r : NodeId) :
    (shift.toExpr l r).op = some (.bin shift.op) ∧ childrenOf (shift.toExpr l r) = [l, r] ∧
      (∀ s, (shift.toExpr l r).byteWide s = true) ∧ ExprDag.U32 (shift.toExpr l r) := by
  cases shift <;> exact ⟨rfl, rfl, fun _ => rfl, trivial⟩

structure CompareTerm where
  lhs : ShadowTerm
  rhs : ShadowTerm
  width : Nat
  isTest : Bool

/-- What an instruction writes. A missing term makes the target concrete. -/
inductive Effect where
  | none
  | setReg (reg : Reg) (term : Option ShadowTerm)
  | setMem (addr : BitVec 64) (count : Nat) (term : Option ShadowTerm)
  | setCmp (cmp : Option CompareTerm)

section Effects

def regEffect (name : List Char) (term : Option ShadowTerm) : Effect :=
  match canonicalReg name with
  | some c => .setReg c term
  | none => .none

def memEffect (addr : BitVec 64) (widthBits : Nat) (term : Option ShadowTerm) : Effect :=
  if widthBits = 0 ∨ widthBits % 8 ≠ 0 then .none else .setMem addr (widthBits / 8) term

def byteTerm (t : ShadowTerm) (i : Nat) : ShadowTerm := .app (.extract (i * 8 + 7) (i * 8)) [t]

def extendTerm (signed : Bool) (extra : Nat) (t : ShadowTerm) : ShadowTerm :=
  if extra > 0 then .app (if signed then .signExtend extra else .zeroExtend extra) [t] else t

/-- With one operand concrete, an immediate source takes its place. -/
def binopTerm (op : Binop) (src : Operand) (width : Nat) (lhs rhs : Option ShadowTerm) :
    Option ShadowTerm :=
  match lhs, rhs with
  | some l, some r => some (.app (.bin op.op) [l, r])
  | some l, none | none, some l =>
    (literalValue src).map fun v =>
      .app (.bin op.op) [l, .bvNum (v.setWidth 128).toNat width]
  | none, none => none

def shiftTerm (shift : Shift) (lhs amount : Option ShadowTerm) : Option ShadowTerm :=
  match lhs, amount with
  | some l, some a => some (.app (.bin shift.op) [l, a])
  | _, _ => none

def sideTerm (op : Operand) (term : Option ShadowTerm) (w : Nat) : ShadowTerm :=
  term.getD (.bvNum (((literalValue op).getD 0).setWidth 128).toNat w)

def testTerm (w : Nat) (l r : ShadowTerm) (isTest : Bool) : CompareTerm :=
  if isTest then ⟨.app (.bin .and) [l, r], .bvNum (0#128).toNat w, w, isTest⟩ else ⟨l, r, w, isTest⟩

namespace ShadowEmulator
variable (em : ShadowEmulator)

def amountTerm (src : Operand) (width : Nat) : Option ShadowTerm :=
  match src with
  | .imm v => some (.bvNum (v.setWidth 128 &&& immMask width).toNat width)
  | .reg name w => em.operandTerm (.reg name w) width
  | .mem _ _ _ => none

def compareTerm (a b : Operand) (isTest : Bool) : Option CompareTerm :=
  let w := cmpWidth a b
  let lhs := em.operandTerm a w
  let rhs := em.operandTerm b w
  if ¬ (a.isLocation ∧ lhs.isSome) ∧ ¬ (b.isLocation ∧ rhs.isSome) then none
  else some (testTerm w (sideTerm a lhs w) (sideTerm b rhs w) isTest)

def leaTerm (base : Option (List Char)) (disp : BitVec 64) : Option ShadowTerm :=
  (base.bind canonicalReg).bind fun c => (em.state.regs c).map fun _ =>
    .app (.bin .add) [.symbol (.reg c),
      .bvNum (disp.signExtend 128 &&& (1#128 <<< 64 - 1)).toNat 64]

def movEffect : List Operand → Effect
  | [.reg name w, src] => regEffect name ((em.operandTerm src w).map fun t => widenTerm t w)
  | [.mem base disp w, src] =>
    memEffect (em.effectiveAddr base disp) w (em.operandTerm src w)
  | _ => .none

def movxTerm (signed : Bool) (w : Nat) (src : Operand) : Option ShadowTerm :=
  (em.operandTerm src (src.width.getD 8)).map (extendTerm signed (w - src.width.getD 8))

def movxEffect (signed : Bool) : List Operand → Effect
  | [.reg name w, src] => regEffect name ((em.movxTerm signed w src).map fun t => widenTerm t w)
  | _ => .none

def binopEffect (op : Binop) : List Operand → Effect
  | [.reg name w, src] =>
    regEffect name ((binopTerm op src w (em.operandTerm (.reg name w) w)
      (em.operandTerm src w)).map fun t => widenTerm t w)
  | _ => .none

def shiftEffect (shift : Shift) : List Operand → Effect
  | [.reg name w, src] =>
    regEffect name ((shiftTerm shift (em.operandTerm (.reg name w) w)
      (em.amountTerm src w)).map fun t => widenTerm t w)
  | _ => .none

def cmpEffect (isTest : Bool) : List Operand → Effect
  | [a, b] => .setCmp (em.compareTerm a b isTest)
  | _ => .none

def leaEffect : List Operand → Effect
  | [.reg name _, .mem base disp _] => regEffect name (em.leaTerm base disp)
  | _ => .none

def unsupportedEffect : List Operand → Effect
  | .reg name _ :: _ => regEffect name Option.none
  | _ => .none

def effect (family : Family) (ops : List Operand) : Effect :=
  match family with
  | .mov => em.movEffect ops
  | .movx signed => em.movxEffect signed ops
  | .binop op => em.binopEffect op ops
  | .shift shift => em.shiftEffect shift ops
  | .cmp isTest => em.cmpEffect isTest ops
  | .lea => em.leaEffect ops
  | .unsupported => unsupportedEffect ops

end ShadowEmulator

end Effects

section Realization

/-- The sides of a comparison stand for the terms. -/
structure RepresentsCmp (st : ShadowState) (dag : ExprDag) (c : LastCompare) (t : CompareTerm) :
    Prop where
  lhs : Represents st dag c.lhs t.lhs
  rhs : Represents st dag c.rhs t.rhs
  width : c.width = t.width
  isTest : c.isTest = t.isTest

/-- The registers, the bytes and the comparison after an effect. -/
def Effect.Outcome (em em' : ShadowEmulator) : Effect → Prop
  | .none => em'.state.regs = em.state.regs ∧ em'.state.memory = em.state.memory ∧
      em'.lastCmp = em.lastCmp
  | .setReg c t => em'.state.memory = em.state.memory ∧ em'.lastCmp = em.lastCmp ∧
      ∃ r, em'.state.regs = Function.update em.state.regs c r ∧ RepresentsOpt em.state em'.dag r t
  | .setMem addr count t => em'.state.regs = em.state.regs ∧ em'.lastCmp = em.lastCmp ∧
      (∀ i < count, RepresentsOpt em.state em'.dag (em'.state.memory (addr + BitVec.ofNat 64 i))
        (t.map fun t => byteTerm t i)) ∧
      ∀ a, (∀ i < count, a ≠ addr + BitVec.ofNat 64 i) →
        em'.state.memory a = em.state.memory a
  | .setCmp t => em'.state.regs = em.state.regs ∧ em'.state.memory = em.state.memory ∧
      Option.Rel (RepresentsCmp em.state em'.dag) em'.lastCmp t

structure Realizes (k : Nat) (em : ShadowEmulator) (eff : Effect) (em' : ShadowEmulator) : Prop where
  grows : em.dag.Grows k em'.dag
  inputBase : em'.inputBase = em.inputBase
  inputLen : em'.inputLen = em.inputLen
  outcome : eff.Outcome em em'

/-- The computation ends in a state that realizes the effect. -/
def Acts (k : Nat) (em : ShadowEmulator) (m : Shadow Unit) (eff : Effect) : Prop :=
  em.dag.Room k → ∀ u em', m em = some (u, em') → Realizes k em eff em'

variable {em : ShadowEmulator} {k l : Nat} {eff : Effect} {α : Type}

theorem Acts.bind {m : Shadow α} {f : α → Shadow Unit} {Q : ExprDag → α → Prop}
    (hm : Reads k em m Q)
    (hf : ∀ dag a, em.dag.Grows k dag → Q dag a → Acts l (em.withDag dag) (f a) eff) :
    Acts (k + l) em (m >>= f) eff := by
  intro hr u em'' h
  obtain ⟨⟨a, em'⟩, ha, hb⟩ := Option.bind_eq_some_iff.mp h
  obtain ⟨dag, rfl, hg, hq⟩ := hm (hr.mono (by omega)) a em' ha
  have hact := hf dag a hg hq (hg.room hr) u em'' hb
  exact ⟨hg.trans hact.grows, hact.inputBase, hact.inputLen, by cases eff <;> exact hact.outcome⟩

theorem Acts.mono {m : Shadow Unit} (h : Acts k em m eff) (hk : k ≤ l) : Acts l em m eff := by
  intro hr u em' hm
  have hact := h (hr.mono hk) u em' hm
  exact ⟨hact.grows.mono hk, hact.inputBase, hact.inputLen, hact.outcome⟩

theorem Acts.get_bind {f : ShadowEmulator → Shadow Unit} (h : Acts k em (f em) eff) :
    Acts k em (get >>= f) eff := h

theorem Acts.skip : Acts 0 em (pure ()) .none := by
  rintro hr u em' ⟨⟩
  exact ⟨.refl hr.built, rfl, rfl, rfl, rfl, rfl⟩

theorem writeReg64_acts (name : List Char) {r : Option NodeId} {t : Option ShadowTerm}
    (h : RepresentsOpt em.state em.dag r t) :
    Acts 0 em (writeReg64 name r) (regEffect name t) := by
  unfold writeReg64 regEffect
  cases canonicalReg name with
  | none => exact .skip
  | some c =>
    rintro hr u em' ⟨⟩
    exact ⟨.refl hr.built, rfl, rfl, rfl, rfl, r, rfl, h⟩

end Realization

section Memory
variable {em : ShadowEmulator}

/-- One step of the loop over the bytes of a store. -/
def writeByteOf (addr : BitVec 64) (value : Option NodeId) (i : Nat) : Shadow Unit := do
  let byte ← value.mapM fun v => intern (.extract (i * 8 + 7) (i * 8) v)
  let addr ← checked (checkedAdd addr (BitVec.ofNat 64 i))
  modify fun em => { em with state := em.state.writeByte addr byte }

theorem byte_reads {st : ShadowState} {value : Option NodeId} {t : Option ShadowTerm} {i : Nat}
    (hi : i < 8) (h : RepresentsOpt st em.dag value t) :
    Reads 1 em (value.mapM fun v => intern (.extract (i * 8 + 7) (i * 8) v)) fun dag r =>
      RepresentsOpt st dag r (t.map fun t => byteTerm t i) := by
  cases h with
  | none => exact (Reads.pure .none).mono (Nat.zero_le _)
  | some h =>
    have hu : ∀ n, ExprDag.U32 (.extract (i * 8 + 7) (i * 8) n) :=
      fun _ => ⟨by omega, by omega⟩
    exact (Reads.un rfl rfl (fun _ => rfl) (hu _) h).some

theorem writeByteOf_spec {st : ShadowState} {addr : BitVec 64} {value : Option NodeId}
    {t : Option ShadowTerm} {i : Nat} {u : Unit} {em' : ShadowEmulator} (hi : i < 8)
    (hr : em.dag.Room 1) (h : RepresentsOpt st em.dag value t)
    (hrun : writeByteOf addr value i em = some (u, em')) :
    em.dag.Grows 1 em'.dag ∧ ∃ r, RepresentsOpt st em'.dag r (t.map fun t => byteTerm t i) ∧
      em' = { em.withDag em'.dag with
        state := em.state.writeByte (addr + BitVec.ofNat 64 i) r } := by
  obtain ⟨⟨r, em₁⟩, hr₁, hrun⟩ := Option.bind_eq_some_iff.mp hrun
  obtain ⟨dag, rfl, hg, hrep⟩ := byte_reads hi h hr r em₁ hr₁
  obtain ⟨⟨a, em₂⟩, ha, hrun⟩ := Option.bind_eq_some_iff.mp hrun
  obtain ⟨a', ha', hpair⟩ := Option.map_eq_some_iff.mp ha
  cases hpair
  obtain ⟨rfl, -⟩ := checkedAdd_eq_some ha'
  cases hrun
  exact ⟨hg, r, hrep, rfl⟩

/-- Bytes of one access have different addresses. -/
theorem addr_inj {addr : BitVec 64} {i j : Nat} (hi : i < 8) (hj : j < 8)
    (h : addr + BitVec.ofNat 64 i = addr + BitVec.ofNat 64 j) : i = j := by
  have := congrArg BitVec.toNat ((BitVec.add_right_inj addr).mp h)
  rw [BitVec.toNat_ofNat, BitVec.toNat_ofNat, Nat.mod_eq_of_lt (by omega),
    Nat.mod_eq_of_lt (by omega)] at this
  exact this

/-- The loop writes the bytes of its indices and nothing else. -/
theorem writeLoop_spec {st : ShadowState} {addr : BitVec 64} {value : Option NodeId}
    {t : Option ShadowTerm} {is : List Nat} {u : Unit} {em' : ShadowEmulator}
    (his : ∀ i ∈ is, i < 8) (hr : em.dag.Room is.length) (h : RepresentsOpt st em.dag value t)
    (hrun : is.forM (writeByteOf addr value) em = some (u, em')) :
    em.dag.Grows is.length em'.dag ∧ em'.inputBase = em.inputBase ∧ em'.inputLen = em.inputLen ∧
      em'.state.regs = em.state.regs ∧ em'.lastCmp = em.lastCmp ∧
      (∀ i ∈ is, RepresentsOpt st em'.dag (em'.state.memory (addr + BitVec.ofNat 64 i))
        (t.map fun t => byteTerm t i)) ∧
      ∀ a, (∀ i ∈ is, a ≠ addr + BitVec.ofNat 64 i) → em'.state.memory a = em.state.memory a := by
  induction is generalizing em with
  | nil =>
    cases hrun
    exact ⟨.refl hr.built, rfl, rfl, rfl, rfl, by simp, fun _ _ => rfl⟩
  | cons i is ih =>
    obtain ⟨⟨u₁, em₁⟩, hstep, hrest⟩ := Option.bind_eq_some_iff.mp hrun
    rw [List.length_cons, Nat.add_comm] at hr
    obtain ⟨hg, r, hrep, hem⟩ := writeByteOf_spec (his i (by simp)) (hr.mono (by omega)) h hstep
    obtain ⟨hg', hbase, hlen, hregs, hcmp, hbytes, hother⟩ :=
      ih (fun j hj => his j (by simp [hj])) (hg.room hr) (h.grow hg) hrest
    have hmem : em₁.state.memory =
        Function.update em.state.memory (addr + BitVec.ofNat 64 i) r := by
      rw [hem]
      rfl
    refine ⟨by rw [List.length_cons, Nat.add_comm]; exact hg.trans hg', ?_, ?_, ?_, ?_, ?_, ?_⟩
    · rw [hbase, hem]
      rfl
    · rw [hlen, hem]
      rfl
    · rw [hregs, hem]
      rfl
    · rw [hcmp, hem]
      rfl
    · intro j hj
      by_cases hmemj : j ∈ is
      · exact hbytes j hmemj
      · obtain rfl | hj := List.mem_cons.mp hj
        · have hne : ∀ k ∈ is, addr + BitVec.ofNat 64 j ≠ addr + BitVec.ofNat 64 k := by
            intro k hk heq
            cases addr_inj (his j (by simp)) (his k (by simp [hk])) heq
            exact hmemj hk
          rw [hother _ hne, hmem, Function.update_self]
          exact hrep.grow hg'
        · exact absurd hj hmemj
    · intro a ha
      rw [hother a fun j hj => ha j (by simp [hj]), hmem,
        Function.update_of_ne (ha i (by simp))]

theorem writeMemoryRegion_acts (base : Option (List Char)) (disp : BitVec 64) {width : Nat}
    (hw : width ≤ 64) {value : Option NodeId} {t : Option ShadowTerm}
    (h : RepresentsOpt em.state em.dag value t) :
    Acts 8 em (writeMemoryRegion base disp width value)
      (memEffect (em.effectiveAddr base disp) width t) := by
  unfold writeMemoryRegion memEffect
  by_cases hskip : width = 0 ∨ width % 8 ≠ 0
  · rw [if_pos hskip, if_pos hskip]
    exact Acts.skip.mono (Nat.zero_le _)
  · rw [if_neg hskip, if_neg hskip]
    refine Acts.get_bind fun hr u em' hrun => ?_
    have hlen : (List.range (width / 8)).length ≤ 8 := by
      rw [List.length_range]
      omega
    obtain ⟨hg, hbase, hinput, hregs, hcmp, hbytes, hother⟩ := writeLoop_spec
      (fun i hi => by have := List.mem_range.mp hi; omega) (hr.mono hlen) h hrun
    exact ⟨hg.mono hlen, hbase, hinput, hregs, hcmp, fun i hi => hbytes i (List.mem_range.mpr hi),
      fun a ha => hother a fun i hi => ha i (List.mem_range.mp hi)⟩

end Memory

section Handlers
variable {em : ShadowEmulator}

theorem width_le_of_wellFormed {op : Operand} (h : op.WellFormed) {w : Nat} (hw : op.width = some w) :
    w ≤ 64 := by
  have := h.width_mem hw
  simp only [List.mem_cons, List.not_mem_nil, or_false] at this
  omega

theorem cmpWidth_le {a b : Operand} (ha : a.WellFormed) (hb : b.WellFormed) : cmpWidth a b ≤ 64 := by
  unfold cmpWidth
  split
  · rename_i wa wb hwa hwb
    have := width_le_of_wellFormed ha hwa
    omega
  · exact width_le_of_wellFormed ha ‹_›
  · exact width_le_of_wellFormed hb ‹_›
  · decide

theorem stepMov_acts (hv : em.Valid) {ops : List Operand} (hops : ∀ op ∈ ops, op.WellFormed) :
    Acts 64 em (stepMov ops) (em.movEffect ops) := by
  unfold stepMov
  split
  · rename_i name w src
    have hw : w ≤ 64 := width_le_of_wellFormed (hops (.reg name w) (by simp)) rfl
    refine (Acts.bind (l := 1) (readOperand_reads hv src hw) fun dag r hg hr => ?_).mono
      (by decide)
    exact Acts.bind (l := 0) (widenTo64_reads w hr) fun dag' r' hg' hr' => writeReg64_acts name hr'
  · rename_i base disp w src
    have hw : w ≤ 64 := width_le_of_wellFormed (hops (.mem base disp w) (by simp)) rfl
    refine (Acts.bind (l := 8) (readOperand_reads hv src hw) fun dag r hg hr => ?_).mono
      (by decide)
    exact writeMemoryRegion_acts base disp hw hr
  · rename_i hreg hmem
    rw [ShadowEmulator.movEffect]
    · exact Acts.skip.mono (Nat.zero_le _)
    · exact hreg
    · exact hmem

theorem extendBy_reads {st : ShadowState} {r : Option NodeId} {t : Option ShadowTerm} (signed : Bool)
    {extra : Nat} (he : extra ≤ 64) (h : RepresentsOpt st em.dag r t) :
    Reads 1 em (extendBy extra signed r) fun dag r =>
      RepresentsOpt st dag r (t.map (extendTerm signed extra)) := by
  cases h with
  | none => exact (Reads.pure .none).mono (Nat.zero_le _)
  | some h =>
    simp only [extendBy, Option.map_some, extendTerm]
    by_cases hpos : extra > 0
    · simp only [if_pos hpos]
      have hu : ∀ n, ExprDag.U32 (.signExt extra n) ∧ ExprDag.U32 (.zeroExt extra n) := by
        intro n
        simp only [ExprDag.U32]
        omega
      cases signed with
      | true => exact (Reads.un rfl rfl (fun _ => rfl) (hu _).1 h).some
      | false => exact (Reads.un rfl rfl (fun _ => rfl) (hu _).2 h).some
    · simp only [if_neg hpos]
      exact (Reads.pure (.some h)).mono (Nat.zero_le _)

theorem stepMovzxOrSx_acts (hv : em.Valid) {ops : List Operand} (hops : ∀ op ∈ ops, op.WellFormed)
    (signed : Bool) : Acts 64 em (stepMovzxOrSx ops signed) (em.movxEffect signed ops) := by
  unfold stepMovzxOrSx
  split
  · rename_i name w src
    have hw : w ≤ 64 := width_le_of_wellFormed (hops (.reg name w) (by simp)) rfl
    have hsrc : src.width.getD 8 ≤ 64 := by
      cases h : src.width with
      | none => decide
      | some w => exact width_le_of_wellFormed (hops src (by simp)) h
    refine (Acts.bind (l := 2) (readOperand_reads hv src hsrc) fun dag r hg hr => ?_).mono
      (by decide)
    refine Acts.bind (l := 1) (extendBy_reads signed (Nat.sub_le_of_le_add (by omega)) hr) fun dag₁ r₁ hg₁ hr₁ => ?_
    exact Acts.bind (l := 0) (widenTo64_reads w hr₁) fun dag₂ r₂ hg₂ hr₂ => writeReg64_acts name hr₂
  · rename_i hreg
    rw [ShadowEmulator.movxEffect]
    · exact Acts.skip.mono (Nat.zero_le _)
    · exact hreg

theorem binopResult_reads {st : ShadowState} (op : Binop) (src : Operand) {w : Nat} (hw : w ≤ 64)
    {lhs rhs : Option NodeId} {l r : Option ShadowTerm} (hl : RepresentsOpt st em.dag lhs l)
    (hr : RepresentsOpt st em.dag rhs r) : Reads 2 em (binopResult op src w lhs rhs) fun dag n =>
      RepresentsOpt st dag n (binopTerm op src w l r) := by
  have hop : ∀ {em : ShadowEmulator} {a b : NodeId} {t u : ShadowTerm},
      Represents st em.dag a t → Represents st em.dag b u →
      Reads 1 em (some <$> intern (op.toExpr a b)) fun dag n =>
        RepresentsOpt st dag n (some (.app (.bin op.op) [t, u])) := by
    intro em a b t u ha hb
    obtain ⟨ho, hc, hbw, hu⟩ := op.toExpr_op a b
    exact (Reads.bin ho hc hbw hu ha hb).some
  have hone : ∀ {n : NodeId} {t : ShadowTerm} (v : BitVec 64), Represents st em.dag n t →
      Reads 2 em (intern (.bvConst (v.setWidth 128) w) >>= fun cv =>
        some <$> intern (op.toExpr n cv)) fun dag r =>
          RepresentsOpt st dag r (some (.app (.bin op.op) [t, .bvNum (v.setWidth 128).toNat w])) := by
    intro n t v hn
    have hw' : w < 2 ^ 32 := by omega
    exact Reads.bind (k := 1) (l := 1) (Reads.num st hw') fun dag c hg hc => hop (hn.grow hg) hc
  cases hl with
  | none =>
    cases hr with
    | none => exact (Reads.pure .none).mono (Nat.zero_le _)
    | some h =>
      cases src with
      | imm v => exact hone v h
      | reg | mem => exact (Reads.pure .none).mono (Nat.zero_le _)
  | some h =>
    cases hr with
    | none =>
      cases src with
      | imm v => exact hone v h
      | reg | mem => exact (Reads.pure .none).mono (Nat.zero_le _)
    | some h' => exact (hop h h').mono (by decide)

theorem stepBinop_acts (hv : em.Valid) {ops : List Operand} (hops : ∀ op ∈ ops, op.WellFormed)
    (op : Binop) : Acts 64 em (stepBinop ops op) (em.binopEffect op ops) := by
  unfold stepBinop
  split
  · rename_i name w src
    have hw : w ≤ 64 := width_le_of_wellFormed (hops (.reg name w) (by simp)) rfl
    refine (Acts.bind (l := 28) (readOperand_reads hv (.reg name w) hw) fun dag r hg hr => ?_).mono
      (by decide)
    refine Acts.bind (l := 3) (readOperand_reads (hv.grow hg) src hw) fun dag₁ r₁ hg₁ hr₁ => ?_
    refine Acts.bind (l := 1) (binopResult_reads op src hw (hr.grow hg₁) hr₁)
      fun dag₂ r₂ hg₂ hr₂ => ?_
    exact Acts.bind (l := 0) (widenTo64_reads w hr₂) fun dag₃ r₃ hg₃ hr₃ => writeReg64_acts name hr₃
  · rename_i hreg
    rw [ShadowEmulator.binopEffect]
    · exact Acts.skip.mono (Nat.zero_le _)
    · exact hreg

theorem shiftAmount_reads (hv : em.Valid) (src : Operand) {w : Nat} (hw : w ≤ 64) :
    Reads 25 em (shiftAmount src w) fun dag r =>
      RepresentsOpt em.state dag r (em.amountTerm src w) := by
  cases src with
  | imm v =>
    exact (Reads.num em.state (by omega)).some.mono (by decide)
  | reg name width => exact readOperand_reads hv (.reg name width) hw
  | mem => exact (Reads.pure .none).mono (Nat.zero_le _)

theorem shiftResult_reads {st : ShadowState} (shift : Shift) {lhs amount : Option NodeId}
    {l a : Option ShadowTerm} (hl : RepresentsOpt st em.dag lhs l)
    (ha : RepresentsOpt st em.dag amount a) : Reads 1 em (shiftResult shift lhs amount) fun dag r =>
      RepresentsOpt st dag r (shiftTerm shift l a) := by
  cases hl with
  | none => exact (Reads.pure .none).mono (Nat.zero_le _)
  | some hl =>
    cases ha with
    | none => exact (Reads.pure .none).mono (Nat.zero_le _)
    | some ha =>
      obtain ⟨ho, hc, hbw, hu⟩ := shift.toExpr_op _ _
      exact (Reads.bin ho hc hbw hu hl ha).some

theorem stepShift_acts (hv : em.Valid) {ops : List Operand} (hops : ∀ op ∈ ops, op.WellFormed)
    (shift : Shift) : Acts 64 em (stepShift ops shift) (em.shiftEffect shift ops) := by
  unfold stepShift
  split
  · rename_i name w src
    have hw : w ≤ 64 := width_le_of_wellFormed (hops (.reg name w) (by simp)) rfl
    refine (Acts.bind (l := 27) (readOperand_reads hv (.reg name w) hw) fun dag l hg hl => ?_).mono
      (by decide)
    refine Acts.bind (l := 2) (shiftAmount_reads (hv.grow hg) src hw) fun dag₁ a hg₁ ha => ?_
    refine Acts.bind (l := 1) (shiftResult_reads shift (hl.grow hg₁) ha) fun dag₂ r₂ hg₂ hr₂ => ?_
    exact Acts.bind (l := 0) (widenTo64_reads w hr₂) fun dag₃ r₃ hg₃ hr₃ => writeReg64_acts name hr₃
  · rename_i hreg
    rw [ShadowEmulator.shiftEffect]
    · exact Acts.skip.mono (Nat.zero_le _)
    · exact hreg

theorem sideOrLiteral_reads {st : ShadowState} (op : Operand) {w : Nat} (hw : w ≤ 64)
    {r : Option NodeId} {t : Option ShadowTerm} (h : RepresentsOpt st em.dag r t) :
    Reads 1 em (sideOrLiteral op r w) fun dag n => Represents st dag n (sideTerm op t w) := by
  cases h with
  | none => exact Reads.num st (by omega)
  | some h => exact (Reads.pure h).mono (Nat.zero_le _)

theorem setCmp_acts {st : ShadowState} {c : Option LastCompare} {t : Option CompareTerm}
    (hst : st = em.state) (h : Option.Rel (RepresentsCmp st em.dag) c t) :
    Acts 0 em (modify fun em => { em with lastCmp := c }) (.setCmp t) := by
  rintro hr u em' ⟨⟩
  exact ⟨.refl hr.built, rfl, rfl, rfl, rfl, hst ▸ h⟩

theorem stepCmp_acts (hv : em.Valid) {ops : List Operand} (hops : ∀ op ∈ ops, op.WellFormed)
    (isTest : Bool) : Acts 64 em (stepCmp ops isTest) (em.cmpEffect isTest ops) := by
  unfold stepCmp
  split
  · rename_i a b
    have hw : cmpWidth a b ≤ 64 := cmpWidth_le (hops a (by simp)) (hops b (by simp))
    refine (Acts.bind (l := 29) (readOperand_reads hv a hw) fun dag l hg hl => ?_).mono (by decide)
    refine Acts.bind (l := 4) (readOperand_reads (hv.grow hg) b hw) fun dag₁ r hg₁ hr => ?_
    have hl₁ := hl.grow hg₁
    rw [ShadowEmulator.cmpEffect, ShadowEmulator.compareTerm]
    simp only [hl₁.isSome_eq, hr.isSome_eq, operandTerm_withDag]
    by_cases hsym : ¬ (a.isLocation ∧ (em.operandTerm a (cmpWidth a b)).isSome) ∧
        ¬ (b.isLocation ∧ (em.operandTerm b (cmpWidth a b)).isSome)
    · rw [if_pos hsym, if_pos hsym]
      exact (setCmp_acts rfl .none).mono (Nat.zero_le _)
    · rw [if_neg hsym, if_neg hsym]
      refine Acts.bind (l := 3) (sideOrLiteral_reads a hw hl₁) fun dag₂ ln hg₂ hln => ?_
      refine Acts.bind (l := 2) (sideOrLiteral_reads b hw (hr.grow hg₂)) fun dag₃ rn hg₃ hrn => ?_
      have hln₃ := hln.grow hg₃
      cases isTest with
      | true =>
        refine Acts.bind (l := 1) (Reads.bin rfl rfl (fun _ => rfl) trivial hln₃ hrn)
          fun dag₄ n hg₄ hn => ?_
        refine Acts.bind (l := 0) (Reads.num em.state (by omega)) fun dag₅ z hg₅ hz => ?_
        have hcmp : RepresentsCmp em.state dag₅ ⟨n, z, cmpWidth a b, true⟩
            (testTerm (cmpWidth a b) (sideTerm a (em.operandTerm a (cmpWidth a b)) (cmpWidth a b))
              (sideTerm b (em.operandTerm b (cmpWidth a b)) (cmpWidth a b)) true) :=
          ⟨hn.grow hg₅, hz, rfl, rfl⟩
        exact setCmp_acts rfl (.some hcmp)
      | false =>
        have hcmp : RepresentsCmp em.state dag₃ ⟨ln, rn, cmpWidth a b, false⟩
            (testTerm (cmpWidth a b) (sideTerm a (em.operandTerm a (cmpWidth a b)) (cmpWidth a b))
              (sideTerm b (em.operandTerm b (cmpWidth a b)) (cmpWidth a b)) false) :=
          ⟨hln₃, hrn, rfl, rfl⟩
        exact (setCmp_acts rfl (.some hcmp)).mono (Nat.zero_le _)
  · rename_i hpair
    rw [ShadowEmulator.cmpEffect]
    · exact Acts.skip.mono (Nat.zero_le _)
    · exact hpair

theorem stepLea_acts (hv : em.Valid) (ops : List Operand) :
    Acts 64 em (stepLea ops) (em.leaEffect ops) := by
  unfold stepLea
  split
  · rename_i name w base disp w'
    refine Acts.get_bind ?_
    rw [ShadowEmulator.leaEffect, ShadowEmulator.leaTerm]
    cases hc : base.bind canonicalReg with
    | none => exact (writeReg64_acts name .none).mono (Nat.zero_le _)
    | some c =>
      rw [Option.bind_some, Option.bind_some]
      cases hb : em.state.regs c with
      | none => exact (writeReg64_acts name .none).mono (Nat.zero_le _)
      | some b =>
        refine (Acts.bind (l := 1) (Reads.num em.state (by decide)) fun dag d hg hd => ?_).mono
          (by decide)
        have hrep : Represents em.state dag b (.symbol (.reg c)) :=
          .reg hb (hg.lt (hv.regs c b hb))
        refine Acts.bind (l := 0) (Reads.bin rfl rfl (fun _ => rfl) trivial hrep hd)
          fun dag₁ n hg₁ hn => writeReg64_acts name (.some hn)
  · rename_i hlea
    rw [ShadowEmulator.leaEffect]
    · exact Acts.skip.mono (Nat.zero_le _)
    · exact hlea

theorem stepUnsupported_acts (ops : List Operand) :
    Acts 64 em (stepUnsupported ops) (ShadowEmulator.unsupportedEffect ops) := by
  unfold stepUnsupported
  split
  · rename_i name w rest
    rw [ShadowEmulator.unsupportedEffect, regEffect]
    cases hc : canonicalReg name with
    | none => exact Acts.skip.mono (Nat.zero_le _)
    | some c =>
      refine Acts.mono (k := 0) ?_ (Nat.zero_le _)
      rintro hr u em' ⟨⟩
      dsimp only
      by_cases hsym : (em.state.regs c).isSome
      · rw [if_pos hsym]
        exact ⟨.refl hr.built, rfl, rfl, rfl, rfl, none, rfl, .none⟩
      · rw [if_neg hsym]
        have hsame : em.state.regs = Function.update em.state.regs c none := by
          rw [← Option.not_isSome_iff_eq_none.mp hsym, Function.update_eq_self]
        exact ⟨.refl hr.built, rfl, rfl, rfl, rfl, none, hsame, .none⟩
  · rename_i hreg
    rw [ShadowEmulator.unsupportedEffect]
    · exact Acts.skip.mono (Nat.zero_le _)
    · exact hreg

/-- Every handler realizes the effect of its family. -/
theorem stepFamily_acts (hv : em.Valid) (family : Family) {ops : List Operand}
    (hops : ∀ op ∈ ops, op.WellFormed) :
    Acts 64 em (stepFamily family ops) (em.effect family ops) := by
  cases family with
  | mov => exact stepMov_acts hv hops
  | movx signed => exact stepMovzxOrSx_acts hv hops signed
  | binop op => exact stepBinop_acts hv hops op
  | shift shift => exact stepShift_acts hv hops shift
  | cmp isTest => exact stepCmp_acts hv hops isTest
  | lea => exact stepLea_acts hv ops
  | unsupported => exact stepUnsupported_acts ops

end Handlers

end Axe.Concolic
