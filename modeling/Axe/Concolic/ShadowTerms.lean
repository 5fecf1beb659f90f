import Axe.Concolic.ShadowEmulator
import Axe.Concolic.Interning
import Axe.Lib.SmtScript

/-!
# Terms over the shadow state

What the emulator reads, as SMT-LIB terms over registers, bytes of memory and
bytes of the input. Reading an operand only adds nodes, and the node it returns
represents the term of the operand.
-/
namespace Axe.Concolic

open Smt (SmtSort Term)
open X86 (Reg)
open Shadow (intern internSymbol checked)

/-- Where a symbolic value comes from. -/
inductive Loc where
  | reg (r : Reg)
  | byte (addr : BitVec 64)
  | input (index : Nat)
  deriving DecidableEq, Repr

def Loc.sort : Loc → SmtSort
  | .reg _ => .bv 64
  | .byte _ | .input _ => .bv 8

abbrev ShadowTerm := Term Loc

section Terms

/-- The bytes of a region, as `concatBytes` puts them together. -/
def concatTerm (byte : Nat → Option ShadowTerm) : List Nat → Option ShadowTerm → Option ShadowTerm
  | [], acc => acc
  | i :: is, acc =>
    match byte i, acc with
    | none, _ => none
    | some b, none => concatTerm byte is (some b)
    | some b, some low => concatTerm byte is (some (.app .concat [b, low]))

def narrowTerm (t : ShadowTerm) (wantWidth : Nat) (isAh : Bool) : ShadowTerm :=
  if isAh then .app (.extract 15 8) [t]
  else if 64 ≤ wantWidth then t
  else .app (.extract (wantWidth - 1) 0) [t]

def widenTerm (t : ShadowTerm) (width : Nat) : ShadowTerm :=
  if 64 ≤ width then t else .app (.zeroExtend (64 - width)) [t]

def immTerm (v : BitVec 64) (width : Nat) : ShadowTerm :=
  .bvNum (v.setWidth 128 &&& immMask (min width 127)).toNat width

def inputTerm (start : BitVec 32) (count : Nat) : Option ShadowTerm :=
  concatTerm (fun i => some (.symbol (.input (start.toNat + i)))) (List.range count) none

namespace ShadowEmulator
variable (em : ShadowEmulator)

def bytesTerm (addr : BitVec 64) (count : Nat) : Option ShadowTerm :=
  concatTerm (fun i => (em.state.memory (addr + BitVec.ofNat 64 i)).map fun _ =>
    .symbol (.byte (addr + BitVec.ofNat 64 i))) (List.range count) none

/-- The term of a memory access, when the region is symbolic. -/
def regionTerm (base : Option (List Char)) (disp : BitVec 64) (widthBits : Nat) :
    Option ShadowTerm :=
  let addr := em.effectiveAddr base disp
  if widthBits = 0 ∨ widthBits % 8 ≠ 0 ∨ ¬ em.baseConcrete base then none
  else if em.inInput addr (widthBits / 8) = some true then
    inputTerm ((addr - em.inputBase).setWidth 32) (widthBits / 8)
  else em.bytesTerm addr (widthBits / 8)

/-- The term of an operand, unless it is concrete. -/
def operandTerm (op : Operand) (wantWidth : Nat) : Option ShadowTerm :=
  match op with
  | .imm v => some (immTerm v wantWidth)
  | .reg name _ =>
    (canonicalReg name).bind fun c =>
      (em.state.regs c).map fun _ => narrowTerm (.symbol (.reg c)) wantWidth (name = "ah".toList)
  | .mem base disp width =>
    (em.regionTerm base disp (min width wantWidth)).map fun t => narrowTerm t wantWidth false

end ShadowEmulator

end Terms

section Representation
variable {st : ShadowState} {dag dag' : ExprDag} {n : NodeId} {t : ShadowTerm}

/-- A node of the DAG that stands for a term over a shadow state. -/
inductive Represents (st : ShadowState) (dag : ExprDag) : NodeId → ShadowTerm → Prop
  | reg {r : Reg} {n : NodeId} : st.regs r = some n → n < dag.len →
      Represents st dag n (.symbol (.reg r))
  | byte {a : BitVec 64} {n : NodeId} : st.memory a = some n → n < dag.len →
      Represents st dag n (.symbol (.byte a))
  | input {i : Nat} {n : NodeId} {v : SymbolId} : dag.tryGet n = some (.var v (.bv 8)) →
      dag.symbolName v = some s!"input_b{i}" → Represents st dag n (.symbol (.input i))
  | num {n : NodeId} {value : BitVec 128} {bits : Nat} :
      dag.tryGet n = some (.bvConst value bits) → Represents st dag n (.bvNum value.toNat bits)
  | un {n a : NodeId} {e : Expr} {o : Smt.Op} {t : ShadowTerm} : dag.tryGet n = some e →
      e.op = some o → childrenOf e = [a] → (∀ s, e.byteWide s = true) → Represents st dag a t →
      Represents st dag n (.app o [t])
  | bin {n a b : NodeId} {e : Expr} {o : Smt.Op} {t u : ShadowTerm} : dag.tryGet n = some e →
      e.op = some o → childrenOf e = [a, b] → (∀ s, e.byteWide s = true) →
      Represents st dag a t → Represents st dag b u → Represents st dag n (.app o [t, u])

theorem Represents.lt (h : Represents st dag n t) : n < dag.len := by
  cases h with
  | reg _ hn | byte _ hn => exact hn
  | input he _ | num he | un he _ _ _ _ | bin he _ _ _ _ _ => exact ExprDag.lt_of_tryGet he

theorem Represents.grow {k : Nat} (hg : dag.Grows k dag') (h : Represents st dag n t) :
    Represents st dag' n t := by
  induction h with
  | reg hr hn => exact .reg hr (hg.lt hn)
  | byte hr hn => exact .byte hr (hg.lt hn)
  | input he hn => exact .input (hg.keeps _ _ he) (hg.names _ _ hn)
  | num he => exact .num (hg.keeps _ _ he)
  | un he ho hc hw _ ih => exact .un (hg.keeps _ _ he) ho hc hw ih
  | bin he ho hc hw _ _ ih₁ ih₂ => exact .bin (hg.keeps _ _ he) ho hc hw ih₁ ih₂

/-- A value that is symbolic exactly where its term is there. -/
abbrev RepresentsOpt (st : ShadowState) (dag : ExprDag) :
    Option NodeId → Option ShadowTerm → Prop := Option.Rel (Represents st dag)

theorem RepresentsOpt.grow {k : Nat} {r : Option NodeId} {t : Option ShadowTerm}
    (hg : dag.Grows k dag') (h : RepresentsOpt st dag r t) : RepresentsOpt st dag' r t := by
  cases h with
  | none => exact .none
  | some h => exact .some (h.grow hg)

theorem RepresentsOpt.isSome_eq {r : Option NodeId} {t : Option ShadowTerm}
    (h : RepresentsOpt st dag r t) : r.isSome = t.isSome := by
  cases h <;> rfl

end Representation

/-- Every stored id is an id of the DAG. -/
structure ShadowEmulator.Valid (em : ShadowEmulator) : Prop where
  regs : ∀ r n, em.state.regs r = some n → n < em.dag.len
  memory : ∀ a n, em.state.memory a = some n → n < em.dag.len
  lastCmp : ∀ c, em.lastCmp = some c → c.lhs < em.dag.len ∧ c.rhs < em.dag.len

def ShadowEmulator.withDag (em : ShadowEmulator) (dag : ExprDag) : ShadowEmulator :=
  { em with dag := dag }

@[simp] theorem withDag_dag (em : ShadowEmulator) (dag : ExprDag) : (em.withDag dag).dag = dag := rfl
@[simp] theorem withDag_state (em : ShadowEmulator) (dag : ExprDag) :
    (em.withDag dag).state = em.state := rfl

@[simp] theorem operandTerm_withDag (em : ShadowEmulator) (dag : ExprDag) (op : Operand) (w : Nat) :
    (em.withDag dag).operandTerm op w = em.operandTerm op w := rfl

theorem ShadowEmulator.Valid.grow {em : ShadowEmulator} {dag : ExprDag} {k : Nat} (h : em.Valid)
    (hg : em.dag.Grows k dag) : (em.withDag dag).Valid :=
  ⟨fun r n hr => hg.lt (h.regs r n hr), fun a n ha => hg.lt (h.memory a n ha),
    fun c hc => ⟨hg.lt (h.lastCmp c hc).1, hg.lt (h.lastCmp c hc).2⟩⟩

section Logic
variable {α β : Type} {em : ShadowEmulator} {k l : Nat} {m : Shadow α} {f : α → Shadow β}
  {Q : ExprDag → α → Prop} {R : ExprDag → β → Prop}

/-- The computation adds at most `k` nodes and symbols and changes nothing else. -/
def Reads (k : Nat) (em : ShadowEmulator) (m : Shadow α) (Q : ExprDag → α → Prop) : Prop :=
  em.dag.Room k → ∀ a em', m em = some (a, em') →
    ∃ dag, em' = em.withDag dag ∧ em.dag.Grows k dag ∧ Q dag a

theorem Reads.pure {a : α} (h : Q em.dag a) : Reads 0 em (pure a) Q := by
  rintro hr a' em' ⟨⟩
  exact ⟨em.dag, rfl, .refl hr.built, h⟩

theorem Reads.bind (hm : Reads k em m Q)
    (hf : ∀ dag a, em.dag.Grows k dag → Q dag a → Reads l (em.withDag dag) (f a) R) :
    Reads (k + l) em (m >>= f) R := by
  intro hr b em'' h
  obtain ⟨⟨a, em'⟩, ha, hb⟩ := Option.bind_eq_some_iff.mp h
  obtain ⟨dag, rfl, hg, hq⟩ := hm (hr.mono (by omega)) a em' ha
  obtain ⟨dag', rfl, hg', hR⟩ := hf dag a hg hq (hg.room hr) b em'' hb
  exact ⟨dag', rfl, hg.trans hg', hR⟩

theorem Reads.mono (h : Reads k em m Q) (hk : k ≤ l) : Reads l em m Q := by
  intro hr a em' hm
  obtain ⟨dag, rfl, hg, hq⟩ := h (hr.mono hk) a em' hm
  exact ⟨dag, rfl, hg.mono hk, hq⟩

theorem Reads.get_bind {f : ShadowEmulator → Shadow β} (h : Reads k em (f em) R) :
    Reads k em (get >>= f) R := h

theorem Reads.checked_bind {o : Option α} (h : ∀ a, o = some a → Reads k em (f a) R) :
    Reads k em (checked o >>= f) R := by
  intro hr b em' hm
  obtain ⟨⟨a, em''⟩, ha, hb⟩ := Option.bind_eq_some_iff.mp hm
  obtain ⟨a', rfl, ha'⟩ := Option.map_eq_some_iff.mp ha
  cases ha'
  exact h a rfl hr b em' hb

theorem Reads.intern {e : Expr} {Q : ExprDag → NodeId → Prop}
    (hc : ∀ c ∈ childrenOf e, c < em.dag.len) (hu : ExprDag.U32 e)
    (hQ : ∀ dag n, em.dag.Grows 1 dag → dag.tryGet n = some e → Q dag n) :
    Reads 1 em (intern e) Q := by
  rintro hr n em' ⟨⟩
  obtain ⟨hg, he⟩ := hr.intern hc hu
  exact ⟨_, rfl, hg, hQ _ _ hg he⟩

theorem Reads.internSymbol {name : String} :
    Reads 1 em (internSymbol name) fun dag v => dag.symbolName v = some name ∧ v < 2 ^ 32 := by
  rintro hr v em' ⟨⟩
  obtain ⟨hg, hv⟩ := hr.internSymbol
  exact ⟨_, rfl, hg, hv⟩

/-- A unary operator over a node that stands for a term. -/
theorem Reads.un {st : ShadowState} {e : Expr} {a : NodeId} {o : Smt.Op} {t : ShadowTerm}
    (ho : e.op = some o) (hc : childrenOf e = [a]) (hw : ∀ s, e.byteWide s = true)
    (hu : ExprDag.U32 e) (ha : Represents st em.dag a t) :
    Reads 1 em (Shadow.intern e) fun dag n => Represents st dag n (.app o [t]) := by
  refine Reads.intern (by simpa [hc] using ha.lt) hu fun dag n hg he => ?_
  exact .un he ho hc hw (ha.grow hg)

theorem Reads.bin {st : ShadowState} {e : Expr} {a b : NodeId} {o : Smt.Op} {t u : ShadowTerm}
    (ho : e.op = some o) (hc : childrenOf e = [a, b]) (hw : ∀ s, e.byteWide s = true)
    (hu : ExprDag.U32 e) (ha : Represents st em.dag a t) (hb : Represents st em.dag b u) :
    Reads 1 em (Shadow.intern e) fun dag n => Represents st dag n (.app o [t, u]) := by
  refine Reads.intern (by simpa [hc] using ⟨ha.lt, hb.lt⟩) hu fun dag n hg he => ?_
  exact .bin he ho hc hw (ha.grow hg) (hb.grow hg)

theorem Reads.num (st : ShadowState) {value : BitVec 128} {bits : Nat} (hb : bits < 2 ^ 32) :
    Reads 1 em (Shadow.intern (.bvConst value bits)) fun dag n =>
      Represents st dag n (.bvNum value.toNat bits) :=
  Reads.intern (by simp [childrenOf]) hb fun _ _ _ he => .num he

theorem Reads.some {st : ShadowState} {m : Shadow NodeId} {t : ShadowTerm}
    (h : Reads k em m fun dag n => Represents st dag n t) :
    Reads k em (some <$> m) fun dag r => RepresentsOpt st dag r (some t) := by
  intro hr r em' hm
  obtain ⟨⟨n, em''⟩, hn, hpair⟩ := Option.bind_eq_some_iff.mp hm
  cases hpair
  obtain ⟨dag, rfl, hg, hrep⟩ := h hr n em' hn
  exact ⟨dag, rfl, hg, .some hrep⟩

end Logic

section Operands
variable {em : ShadowEmulator} {dag : ExprDag} {k : Nat}

theorem inputByteVar_reads (st : ShadowState) (index : BitVec 32) :
    Reads 2 em (inputByteVar index) fun dag n =>
      Represents st dag n (.symbol (.input index.toNat)) := by
  refine Reads.bind (k := 1) (l := 1) Reads.internSymbol fun dag v hg hv => ?_
  refine Reads.intern (by simp [childrenOf]) ⟨hv.2, by decide⟩ fun dag' n hg' he => ?_
  exact .input he (hg'.names _ _ hv.1)

/-- The loop over the bytes of a region. -/
theorem concatBytes_reads {byte : Nat → Shadow (Option NodeId)}
    {byteTerm : Nat → Option ShadowTerm} {is : List Nat} {acc : Option NodeId}
    {accTerm : Option ShadowTerm}
    (hbyte : ∀ i ∈ is, ∀ dag j, em.dag.Grows j dag → Reads k (em.withDag dag) (byte i) fun dag' r =>
      RepresentsOpt em.state dag' r (byteTerm i))
    (hg : ∃ j, em.dag.Grows j dag) (hacc : RepresentsOpt em.state dag acc accTerm) :
    Reads ((k + 1) * is.length) (em.withDag dag) (concatBytes byte is acc) fun dag' r =>
      RepresentsOpt em.state dag' r (concatTerm byteTerm is accTerm) := by
  induction is generalizing dag acc accTerm with
  | nil => exact Reads.pure hacc
  | cons i is ih =>
    obtain ⟨j, hg⟩ := hg
    have ih := fun {dag} {acc} {accTerm} => @ih dag acc accTerm fun i hi => hbyte i (by simp [hi])
    have hk : (k + 1) * (i :: is).length = k + (1 + (k + 1) * is.length) := by
      rw [List.length_cons, Nat.mul_succ]
      omega
    rw [hk]
    refine Reads.bind (hbyte i (by simp) dag j hg) fun dag₁ r hg₁ hr => ?_
    have hg₁' : ∃ j, em.dag.Grows j dag₁ := ⟨_, hg.trans hg₁⟩
    have hacc₁ := hacc.grow hg₁
    unfold concatTerm
    generalize byteTerm i = bt at hr ⊢
    cases hr with
    | none => exact (Reads.pure .none).mono (Nat.zero_le _)
    | some hb =>
      cases hacc₁ with
      | none => exact (ih hg₁' (.some hb)).mono (by omega)
      | some hlow =>
        refine Reads.bind (Reads.bin rfl rfl (fun _ => rfl) trivial hb hlow) fun dag₂ n hg₂ hn => ?_
        exact ih ⟨_, (hg.trans hg₁).trans hg₂⟩ (.some hn)

theorem checkedAdd_eq_some {w : Nat} {a b c : BitVec w} (h : checkedAdd a b = some c) :
    c = a + b ∧ a.toNat + b.toNat < 2 ^ w := by
  unfold checkedAdd at h
  split at h
  · exact ⟨(Option.some.inj h).symm, ‹_›⟩
  · cases h

theorem concatInputBytes_reads (start : BitVec 32) {count : Nat} (hc : count ≤ 2 ^ 32) :
    Reads (3 * count) em (concatInputBytes start count) fun dag r =>
      RepresentsOpt em.state dag r (inputTerm start count) := by
  intro hr
  refine (Reads.mono (k := (2 + 1) * (List.range count).length) (concatBytes_reads (k := 2)
    (fun i hi dag j hg => ?_) ⟨0, .refl hr.built⟩ .none) ?_ : Reads (3 * count) em _ _) hr
  · refine Reads.checked_bind fun index hindex => ?_
    obtain ⟨rfl, hlt⟩ := checkedAdd_eq_some hindex
    have hi' : (BitVec.ofNat 32 i).toNat = i := by
      have := List.mem_range.mp hi
      rw [BitVec.toNat_ofNat, Nat.mod_eq_of_lt (by omega)]
    have htoNat : (start + BitVec.ofNat 32 i).toNat = start.toNat + i := by
      rw [BitVec.toNat_add, Nat.mod_eq_of_lt hlt, hi']
    exact htoNat ▸ Reads.some (inputByteVar_reads em.state _)
  · simp only [List.length_range]
    omega

theorem concatShadowBytes_reads (hv : em.Valid) (addr : BitVec 64) (count : Nat) :
    Reads (3 * count) em (concatShadowBytes addr count) fun dag r =>
      RepresentsOpt em.state dag r (em.bytesTerm addr count) := by
  intro hr
  refine (Reads.mono (k := (0 + 1) * (List.range count).length) (concatBytes_reads (k := 0)
    (fun i hi dag j hg => ?_) ⟨0, .refl hr.built⟩ .none) ?_ : Reads (3 * count) em _ _) hr
  · refine Reads.checked_bind fun a ha => Reads.get_bind (Reads.pure ?_)
    obtain ⟨rfl, -⟩ := checkedAdd_eq_some ha
    cases hm : em.state.memory (addr + BitVec.ofNat 64 i) with
    | none => simp [hm]
    | some n => simpa [hm] using Option.Rel.some (.byte hm (hg.lt (hv.memory _ n hm)))
  · simp only [List.length_range]
    omega

theorem readMemoryRegion_reads (hv : em.Valid) (base : Option (List Char)) (disp : BitVec 64)
    {width : Nat} (hw : width ≤ 2 ^ 32) :
    Reads (3 * (width / 8)) em (readMemoryRegion base disp width) fun dag r =>
      RepresentsOpt em.state dag r (em.regionTerm base disp width) := by
  unfold readMemoryRegion ShadowEmulator.regionTerm
  by_cases h₁ : width = 0 ∨ width % 8 ≠ 0
  · rw [if_pos h₁, if_pos (h₁.imp_right .inl)]
    exact (Reads.pure .none).mono (Nat.zero_le _)
  · rw [if_neg h₁]
    refine Reads.get_bind ?_
    by_cases h₂ : em.baseConcrete base
    · rw [if_neg (not_not_intro h₂), if_neg (by simpa [h₂] using h₁)]
      refine Reads.checked_bind fun b hb => ?_
      cases b with
      | true =>
        rw [if_pos rfl, if_pos hb]
        exact concatInputBytes_reads _ (by omega)
      | false =>
        rw [if_neg (by decide), if_neg (by rw [hb]; decide)]
        exact concatShadowBytes_reads hv _ _
    · rw [if_pos h₂, if_pos (.inr (.inr h₂))]
      exact (Reads.pure .none).mono (Nat.zero_le _)

theorem narrowTo_reads (st : ShadowState) {full : NodeId} {t : ShadowTerm} {w : Nat}
    (hw : w ≤ 64) (isAh : Bool) (h : Represents st em.dag full t) :
    Reads 1 em (narrowTo full w isAh) fun dag n => Represents st dag n (narrowTerm t w isAh) := by
  unfold narrowTo narrowTerm
  cases isAh with
  | true => exact Reads.un rfl rfl (fun _ => rfl) ⟨by decide, by decide⟩ h
  | false =>
    by_cases h64 : 64 ≤ w
    · simp only [Bool.false_eq_true, if_false, if_pos h64]
      exact (Reads.pure h).mono (Nat.zero_le _)
    · simp only [Bool.false_eq_true, if_false, if_neg h64]
      exact Reads.un rfl rfl (fun _ => rfl) ⟨by omega, by decide⟩ h

/-- Reading an operand gives a node of its term, or nothing if it has none. -/
theorem readOperand_reads (hv : em.Valid) (op : Operand) {w : Nat} (hw : w ≤ 64) :
    Reads 25 em (readOperand op w) fun dag r =>
      RepresentsOpt em.state dag r (em.operandTerm op w) := by
  cases op with
  | imm v => exact (Reads.num em.state (by omega)).some.mono (by decide)
  | reg name width =>
    refine Reads.get_bind ?_
    rw [ShadowEmulator.operandTerm]
    cases hc : canonicalReg name with
    | none => exact (Reads.pure .none).mono (Nat.zero_le _)
    | some c =>
      rw [Option.bind_some, Option.bind_some]
      cases hr : em.state.regs c with
      | none => exact (Reads.pure .none).mono (Nat.zero_le _)
      | some full =>
        exact (narrowTo_reads em.state hw _ (.reg hr (hv.regs c full hr))).some.mono (by decide)
  | mem base disp width =>
    refine Reads.bind (k := 24) (l := 1)
      ((readMemoryRegion_reads hv base disp (by omega)).mono (by omega)) fun dag r hg hr => ?_
    rw [ShadowEmulator.operandTerm]
    generalize em.regionTerm base disp (min width w) = t at hr ⊢
    cases hr with
    | none => exact (Reads.pure .none).mono (Nat.zero_le _)
    | some h => exact (narrowTo_reads em.state hw false h).some

theorem widenTo64_reads {st : ShadowState} {r : Option NodeId} {t : Option ShadowTerm} (w : Nat)
    (h : RepresentsOpt st em.dag r t) : Reads 1 em (widenTo64 r w) fun dag r =>
      RepresentsOpt st dag r (t.map fun t => widenTerm t w) := by
  cases h with
  | none => exact (Reads.pure .none).mono (Nat.zero_le _)
  | some h =>
    unfold widenTo64 widenTerm
    by_cases h64 : 64 ≤ w
    · simp only [if_pos h64, Option.map_some]
      exact (Reads.pure (.some h)).mono (Nat.zero_le _)
    · simp only [if_neg h64, Option.map_some]
      have hu : ∀ n, ExprDag.U32 (.zeroExt (64 - w) n) := fun n => by
        simp only [ExprDag.U32]
        omega
      exact (Reads.un rfl rfl (fun _ => rfl) (hu _) h).some

end Operands

end Axe.Concolic
