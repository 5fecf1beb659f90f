import Axe.Concolic.ShadowRuns

/-!
# The sorts of the shadow state

Registers hold 64 bits, bytes 8, and the sides of a comparison its width, as long
as every operand that is read has the width it is read at.
-/
namespace Axe.Concolic

open Smt (SmtSort Term)
open X86 (Reg)

/-- The typing judgement of shadow terms. -/
inductive Typed : ShadowTerm → SmtSort → Prop
  | loc (l : Loc) : Typed (.symbol l) l.sort
  | num {v w : Nat} : 1 ≤ w → w ≤ 128 → v < 2 ^ w → Typed (.bvNum v w) (.bv w)
  | un {o : Smt.Op} {t : ShadowTerm} {r s : SmtSort} : Typed t r → o.sort [r] = some s →
      Narrow s → Typed (.app o [t]) s
  | bin {o : Smt.Op} {t u : ShadowTerm} {r q s : SmtSort} : Typed t r → Typed u q →
      o.sort [r, q] = some s → Narrow s → Typed (.app o [t, u]) s

section Soundness
variable {st : ShadowState} {dag : ExprDag} {n : NodeId} {t : ShadowTerm} {s : SmtSort}

theorem narrow_bv {w : Nat} (h : w ≤ 128) : Narrow (.bv w) := by
  rintro v ⟨⟩
  omega

theorem fitsAlg_op {e : Expr} {o : Smt.Op} {ss : List SmtSort} (ho : e.op = some o)
    (hw : ∀ s, e.byteWide s = true) (hs : o.sort ss = some s) (hn : Narrow s) :
    ExprDag.fitsAlg e ss = some s := by
  have hfit : ∀ w ∈ bvWidth s, w < 2 ^ 32 := fun w h => hn w (bvWidth_eq_some.mp h)
  have hsort : sortAlg e ss = some s := by simp [sortAlg, ho, hs, hw]
  exact Option.filter_eq_some_iff.mpr ⟨hsort, decide_eq_true hfit⟩

/-- A node that represents a typed term fits its sort. -/
theorem Represents.fits (hregs : ∀ r n, st.regs r = some n → dag.FitsSort n (.bv 64))
    (hmem : ∀ a n, st.memory a = some n → dag.FitsSort n (.bv 8))
    (h : Represents st dag n t) (ht : Typed t s) : dag.FitsSort n s := by
  induction h generalizing s with
  | reg hr _ =>
    cases ht
    exact hregs _ _ hr
  | byte ha _ =>
    cases ht
    exact hmem _ _ ha
  | input he _ =>
    cases ht
    refine DagFold.Folds.iff.mpr ⟨_, [], he, .nil, Option.filter_eq_some_iff.mpr ⟨rfl, ?_⟩⟩
    exact decide_eq_true fun w hw => narrow_bv (by decide : 8 ≤ 128) w (bvWidth_eq_some.mp hw)
  | num he =>
    cases ht with
    | num h₁ h₂ h₃ =>
      refine DagFold.Folds.iff.mpr ⟨_, [], he, .nil, Option.filter_eq_some_iff.mpr ⟨?_, ?_⟩⟩
      · simp [sortAlg, Expr.op, Expr.leafSort, h₁, h₂, h₃]
      · exact decide_eq_true fun w hw => narrow_bv h₂ w (bvWidth_eq_some.mp hw)
  | un he ho hc hw _ ih =>
    cases ht with
    | un ht hs hn =>
      exact DagFold.Folds.iff.mpr ⟨_, [_], he, hc ▸ .cons (ih ht) .nil, fitsAlg_op ho hw hs hn⟩
  | bin he ho hc hw _ _ ih₁ ih₂ =>
    cases ht with
    | bin ht hu hs hn =>
      exact DagFold.Folds.iff.mpr
        ⟨_, [_, _], he, hc ▸ .cons (ih₁ ht) (.cons (ih₂ hu) .nil), fitsAlg_op ho hw hs hn⟩

end Soundness

section Terms
variable {em : ShadowEmulator} {t u : ShadowTerm} {w : Nat}

theorem Typed.extract {hi lo : Nat} (h : Typed t (.bv w)) (hlo : lo ≤ hi) (hhi : hi < w)
    (hw : w ≤ 128) : Typed (.app (.extract hi lo) [t]) (.bv (hi - lo + 1)) :=
  .un h (by simp [Smt.Op.sort, hlo, hhi]) (narrow_bv (by omega))

theorem Typed.concat {v : Nat} (h : Typed t (.bv v)) (h' : Typed u (.bv w)) (hw : v + w ≤ 128) :
    Typed (.app .concat [t, u]) (.bv (v + w)) := .bin h h' rfl (narrow_bv hw)

theorem Typed.arith {o : Smt.BvBin} (h : Typed t (.bv w)) (h' : Typed u (.bv w)) (hw : w ≤ 128) :
    Typed (.app (.bin o) [t, u]) (.bv w) := .bin h h' (by simp [Smt.Op.sort]) (narrow_bv hw)

/-- The bytes put together so far. -/
theorem concatTerm_typed {byte : Nat → Option ShadowTerm}
    (hbyte : ∀ i t, byte i = some t → Typed t (.bv 8)) {is : List Nat} {acc : Option ShadowTerm}
    {j : Nat} (hacc : ∀ a, acc = some a → Typed a (.bv (8 * j))) (hj : acc = none → j = 0)
    (hlen : j + is.length ≤ 16) (ht : concatTerm byte is acc = some t) :
    Typed t (.bv (8 * (j + is.length))) := by
  induction is generalizing acc j with
  | nil => exact hacc t ht
  | cons i is ih =>
    rw [List.length_cons] at hlen ⊢
    rw [concatTerm.eq_def] at ht
    dsimp only at ht
    split at ht
    · cases ht
    · rename_i b hb
      cases hj rfl
      have hb := hbyte i b hb
      have := ih (j := 1) (fun a ha => by cases ha; exact hb) (fun h => by cases h) (by omega) ht
      rwa [Nat.add_comm is.length, ← Nat.add_assoc]
    · rename_i b low hb
      have hb := (hbyte i b hb).concat (hacc low rfl) (by omega)
      have := ih (j := j + 1) (fun a ha => by cases ha; rwa [Nat.mul_add, Nat.add_comm])
        (fun h => by cases h) (by omega) ht
      rwa [Nat.add_comm is.length, ← Nat.add_assoc]

theorem regionTerm_typed {base : Option (List Char)} {disp : BitVec 64} (hw : w ≤ 64)
    (h : em.regionTerm base disp w = some t) : Typed t (.bv w) := by
  unfold ShadowEmulator.regionTerm at h
  dsimp only at h
  split at h
  · cases h
  · rename_i hskip
    have hlen : (List.range (w / 8)).length = w / 8 := List.length_range
    have hbytes : Typed t (.bv (8 * (0 + (List.range (w / 8)).length))) := by
      split at h
      · refine concatTerm_typed (fun i u hu => ?_) (by simp) (by simp) (by omega) h
        cases hu
        exact .loc _
      · refine concatTerm_typed (fun i u hu => ?_) (by simp) (by simp) (by omega) h
        obtain ⟨n, -, rfl⟩ := Option.map_eq_some_iff.mp hu
        exact .loc _
    have hw8 : 8 * (0 + (List.range (w / 8)).length) = w := by omega
    rwa [hw8] at hbytes

/-- The widths of registers and memory operands. -/
def OperandWidth (w : Nat) : Prop := w ∈ [8, 16, 32, 64]

theorem OperandWidth.bounds (h : OperandWidth w) : 8 ≤ w ∧ w ≤ 64 := by
  simp only [OperandWidth, List.mem_cons, List.not_mem_nil, or_false] at h
  omega

theorem and_immMask_lt {w : Nat} (h : OperandWidth w) (v : BitVec 128) :
    (v &&& immMask w).toNat < 2 ^ w := by
  have hmask : (immMask w).toNat < 2 ^ w := by
    simp only [OperandWidth, List.mem_cons, List.not_mem_nil, or_false] at h
    rcases h with rfl | rfl | rfl | rfl <;> decide
  rw [BitVec.toNat_and]
  exact Nat.and_le_right.trans_lt hmask

theorem immTerm_typed (h : OperandWidth w) (v : BitVec 64) : Typed (immTerm v w) (.bv w) := by
  have hb := h.bounds
  have hmin : min w 127 = w := by omega
  rw [immTerm, hmin]
  exact .num (by omega) (by omega) (and_immMask_lt h _)

theorem narrowTerm_typed {v : Nat} (h : OperandWidth w) (ht : Typed t (.bv v)) (hv : w ≤ v)
    (hv' : v ≤ 64) : Typed (narrowTerm t w false) (.bv w) := by
  have hb := h.bounds
  unfold narrowTerm
  rw [if_neg (by decide)]
  split
  · have : v = w := by omega
    exact this ▸ ht
  · have := ht.extract (Nat.zero_le (w - 1)) (by omega) (by omega)
    rwa [show w - 1 - 0 + 1 = w by omega] at this

theorem widenTerm_typed (h : OperandWidth w) (ht : Typed t (.bv w)) :
    Typed (widenTerm t w) (.bv 64) := by
  have hb := h.bounds
  unfold widenTerm
  split
  · have : w = 64 := by omega
    exact this ▸ ht
  · refine .un ht ?_ (narrow_bv (by decide))
    rw [Smt.Op.sort, show w + (64 - w) = 64 by omega]

end Terms

section Conditions

/-- An operand is read at the width it has: `ah` as a byte, and memory at no more than
its own width. -/
def Operand.ReadsAt (op : Operand) (w : Nat) : Prop :=
  match op with
  | .reg name _ => name = "ah".toList → w = 8
  | .imm _ => True
  | .mem _ _ width => w ≤ width

/-- A symbolic operand is read at a width it has. -/
def ShadowEmulator.ReadFits (em : ShadowEmulator) (op : Operand) (w : Nat) : Prop :=
  (em.operandTerm op w).isSome → op.ReadsAt w

/-- What an instruction needs of its operands for its terms to be typed. -/
def ShadowEmulator.OperandsFit (em : ShadowEmulator) : Family → List Operand → Prop
  | .mov, [.reg _ w, src] | .mov, [.mem _ _ w, src] => em.ReadFits src w
  | .movx _, [.reg _ w, src] => src.width.getD 8 ≤ w
  | .binop _, [.reg name w, src] => em.ReadFits src w ∧
      ∀ v, src = .imm v → em.operandTerm (.reg name w) w = none → v.toNat < 2 ^ w
  | .shift _, [.reg _ w, .reg name w'] => em.ReadFits (.reg name w') w
  | _, _ => True

/-- The terms of an effect have the sorts of their targets. -/
def Effect.Typed : Effect → Prop
  | .none => True
  | .setReg _ t => ∀ u, t = some u → Concolic.Typed u (.bv 64)
  | .setMem _ count t => ∀ u, t = some u → ∀ i < count, Concolic.Typed (byteTerm u i) (.bv 8)
  | .setCmp t => ∀ c, t = some c → Concolic.Typed c.lhs (.bv c.width) ∧
      Concolic.Typed c.rhs (.bv c.width)

variable {em : ShadowEmulator} {op a b src : Operand} {w : Nat} {t : ShadowTerm}

theorem operandTerm_typed (hw : OperandWidth w) (hr : op.ReadsAt w)
    (h : em.operandTerm op w = some t) : Typed t (.bv w) := by
  have hb := hw.bounds
  cases op with
  | imm v =>
    cases h
    exact immTerm_typed hw v
  | reg name width =>
    obtain ⟨c, -, h⟩ := Option.bind_eq_some_iff.mp h
    obtain ⟨n, -, rfl⟩ := Option.map_eq_some_iff.mp h
    by_cases hah : name = "ah".toList
    · cases hr hah
      rw [narrowTerm, if_pos (by simpa using hah)]
      exact Typed.extract (.loc (.reg c)) (by decide) (by decide) (by decide)
    · rw [show decide (name = "ah".toList) = false by simpa using hah]
      exact narrowTerm_typed hw (.loc (.reg c)) hb.2 le_rfl
  | mem base disp width =>
    obtain ⟨u, hu, rfl⟩ := Option.map_eq_some_iff.mp h
    have hmin : min width w = w := Nat.min_eq_right hr
    rw [hmin] at hu
    exact narrowTerm_typed hw (regionTerm_typed hb.2 hu) le_rfl hb.2

theorem regEffect_typed {name : List Char} {t : Option ShadowTerm} (hw : OperandWidth w)
    (h : ∀ u, t = some u → Typed u (.bv w)) :
    (regEffect name (t.map fun t => widenTerm t w)).Typed := by
  unfold regEffect
  split
  · intro u hu
    obtain ⟨t, ht, rfl⟩ := Option.map_eq_some_iff.mp hu
    exact widenTerm_typed hw (h t ht)
  · trivial

theorem operandWidth (h : op.WellFormed) (hw : op.width = some w) : OperandWidth w :=
  h.width_mem hw

theorem readsAt_self (h : op.WellFormed) (hw : op.width = some w) : op.ReadsAt w := by
  cases op with
  | reg name width =>
    cases hw
    rintro rfl
    exact Option.some.inj (h.symm.trans registerWidth_ah)
  | imm v => trivial
  | mem base disp width =>
    cases hw
    exact Nat.le_refl _

theorem cmpWidth_spec (ha : a.WellFormed) (hb : b.WellFormed) :
    OperandWidth (cmpWidth a b) ∧ a.ReadsAt (cmpWidth a b) ∧ b.ReadsAt (cmpWidth a b) := by
  have hah : ∀ {op : Operand} {w w' : Nat}, op.WellFormed → op.width = some w → w' ≤ w →
      OperandWidth w' → op.ReadsAt w' := by
    intro op w w' hop hw hle hw'
    cases op with
    | reg name width =>
      cases hw
      rintro rfl
      have h8 : w = 8 := Option.some.inj (hop.symm.trans registerWidth_ah)
      have := hw'.bounds
      omega
    | imm v => trivial
    | mem base disp width =>
      cases hw
      exact hle
  have himm : ∀ {op : Operand} {w : Nat}, op.width = none → op.ReadsAt w := by
    intro op w h
    cases op with
    | imm v => trivial
    | reg | mem => cases h
  unfold cmpWidth
  split
  · rename_i wa wb hwa hwb
    have h₁ := operandWidth ha hwa
    have h₂ := operandWidth hb hwb
    have hmin : OperandWidth (max (min wa wb) 8) := by
      have := h₁.bounds
      have := h₂.bounds
      rcases Nat.le_total wa wb with hle | hle
      · rw [Nat.min_eq_left hle, Nat.max_eq_left (by omega)]
        exact h₁
      · rw [Nat.min_eq_right hle, Nat.max_eq_left (by omega)]
        exact h₂
    have := h₁.bounds
    have := h₂.bounds
    exact ⟨hmin, hah ha hwa (by omega) hmin, hah hb hwb (by omega) hmin⟩
  · rename_i wa hwa hnb
    exact ⟨operandWidth ha hwa, readsAt_self ha hwa, himm hnb⟩
  · rename_i wb hna hwb
    exact ⟨operandWidth hb hwb, himm hna, readsAt_self hb hwb⟩
  · rename_i hna hnb
    exact ⟨by simp [OperandWidth], himm hna, himm hnb⟩

theorem ReadFits.typed (hw : OperandWidth w) (hr : em.ReadFits op w)
    (h : em.operandTerm op w = some t) : Typed t (.bv w) :=
  operandTerm_typed hw (hr (h ▸ rfl)) h

theorem movEffect_typed {ops : List Operand} (hops : ∀ op ∈ ops, op.WellFormed)
    (h : em.OperandsFit .mov ops) : (em.movEffect ops).Typed := by
  unfold ShadowEmulator.movEffect
  split
  · rename_i name w src
    have hw : OperandWidth w := operandWidth (hops (.reg name w) (by simp)) rfl
    exact regEffect_typed hw fun u hu => ReadFits.typed hw h hu
  · rename_i base disp w src
    have hw : OperandWidth w := operandWidth (hops (.mem base disp w) (by simp)) rfl
    have hb := hw.bounds
    unfold memEffect
    split
    · trivial
    · intro u hu i hi
      have hu : Typed u (.bv w) := ReadFits.typed hw h hu
      have : Typed (.app (.extract (i * 8 + 7) (i * 8)) [u]) (.bv (i * 8 + 7 - i * 8 + 1)) :=
        hu.extract (by omega) (by omega) (by omega)
      rwa [show i * 8 + 7 - i * 8 + 1 = 8 by omega] at this
  · trivial

theorem movxEffect_typed {signed : Bool} {ops : List Operand} (hops : ∀ op ∈ ops, op.WellFormed)
    (h : em.OperandsFit (.movx signed) ops) : (em.movxEffect signed ops).Typed := by
  unfold ShadowEmulator.movxEffect
  split
  · rename_i name w src
    have hsrc : src.WellFormed := hops src (by simp)
    have hw : OperandWidth w := operandWidth (hops (.reg name w) (by simp)) rfl
    have hb := hw.bounds
    have hwidth : OperandWidth (src.width.getD 8) ∧ src.ReadsAt (src.width.getD 8) := by
      cases hs : src.width with
      | none =>
        cases src with
        | imm v => exact ⟨by simp [OperandWidth], trivial⟩
        | reg | mem => cases hs
      | some ws => exact ⟨operandWidth hsrc hs, readsAt_self hsrc hs⟩
    have hle : src.width.getD 8 ≤ w := h
    refine regEffect_typed hw fun u hu => ?_
    obtain ⟨v, hop, rfl⟩ := Option.map_eq_some_iff.mp hu
    have hv := operandTerm_typed hwidth.1 hwidth.2 hop
    clear hop hu
    generalize src.width.getD 8 = ws at hv hle ⊢
    have hsum : ws + (w - ws) = w := by omega
    unfold extendTerm
    split
    · refine .un hv ?_ (narrow_bv (by omega))
      cases signed <;> simp [Smt.Op.sort, hsum]
    · have : ws = w := by omega
      exact this ▸ hv
  · trivial

theorem binopEffect_typed {o : Binop} {ops : List Operand} (hops : ∀ op ∈ ops, op.WellFormed)
    (h : em.OperandsFit (.binop o) ops) : (em.binopEffect o ops).Typed := by
  unfold ShadowEmulator.binopEffect
  split
  · rename_i name w src
    have hdst : (Operand.reg name w).WellFormed := hops (.reg name w) (by simp)
    have hw : OperandWidth w := operandWidth hdst rfl
    have hb := hw.bounds
    have hl : ∀ u, em.operandTerm (.reg name w) w = some u → Typed u (.bv w) := fun u hu =>
      operandTerm_typed hw (readsAt_self hdst rfl) hu
    have hr : ∀ u, em.operandTerm src w = some u → Typed u (.bv w) := fun u hu =>
      ReadFits.typed hw h.1 hu
    refine regEffect_typed hw fun u hu => ?_
    unfold binopTerm at hu
    split at hu
    · rename_i l r hle hre
      cases hu
      exact (hl l hle).arith (hr r hre) (by omega)
    · rename_i l hle hre
      cases src with
      | imm v => cases hre
      | reg | mem => cases hu
    · rename_i r hle hre
      cases src with
      | imm v =>
        cases hu
        have hv : (v.setWidth 128).toNat < 2 ^ w := by
          rw [BitVec.toNat_setWidth_of_le (by decide)]
          exact h.2 v rfl hle
        exact (hr r hre).arith (.num (by omega) (by omega) hv) (by omega)
      | reg | mem => cases hu
    · cases hu
  · trivial

theorem shiftEffect_typed {o : Shift} {ops : List Operand} (hops : ∀ op ∈ ops, op.WellFormed)
    (h : em.OperandsFit (.shift o) ops) : (em.shiftEffect o ops).Typed := by
  unfold ShadowEmulator.shiftEffect
  split
  · rename_i name w src
    have hdst : (Operand.reg name w).WellFormed := hops (.reg name w) (by simp)
    have hw : OperandWidth w := operandWidth hdst rfl
    have hb := hw.bounds
    have hamount : ∀ u, em.amountTerm src w = some u → Typed u (.bv w) := by
      intro u hu
      cases src with
      | imm v =>
        cases hu
        exact .num (by omega) (by omega) (and_immMask_lt hw _)
      | reg name' w' => exact ReadFits.typed hw h hu
      | mem => cases hu
    refine regEffect_typed hw fun u hu => ?_
    unfold shiftTerm at hu
    split at hu
    · rename_i l a hle hae
      cases hu
      exact (operandTerm_typed hw (readsAt_self hdst rfl) hle).arith (hamount a hae) (by omega)
    · cases hu
  · trivial

theorem sideTerm_typed (hw : OperandWidth w) (hr : op.ReadsAt w) :
    Typed (sideTerm op (em.operandTerm op w) w) (.bv w) := by
  have hb := hw.bounds
  unfold sideTerm
  cases h : em.operandTerm op w with
  | some t => exact operandTerm_typed hw hr h
  | none =>
    cases op with
    | imm v => cases h
    | reg | mem => exact .num (by omega) (by omega) (by simp [literalValue])

theorem cmpEffect_typed {isTest : Bool} {ops : List Operand} (hops : ∀ op ∈ ops, op.WellFormed) :
    (em.cmpEffect isTest ops).Typed := by
  unfold ShadowEmulator.cmpEffect
  split
  · rename_i a b
    obtain ⟨hw, ha, hb⟩ := cmpWidth_spec (hops a (by simp)) (hops b (by simp))
    have hbounds := hw.bounds
    intro c hc
    obtain ⟨-, hc⟩ := Option.ite_none_left_eq_some.mp hc
    have hl : Typed (sideTerm a (em.operandTerm a _) _) _ := sideTerm_typed hw ha
    have hr : Typed (sideTerm b (em.operandTerm b _) _) _ := sideTerm_typed hw hb
    cases hc
    unfold testTerm
    split
    · exact ⟨hl.arith hr (by omega), .num (by omega) (by omega) (by simp)⟩
    · exact ⟨hl, hr⟩
  · trivial

theorem leaEffect_typed {ops : List Operand} : (em.leaEffect ops).Typed := by
  unfold ShadowEmulator.leaEffect
  split
  · unfold regEffect
    split
    · intro u hu
      obtain ⟨c, -, hu⟩ := Option.bind_eq_some_iff.mp hu
      obtain ⟨n, -, rfl⟩ := Option.map_eq_some_iff.mp hu
      refine Typed.arith (.loc (.reg c)) (.num (by decide) (by decide) ?_) (by decide)
      rw [BitVec.toNat_and]
      exact Nat.and_le_right.trans_lt (by decide)
    · trivial
  · trivial

/-- The terms of an instruction whose operands fit are typed. -/
theorem effect_typed {family : Family} {ops : List Operand} (hops : ∀ op ∈ ops, op.WellFormed)
    (h : em.OperandsFit family ops) : (em.effect family ops).Typed := by
  cases family with
  | mov => exact movEffect_typed hops h
  | movx signed => exact movxEffect_typed hops h
  | binop o => exact binopEffect_typed hops h
  | shift o => exact shiftEffect_typed hops h
  | cmp isTest => exact cmpEffect_typed hops
  | lea => exact leaEffect_typed
  | unsupported =>
    rw [ShadowEmulator.effect, ShadowEmulator.unsupportedEffect.eq_def]
    split
    · unfold regEffect
      split
      · exact fun u hu => (by cases hu)
      · trivial
    · trivial

end Conditions

end Axe.Concolic
