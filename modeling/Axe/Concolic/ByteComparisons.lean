import Axe.Concolic.PureRust
import Axe.Concolic.Validate

/-!
# What tier 1 decides

Tier 1 compares an input byte under any extensions with a constant as wide as they make it, and
answers by the low byte of the constant. The byte is sign-extended up to some width and
zero-extended from there, since a sign extension after a proper zero extension fills with zeros.
The answer is right exactly when the part of the constant above its low byte stands as the
relation asks to what the extensions fill in above the byte.
-/
namespace Axe.Concolic

open Smt (SmtSort Value Assignment)

/-- A byte sign-extended to `m` bits, and zero-extended to `w` bits. -/
def wrapByte (m w : Nat) (b : BitVec 8) : BitVec w := (b.signExtend m).setWidth w

def Rel.holds {w : Nat} (rel : Rel) (x y : BitVec w) : Bool :=
  match rel with
  | .eq => x == y
  | .ne => !(x == y)
  | .ult => x.ult y
  | .ule => x.ule y
  | .ugt => y.ult x
  | .uge => y.ule x
  | .slt => x.slt y
  | .sle => x.sle y
  | .sgt => y.slt x
  | .sge => y.sle x

/-- A relation between two numbers, given unsigned and signed. -/
def Rel.Compare (rel : Rel) (x y signedX signedY : Int) : Prop :=
  match rel with
  | .eq => x = y
  | .ne => x ≠ y
  | .ult => x < y
  | .ule => x ≤ y
  | .ugt => y < x
  | .uge => y ≤ x
  | .slt => signedX < signedY
  | .sle => signedX ≤ signedY
  | .sgt => signedY < signedX
  | .sge => signedY ≤ signedX

/-- The answer for the low byte of the constant is right for the whole constant: the byte
satisfies the relation, or no byte does. -/
def AnswerRight (rel : Rel) (m w : Nat) (c : BitVec w) : Prop :=
  match boundaryByte rel (c.setWidth 8) with
  | some b => rel.holds (wrapByte m w b) c = true
  | none => ∀ b, rel.holds (wrapByte m w b) c = false

/-- What the extensions fill in above a byte with its sign bit set. -/
def fill (m : Nat) : Int := 2 ^ (m - 8) - 1

/-- The same, read as a signed number. -/
def signedFill (m w : Nat) : Int := if m = w then -1 else fill m

/-- The part of the constant above its low byte suits the relation. -/
def HighPartSuits (rel : Rel) (m w : Nat) (c : BitVec w) : Prop :=
  let low := c.toNat % 256
  let high : Int := c.toNat / 256
  let signedHigh : Int := c.toInt / 256
  match rel with
  | .eq => high = if low < 128 then 0 else fill m
  | .ne => True
  | .ult => (low = 0 → high = 0) ∧ (128 < low → fill m ≤ high)
  | .ule => 128 ≤ low → fill m ≤ high
  | .ugt => (low < 127 → high = 0) ∧ (127 ≤ low → low < 255 → high ≤ fill m) ∧
      (low = 255 → fill m ≤ high)
  | .uge => (low < 128 → high = 0) ∧ (128 ≤ low → high ≤ fill m)
  | .slt => (low = 0 → signedFill m w < signedHigh) ∧ (0 < low → low < 128 → 0 ≤ signedHigh) ∧
      (low = 128 → signedHigh < 0) ∧ (128 < low → signedFill m w ≤ signedHigh)
  | .sle => (low < 128 → 0 ≤ signedHigh) ∧ (128 ≤ low → signedHigh < min (signedFill m w) 0)
  | .sgt => (low < 127 → signedHigh ≤ 0) ∧ (low = 127 → signedFill m w < signedHigh) ∧
      (127 < low → low < 255 → signedHigh ≤ signedFill m w) ∧ (low = 255 → signedHigh < 0)
  | .sge => (low < 128 → signedHigh ≤ 0) ∧ (128 ≤ low → signedFill m w < signedHigh)

section Arithmetic
variable {m w : Nat}

theorem two_pow_split {n : Nat} (hn : 8 ≤ n) : 2 ^ n = 256 * 2 ^ (n - 8) := by
  rw [show n = 8 + (n - 8) by omega, Nat.pow_add]
  simp

theorem wrapByte_toNat (hm : 8 ≤ m) (hw : m ≤ w) (b : BitVec 8) :
    ((wrapByte m w b).toNat : Int) = b.toNat + 256 * if 128 ≤ b.toNat then fill m else 0 := by
  have hpow := two_pow_split hm
  have hle : 2 ^ m ≤ 2 ^ w := Nat.pow_le_pow_right (by decide) hw
  have hpos : 0 < 2 ^ (m - 8) := Nat.two_pow_pos _
  have hb := b.isLt
  have hmsb : b.msb = decide (128 ≤ b.toNat) := BitVec.msb_eq_decide b
  have hn : (wrapByte m w b).toNat = b.toNat + if 128 ≤ b.toNat then 2 ^ m - 256 else 0 := by
    rw [wrapByte, BitVec.toNat_setWidth, BitVec.toNat_signExtend, BitVec.toNat_setWidth,
      Nat.mod_eq_of_lt (b := 2 ^ m) (by omega), hmsb]
    rw [Nat.mod_eq_of_lt]
    · simp
    · split <;> omega
  rw [hn, fill]
  have hcast : ((2 ^ (m - 8) : Nat) : Int) = (2 : Int) ^ (m - 8) := by push_cast; rfl
  rw [← hcast]
  generalize 2 ^ (m - 8) = p at *
  split <;> omega

theorem fill_nonneg (m : Nat) : 0 ≤ fill m := by
  have : (0 : Int) < 2 ^ (m - 8) := Int.pow_pos (by decide)
  rw [fill]
  omega

theorem wrapByte_toInt (hm : 8 ≤ m) (hw : m ≤ w) (b : BitVec 8) :
    (wrapByte m w b).toInt = b.toNat + 256 * if 128 ≤ b.toNat then signedFill m w else 0 := by
  have hn := wrapByte_toNat hm hw b
  have hpow := two_pow_split hm
  have hpow' := two_pow_split (hm.trans hw)
  have hpos : 0 < 2 ^ (m - 8) := Nat.two_pow_pos _
  have hb := b.isLt
  have hcast : ((2 ^ (m - 8) : Nat) : Int) = (2 : Int) ^ (m - 8) := by push_cast; rfl
  rw [BitVec.toInt_eq_toNat_cond]
  unfold fill at hn
  unfold signedFill fill
  rw [← hcast] at hn ⊢
  by_cases hmw : m = w
  · subst hmw
    rw [if_pos rfl]
    generalize 2 ^ (m - 8) = p at *
    by_cases h : 128 ≤ b.toNat <;> simp only [h, if_true, if_false] at hn ⊢ <;> split <;> omega
  · have hlt : 2 * 2 ^ m ≤ 2 ^ w := by
      rw [← Nat.pow_succ']
      exact Nat.pow_le_pow_right (by decide) (by omega)
    rw [if_neg hmw]
    generalize 2 ^ (m - 8) = p at *
    generalize 2 ^ (w - 8) = q at *
    by_cases h : 128 ≤ b.toNat <;> simp only [h, if_true, if_false] at hn ⊢ <;> split <;> omega

/-- The signed value of the constant has the same low byte. -/
theorem toInt_emod (hw : 8 ≤ w) (c : BitVec w) : c.toInt % 256 = c.toNat % 256 := by
  have hpow := two_pow_split hw
  rw [BitVec.toInt_eq_toNat_cond]
  generalize 2 ^ (w - 8) = q at *
  split <;> omega

/-- A relation between a wrapped byte and a constant, by the two parts of each. -/
theorem holds_wrapByte (hm : 8 ≤ m) (hw : m ≤ w) (rel : Rel) (b : BitVec 8) (c : BitVec w) :
    rel.holds (wrapByte m w b) c = true ↔
      rel.Compare (b.toNat + 256 * if 128 ≤ b.toNat then fill m else 0)
        (c.toNat % 256 + 256 * (c.toNat / 256))
        (b.toNat + 256 * if 128 ≤ b.toNat then signedFill m w else 0)
        (c.toNat % 256 + 256 * (c.toInt / 256)) := by
  have hn := wrapByte_toNat hm hw b
  have hi := wrapByte_toInt hm hw b
  have hc : (c.toNat : Int) = c.toNat % 256 + 256 * (c.toNat / 256) := by omega
  have hci : c.toInt = c.toNat % 256 + 256 * (c.toInt / 256) := by
    have := toInt_emod (hm.trans hw) c
    omega
  simp only [← hn, ← hi, ← hc, ← hci]
  cases rel with
  | eq =>
    simp only [Rel.holds, Rel.Compare, beq_iff_eq]
    exact ⟨fun h => by rw [h], fun h => BitVec.eq_of_toNat_eq (by omega)⟩
  | ne =>
    simp only [Rel.holds, Rel.Compare, Bool.not_eq_true', beq_eq_false_iff_ne, ne_eq]
    exact not_congr ⟨fun h => by rw [h], fun h => BitVec.eq_of_toNat_eq (by omega)⟩
  | ult | ule | ugt | uge =>
    simp only [Rel.holds, Rel.Compare, BitVec.ult, BitVec.ule, decide_eq_true_eq]
    omega
  | slt | sle | sgt | sge =>
    simp only [Rel.holds, Rel.Compare, BitVec.slt, BitVec.sle, decide_eq_true_eq]

theorem signedFill_cases (m w : Nat) : signedFill m w = -1 ∨ 0 ≤ signedFill m w := by
  unfold signedFill
  split
  · exact .inl rfl
  · exact .inr (fill_nonneg m)

/-- Some byte has any given number below 256. -/
theorem exists_byte {n : Nat} (hn : n < 256) : ∃ b : BitVec 8, b.toNat = n :=
  ⟨BitVec.ofNat 8 n, Nat.mod_eq_of_lt hn⟩

theorem lowByte_eq (c : BitVec w) (k : BitVec 8) :
    c.setWidth 8 = k ↔ c.toNat % 256 = k.toNat := by
  rw [← BitVec.toNat_inj, BitVec.toNat_setWidth]

theorem lowByte_sub_one (c : BitVec w) :
    (c.setWidth 8 - 1).toNat = (c.toNat % 256 + 255) % 256 := by
  rw [BitVec.toNat_sub, BitVec.toNat_setWidth]
  simp
  omega

theorem lowByte_add_one (c : BitVec w) :
    (c.setWidth 8 + 1).toNat = (c.toNat % 256 + 1) % 256 := by
  rw [BitVec.toNat_add, BitVec.toNat_setWidth]
  simp

theorem lowByte_msb (c : BitVec w) :
    (c.setWidth 8).msb = decide (128 ≤ c.toNat % 256) := by
  rw [BitVec.msb_eq_decide, BitVec.toNat_setWidth]

/-- Where a relation has no byte for a constant, the byte next to its bound is asked. -/
theorem answerRight_of_none {rel : Rel} {c : BitVec w}
    (h : boundaryByte rel (c.setWidth 8) = none) :
    AnswerRight rel m w c ↔ ∀ b, ¬ rel.holds (wrapByte m w b) c = true := by
  simp [AnswerRight, h]

theorem answerRight_of_some {rel : Rel} {c : BitVec w} {b : BitVec 8}
    (h : boundaryByte rel (c.setWidth 8) = some b) :
    AnswerRight rel m w c ↔ rel.holds (wrapByte m w b) c = true := by
  simp [AnswerRight, h]

/-- The unsigned relations. -/
theorem answerRight_unsigned (hm : 8 ≤ m) (hw : m ≤ w) (c : BitVec w) {rel : Rel}
    (hrel : rel ∈ [Rel.eq, .ne, .ult, .ule, .ugt, .uge]) :
    AnswerRight rel m w c ↔ HighPartSuits rel m w c := by
  have hx : (c.setWidth 8).toNat = c.toNat % 256 := BitVec.toNat_setWidth ..
  have hlow : c.toNat % 256 < 256 := Nat.mod_lt _ (by decide)
  have hfill := fill_nonneg m
  simp only [List.mem_cons, List.not_mem_nil, or_false] at hrel
  rcases hrel with rfl | rfl | rfl | rfl | rfl | rfl
  · rw [answerRight_of_some rfl, holds_wrapByte hm hw, hx]
    simp only [Rel.Compare, HighPartSuits]
    split <;> split <;> omega
  · by_cases h0 : c.toNat % 256 = 0
    · have hb : boundaryByte .ne (c.setWidth 8) = some 1 := by
        simp [boundaryByte, (lowByte_eq c 0).mpr h0]
      rw [answerRight_of_some hb, holds_wrapByte hm hw]
      simp [Rel.Compare, HighPartSuits]
      omega
    · have hb : boundaryByte .ne (c.setWidth 8) = some 0 := by
        simp [boundaryByte, lowByte_eq, h0]
      rw [answerRight_of_some hb, holds_wrapByte hm hw]
      simp [Rel.Compare, HighPartSuits]
      omega
  · by_cases h0 : c.toNat % 256 = 0
    · have hb : boundaryByte .ult (c.setWidth 8) = none := by simp [boundaryByte, lowByte_eq, h0]
      rw [answerRight_of_none hb]
      simp only [holds_wrapByte hm hw, Rel.Compare, HighPartSuits]
      refine ⟨fun h => ?_, fun h b => ?_⟩
      · obtain ⟨b, hb⟩ := exists_byte (n := 0) (by decide)
        have := h b
        rw [hb, if_neg (by decide)] at this
        omega
      · split <;> omega
    · have hb : boundaryByte .ult (c.setWidth 8) = some (c.setWidth 8 - 1) := by
        simp [boundaryByte, lowByte_eq, h0]
      rw [answerRight_of_some hb, holds_wrapByte hm hw, lowByte_sub_one]
      simp only [Rel.Compare, HighPartSuits]
      split <;> omega
  · rw [answerRight_of_some rfl, holds_wrapByte hm hw, hx]
    simp only [Rel.Compare, HighPartSuits]
    split <;> omega
  · by_cases h255 : c.toNat % 256 = 255
    · have hb : boundaryByte .ugt (c.setWidth 8) = none := by
        simp [boundaryByte, lowByte_eq, h255]
      rw [answerRight_of_none hb]
      simp only [holds_wrapByte hm hw, Rel.Compare, HighPartSuits]
      refine ⟨fun h => ?_, fun h b => ?_⟩
      · obtain ⟨b, hb⟩ := exists_byte (n := 255) (by decide)
        have := h b
        rw [hb, if_pos (by decide)] at this
        omega
      · have := b.isLt
        split <;> omega
    · have hb : boundaryByte .ugt (c.setWidth 8) = some (c.setWidth 8 + 1) := by
        simp [boundaryByte, lowByte_eq, h255]
      rw [answerRight_of_some hb, holds_wrapByte hm hw, lowByte_add_one]
      simp only [Rel.Compare, HighPartSuits]
      split <;> omega
  · rw [answerRight_of_some rfl, holds_wrapByte hm hw, hx]
    simp only [Rel.Compare, HighPartSuits]
    split <;> omega

/-- The signed relations. -/
theorem answerRight_signed (hm : 8 ≤ m) (hw : m ≤ w) (c : BitVec w) {rel : Rel}
    (hrel : rel ∈ [Rel.slt, .sle, .sgt, .sge]) :
    AnswerRight rel m w c ↔ HighPartSuits rel m w c := by
  have hx : (c.setWidth 8).toNat = c.toNat % 256 := BitVec.toNat_setWidth ..
  have hlow : c.toNat % 256 < 256 := Nat.mod_lt _ (by decide)
  have hfill := signedFill_cases m w
  simp only [List.mem_cons, List.not_mem_nil, or_false] at hrel
  rcases hrel with rfl | rfl | rfl | rfl
  · by_cases h128 : c.toNat % 256 = 128
    · have hb : boundaryByte .slt (c.setWidth 8) = none := by
        simp [boundaryByte, lowByte_eq, h128]
      rw [answerRight_of_none hb]
      simp only [holds_wrapByte hm hw, Rel.Compare, HighPartSuits]
      refine ⟨fun h => ?_, fun h b => ?_⟩
      · obtain ⟨b, hb⟩ := exists_byte (n := 128) (by decide)
        obtain ⟨b', hb'⟩ := exists_byte (n := 0) (by decide)
        have := h b
        have h' := h b'
        rw [hb, if_pos (by decide)] at this
        rw [hb', if_neg (by decide)] at h'
        omega
      · have := b.isLt
        split <;> omega
    · have hb : boundaryByte .slt (c.setWidth 8) = some (c.setWidth 8 - 1) := by
        simp [boundaryByte, lowByte_eq, h128]
      rw [answerRight_of_some hb, holds_wrapByte hm hw, lowByte_sub_one]
      simp only [Rel.Compare, HighPartSuits]
      split <;> omega
  · by_cases hmsb : 128 ≤ c.toNat % 256
    · have hb : boundaryByte .sle (c.setWidth 8) = none := by
        simp [boundaryByte, lowByte_msb, hmsb]
      rw [answerRight_of_none hb]
      simp only [holds_wrapByte hm hw, Rel.Compare, HighPartSuits]
      refine ⟨fun h => ?_, fun h b => ?_⟩
      · obtain ⟨b, hb⟩ := exists_byte (n := 128) (by decide)
        obtain ⟨b', hb'⟩ := exists_byte (n := 0) (by decide)
        have := h b
        have h' := h b'
        rw [hb, if_pos (by decide)] at this
        rw [hb', if_neg (by decide)] at h'
        omega
      · have := b.isLt
        split <;> omega
    · have hb : boundaryByte .sle (c.setWidth 8) = some (c.setWidth 8) := by
        simp [boundaryByte, lowByte_msb, hmsb]
      rw [answerRight_of_some hb, holds_wrapByte hm hw, hx]
      simp only [Rel.Compare, HighPartSuits]
      split <;> omega
  · by_cases h127 : c.toNat % 256 = 127
    · have hb : boundaryByte .sgt (c.setWidth 8) = none := by
        simp [boundaryByte, lowByte_eq, h127]
      rw [answerRight_of_none hb]
      simp only [holds_wrapByte hm hw, Rel.Compare, HighPartSuits]
      refine ⟨fun h => ?_, fun h b => ?_⟩
      · obtain ⟨b, hb⟩ := exists_byte (n := 255) (by decide)
        obtain ⟨b', hb'⟩ := exists_byte (n := 127) (by decide)
        have := h b
        have h' := h b'
        rw [hb, if_pos (by decide)] at this
        rw [hb', if_neg (by decide)] at h'
        omega
      · have := b.isLt
        split <;> omega
    · have hb : boundaryByte .sgt (c.setWidth 8) = some (c.setWidth 8 + 1) := by
        simp [boundaryByte, lowByte_eq, h127]
      rw [answerRight_of_some hb, holds_wrapByte hm hw, lowByte_add_one]
      simp only [Rel.Compare, HighPartSuits]
      split <;> omega
  · by_cases hmsb : 128 ≤ c.toNat % 256
    · have hb : boundaryByte .sge (c.setWidth 8) = none := by
        simp [boundaryByte, lowByte_msb, hmsb]
      rw [answerRight_of_none hb]
      simp only [holds_wrapByte hm hw, Rel.Compare, HighPartSuits]
      refine ⟨fun h => ?_, fun h b => ?_⟩
      · obtain ⟨b, hb⟩ := exists_byte (n := 255) (by decide)
        obtain ⟨b', hb'⟩ := exists_byte (n := 127) (by decide)
        have := h b
        have h' := h b'
        rw [hb, if_pos (by decide)] at this
        rw [hb', if_neg (by decide)] at h'
        omega
      · have := b.isLt
        split <;> omega
    · have hb : boundaryByte .sge (c.setWidth 8) = some (c.setWidth 8) := by
        simp [boundaryByte, lowByte_msb, hmsb]
      rw [answerRight_of_some hb, holds_wrapByte hm hw, hx]
      simp only [Rel.Compare, HighPartSuits]
      split <;> omega

theorem answerRight_iff (hm : 8 ≤ m) (hw : m ≤ w) (rel : Rel) (c : BitVec w) :
    AnswerRight rel m w c ↔ HighPartSuits rel m w c := by
  cases rel with
  | eq | ne | ult | ule | ugt | uge => exact answerRight_unsigned hm hw c (by decide)
  | slt | sle | sgt | sge => exact answerRight_signed hm hw c (by decide)

end Arithmetic

section Shapes
variable {dag : ExprDag}

/-- The variable `input_b<index>` under extensions to `w` bits, the first of them to `m` bits by
signs. -/
inductive ExprDag.WrapsByte (dag : ExprDag) (index : Nat) : NodeId → Nat → Nat → Prop
  | var {id : NodeId} {name : SymbolId} : dag.tryGet id = some (.var name (.bv 8)) →
      dag.symbolName name = some s!"input_b{index}" → WrapsByte dag index id 8 8
  | zeroExt {id value : NodeId} {extra m w : Nat} :
      dag.tryGet id = some (.zeroExt extra value) → WrapsByte dag index value m w →
      WrapsByte dag index id m (w + extra)
  | signExt {id value : NodeId} {extra m w : Nat} :
      dag.tryGet id = some (.signExt extra value) → WrapsByte dag index value m w →
      WrapsByte dag index id (if m = w then w + extra else m) (w + extra)

/-- A comparison, possibly under one `Not`. -/
inductive ExprDag.Compares (dag : ExprDag) : NodeId → Bool → Rel → NodeId → NodeId → Prop
  | plain {id lhs rhs : NodeId} {e : Expr} {rel : Rel} : dag.tryGet id = some e →
      relationParts e = .ok (rel, lhs, rhs) → Compares dag id false rel lhs rhs
  | not {id inner lhs rhs : NodeId} {e : Expr} {rel : Rel} : dag.tryGet id = some (.not inner) →
      dag.tryGet inner = some e → relationParts e = .ok (rel, lhs, rhs) →
      Compares dag id true rel lhs rhs

/-- A comparison of a wrapped input byte with a constant, which is on the left if `swapped`. -/
def ExprDag.ComparesByte (dag : ExprDag) (id : NodeId) (negated swapped : Bool) (rel : Rel)
    (index m w : Nat) (value : BitVec 128) : Prop :=
  ∃ byteId constId bits, dag.WrapsByte index byteId m w ∧
    dag.tryGet constId = some (.bvConst value bits) ∧
    dag.Compares id negated rel (if swapped then constId else byteId)
      (if swapped then byteId else constId)

/-- The relation asserted of the byte and the constant, in this order. -/
def assertedRel (wantTaken negated swapped : Bool) (rel : Rel) : Rel :=
  let rel := if wantTaken = negated then rel.invert else rel
  if swapped then rel.mirror else rel

theorem ExprDag.WrapsByte.bounds {index : Nat} {id : NodeId} {m w : Nat}
    (h : dag.WrapsByte index id m w) : 8 ≤ m ∧ m ≤ w := by
  induction h with
  | var => exact ⟨Nat.le_refl _, Nat.le_refl _⟩
  | zeroExt _ _ ih => omega
  | signExt _ _ ih => split <;> omega

theorem wrapByte_self (b : BitVec 8) : wrapByte 8 8 b = b := by
  simp [wrapByte, BitVec.signExtend_eq]

theorem wrapByte_zeroExtend {m w : Nat} (hm : 8 ≤ m) (hw : m ≤ w) (extra : Nat) (b : BitVec 8) :
    (wrapByte m w b).zeroExtend (w + extra) = wrapByte m (w + extra) b := by
  refine BitVec.eq_of_toNat_eq ?_
  have h := wrapByte_toNat hm hw b
  have h' := wrapByte_toNat hm (Nat.le_add_right_of_le hw (k := extra)) b
  rw [BitVec.zeroExtend, BitVec.toNat_setWidth, Nat.mod_eq_of_lt]
  · omega
  · exact Nat.lt_of_lt_of_le (wrapByte m w b).isLt
      (Nat.pow_le_pow_right (by decide) (Nat.le_add_right w extra))

theorem wrapByte_signExtend {m w : Nat} (hm : 8 ≤ m) (hw : m ≤ w) (extra : Nat) (b : BitVec 8) :
    (wrapByte m w b).signExtend (w + extra) =
      wrapByte (if m = w then w + extra else m) (w + extra) b := by
  refine BitVec.eq_of_toInt_eq ?_
  have h := wrapByte_toInt hm hw b
  rw [BitVec.toInt_signExtend_of_le (Nat.le_add_right w extra), h,
    wrapByte_toInt (by split <;> omega) (by split <;> omega)]
  unfold signedFill
  by_cases hmw : m = w
  · simp [hmw]
  · have hne : m ≠ w + extra := by omega
    simp [hmw, hne]

theorem ExprDag.WrapsByte.evaluates {index : Nat} {id : NodeId} {m w : Nat}
    (h : dag.WrapsByte index id m w) : ∃ name, dag.symbolName name = some s!"input_b{index}" ∧
      ∀ σ : Assignment SymbolId, dag.Evaluates σ id (.bv w (wrapByte m w (σ name (.bv 8)))) := by
  induction h with
  | @var id name he hname =>
    refine ⟨name, hname, fun σ => DagFold.Folds.iff.mpr ⟨_, [], he, .nil, ?_⟩⟩
    rw [wrapByte_self]
    rfl
  | @zeroExt id value extra m w he hv ih =>
    obtain ⟨name, hname, hσ⟩ := ih
    refine ⟨name, hname, fun σ =>
      DagFold.Folds.iff.mpr ⟨_, [_], he, .cons (hσ σ) .nil, ?_⟩⟩
    rw [← wrapByte_zeroExtend hv.bounds.1 hv.bounds.2]
    rfl
  | @signExt id value extra m w he hv ih =>
    obtain ⟨name, hname, hσ⟩ := ih
    refine ⟨name, hname, fun σ =>
      DagFold.Folds.iff.mpr ⟨_, [_], he, .cons (hσ σ) .nil, ?_⟩⟩
    rw [← wrapByte_signExtend hv.bounds.1 hv.bounds.2]
    rfl

theorem parseInputByteVarName_input (i : Nat) :
    parseInputByteVarName s!"input_b{i}" = if i < 2 ^ 32 then some i else none := by
  have hprefix : "input_b".toList.isPrefixOf? (s!"input_b{i}").toList =
      some (Nat.toDigits 10 i) := by
    rw [List.isPrefixOf?_eq_some_iff_append_eq]
    simp only [String.toList_append, Nat.toString_eq_ofList_toDigits, String.toList_ofList]
    rfl
  rw [parseInputByteVarName, hprefix, Option.bind_some, parseU32_toDigits]

theorem ExprDag.classifyStep_local (dag : ExprDag) : DagFold.Local dag.classifyStep dag.succ := by
  intro f g id h
  cases he : dag.tryGet id with
  | none => simp [classifyStep, he]
  | some e =>
    rw [ExprDag.succ_eq he] at h
    cases e <;> simp_all [classifyStep, childrenOf]

theorem ExprDag.classifySide_eq (hd : dag.Acyclic) (id : NodeId) :
    dag.classifySide id = dag.classifyStep dag.classifySide id :=
  DagFold.unroll_fix dag.classifyStep_local ExprDag.lt_of_succ_ne_nil hd id

theorem ExprDag.WrapsByte.sortOf_width {index : Nat} {id : NodeId} {m w : Nat} (hd : dag.Acyclic)
    (h : dag.WrapsByte index id m w) (hw : w < 2 ^ 32) : dag.sortOf id = .ok (.bv w) := by
  induction h with
  | var he _ => rw [ExprDag.sortOf_eq hd, ExprDag.sortOfStep, he]
  | zeroExt he _ ih | signExt he _ ih =>
    rw [ExprDag.sortOf_eq hd, ExprDag.sortOfStep, he]
    simp only [ih (by omega), bind, Except.bind, orNone, bvWidth, addU32, if_pos hw, pure,
      Except.pure]

/-- The extensions are seen through, whatever they are. -/
theorem ExprDag.WrapsByte.classifySide_byte {index : Nat} {id : NodeId} {m w : Nat} (hd : dag.Acyclic)
    (h : dag.WrapsByte index id m w) (hw : w < 2 ^ 32) :
    dag.classifySide id =
      some (if index < 2 ^ 32 then .inputByte index w else .other) := by
  have hsort := h.sortOf_width hd hw
  induction h with
  | var he hname =>
    rw [ExprDag.classifySide_eq hd, ExprDag.classifyStep, he]
    simp only [hname, bind, Option.bind_some, parseInputByteVarName_input]
    by_cases hi : index < 2 ^ 32
    · rw [if_pos hi, if_pos hi]
    · rw [if_neg hi, if_neg hi]
  | zeroExt he hv ih | signExt he hv ih =>
    rw [ExprDag.classifySide_eq hd, ExprDag.classifyStep, he]
    simp only [ih (by omega) (hv.sortOf_width hd (by omega)), bind, Option.bind_some, hsort]
    by_cases hi : index < 2 ^ 32
    · rw [if_pos hi, if_pos hi]
    · rw [if_neg hi, if_neg hi]

theorem Rel.invert_holds {w : Nat} (rel : Rel) (x y : BitVec w) :
    rel.invert.holds x y = !rel.holds x y := by
  cases rel <;> simp only [Rel.invert, Rel.holds, BitVec.ult, BitVec.ule, BitVec.slt, BitVec.sle,
    Bool.not_not] <;> grind

theorem Rel.mirror_holds {w : Nat} (rel : Rel) (x y : BitVec w) :
    rel.mirror.holds x y = rel.holds y x := by
  cases rel <;> simp only [Rel.mirror, Rel.holds] <;> grind

/-- What the five comparisons mean. -/
theorem ExprDag.evaluates_comparison {σ : Assignment SymbolId} {id lhs rhs : NodeId} {e : Expr}
    {rel : Rel} (he : dag.tryGet id = some e) (hrel : relationParts e = .ok (rel, lhs, rhs))
    {w : Nat} {x y : BitVec w} (hx : dag.Evaluates σ lhs (.bv w x))
    (hy : dag.Evaluates σ rhs (.bv w y)) : dag.Evaluates σ id (.bool (rel.holds x y)) := by
  cases e <;> simp only [relationParts, Except.ok.injEq, Prod.mk.injEq, reduceCtorEq] at hrel <;>
    obtain ⟨rfl, rfl, rfl⟩ := hrel
  all_goals
    refine DagFold.Folds.iff.mpr ⟨_, [_, _], he, .cons hx (.cons hy .nil), ?_⟩
    simp [evalAlg, Expr.op, Smt.Op.apply, Value.equal, Smt.BvCmp.den, Rel.holds]

theorem ExprDag.comparison_sorts {id lhs rhs : NodeId} {e : Expr} {rel : Rel}
    (he : dag.tryGet id = some e) (hrel : relationParts e = .ok (rel, lhs, rhs)) {s : SmtSort}
    (hs : dag.HasSort id s) : ∃ t, dag.HasSort lhs t ∧ dag.HasSort rhs t := by
  obtain ⟨e', ss, he', hss, hs⟩ := DagFold.Folds.iff.mp hs
  rw [he, Option.some.injEq] at he'
  subst he'
  -- all five are operators on two operands of one sort
  have hpair : ∃ t, ss = [t, t] ∧ childrenOf e = [lhs, rhs] := by
    unfold sortAlg at hs
    cases e <;> simp only [relationParts, Except.ok.injEq, Prod.mk.injEq, reduceCtorEq] at hrel <;>
      obtain ⟨rfl, rfl, rfl⟩ := hrel <;>
      simp only [Expr.op, Option.filter_eq_some_iff, Smt.Op.sort_eq_iff, Smt.Op.sort_cmp_iff] at hs
    · obtain ⟨⟨⟨t, ht⟩, -⟩, -⟩ := hs
      exact ⟨t, ht, rfl⟩
    all_goals
      obtain ⟨⟨⟨w, ht⟩, -⟩, -⟩ := hs
      exact ⟨.bv w, ht, rfl⟩
  obtain ⟨t, rfl, hch⟩ := hpair
  rw [hch] at hss
  cases hss with
  | cons hl hss =>
    cases hss with
    | cons hr _ => exact ⟨t, hl, hr⟩

theorem ExprDag.Compares.sorts {id lhs rhs : NodeId} {negated : Bool} {rel : Rel}
    (hc : dag.Compares id negated rel lhs rhs) {s : SmtSort} (hs : dag.HasSort id s) :
    ∃ t, dag.HasSort lhs t ∧ dag.HasSort rhs t := by
  cases hc with
  | plain he hrel => exact comparison_sorts he hrel hs
  | not hn he hrel =>
    obtain ⟨t, ht⟩ := hs.of_reaches (.of_child hn (List.mem_singleton.mpr rfl) (.refl _))
    exact comparison_sorts he hrel ht

theorem ExprDag.Compares.gives_iff {σ : Assignment SymbolId} {id lhs rhs : NodeId}
    {negated : Bool} {rel : Rel} (hc : dag.Compares id negated rel lhs rhs) {w : Nat}
    {x y : BitVec w} (hx : dag.Evaluates σ lhs (.bv w x)) (hy : dag.Evaluates σ rhs (.bv w y))
    (b : Bool) : dag.Gives σ id b ↔ (rel.holds x y).xor negated = b := by
  have hv : dag.Evaluates σ id (.bool ((rel.holds x y).xor negated)) := by
    cases hc with
    | plain he hrel => simpa using evaluates_comparison he hrel hx hy
    | not hn he hrel =>
      refine DagFold.Folds.iff.mpr ⟨_, [_], hn, .cons (evaluates_comparison he hrel hx hy) .nil, ?_⟩
      simp [evalAlg, Expr.op, Smt.Op.apply]
  constructor
  · intro h
    simpa using hv.unique h
  · rintro rfl
    exact hv

theorem ExprDag.WrapsByte.eq_of_hasSort {index : Nat} {id : NodeId} {m w : Nat}
    (h : dag.WrapsByte index id m w) {s : SmtSort} (hs : dag.HasSort id s) : s = .bv w := by
  obtain ⟨name, -, hσ⟩ := h.evaluates
  obtain ⟨v, hv, rfl⟩ := hs.evaluates default
  rw [hv.unique (hσ default), Value.sort_bv]

theorem ExprDag.HasSort.bvConst {id : NodeId} {value : BitVec 128} {bits w : Nat}
    (he : dag.tryGet id = some (.bvConst value bits)) (hs : dag.HasSort id (.bv w)) :
    bits = w ∧ w ≤ 128 ∧ value.toNat < 2 ^ w := by
  obtain ⟨e', ss, he', hss, hs⟩ := DagFold.Folds.iff.mp hs
  rw [he, Option.some.injEq] at he'
  subst he'
  simp only [sortAlg, Expr.op, Expr.leafSort, Option.ite_none_right_eq_some, Option.some.injEq,
    SmtSort.bv.injEq] at hs
  obtain ⟨⟨-, h128, hlt⟩, rfl⟩ := hs
  exact ⟨rfl, h128, hlt⟩

/-- The constant of a well-sorted comparison is as wide as the wrapped byte. -/
theorem ExprDag.ComparesByte.parts {id : NodeId} {negated swapped : Bool} {rel : Rel}
    {index m w : Nat} {value : BitVec 128}
    (hc : dag.ComparesByte id negated swapped rel index m w value) (hs : dag.HasSort id .bool) :
    ∃ byteId constId, dag.WrapsByte index byteId m w ∧
      dag.tryGet constId = some (.bvConst value w) ∧ w ≤ 128 ∧
      dag.Compares id negated rel (if swapped then constId else byteId)
        (if swapped then byteId else constId) := by
  obtain ⟨byteId, constId, bits, hwrap, hconst, hcmp⟩ := hc
  have hsort : dag.HasSort constId (.bv w) := by
    obtain ⟨t, hl, hr⟩ := hcmp.sorts hs
    cases swapped with
    | false => exact hwrap.eq_of_hasSort hl ▸ hr
    | true => exact hwrap.eq_of_hasSort hr ▸ hl
  obtain ⟨rfl, h128, -⟩ := hsort.bvConst hconst
  exact ⟨byteId, constId, hwrap, hconst, h128, hcmp⟩

/-- What the target asserts of the byte. -/
theorem ExprDag.ComparesByte.gives_iff {id : NodeId} {negated swapped : Bool} {rel : Rel}
    {index m w : Nat} {value : BitVec 128}
    (hc : dag.ComparesByte id negated swapped rel index m w value) (hs : dag.HasSort id .bool) :
    ∃ name, dag.symbolName name = some s!"input_b{index}" ∧
      ∀ (σ : Assignment SymbolId) (wantTaken : Bool), dag.Gives σ id wantTaken ↔
        (assertedRel wantTaken negated swapped rel).holds (wrapByte m w (σ name (.bv 8)))
          (BitVec.ofNat w value.toNat) = true := by
  obtain ⟨byteId, constId, hwrap, hconst, -, hcmp⟩ := hc.parts hs
  obtain ⟨name, hname, hσ⟩ := hwrap.evaluates
  refine ⟨name, hname, fun σ wantTaken => ?_⟩
  have hx := hσ σ
  have hy : dag.Evaluates σ constId (.bv w (BitVec.ofNat w value.toNat)) :=
    DagFold.Folds.iff.mpr ⟨_, [], hconst, .nil, rfl⟩
  unfold assertedRel
  cases swapped with
  | false =>
    rw [hcmp.gives_iff hx hy]
    cases wantTaken <;> cases negated <;> simp [Rel.invert_holds]
  | true =>
    rw [hcmp.gives_iff hy hx]
    cases wantTaken <;> cases negated <;> simp [Rel.invert_holds, Rel.mirror_holds]

theorem ExprDag.Compares.relationOf_target {query : BranchQuery} {lhs rhs : NodeId} {negated : Bool}
    {rel : Rel} (hc : dag.Compares query.targetBranch negated rel lhs rhs) :
    dag.relationOf (resolvedTarget query) =
      .ok (if query.wantTaken = negated then rel.invert else rel, lhs, rhs) := by
  have hplain : ∀ e, relationParts e = .ok (rel, lhs, rhs) → ∀ n,
      dag.stripNot e n = .ok (e, n) := by
    intro e hrel n
    cases e <;> first | rfl | cases hrel
  cases hc with
  | plain he hrel =>
    cases hw : query.wantTaken <;>
      simp [ExprDag.relationOf, resolvedTarget, hw, getOrInvalid, he, hplain _ hrel, hrel, bind,
        Except.bind, pure, Except.pure]
  | not hn he hrel =>
    cases hw : query.wantTaken <;>
      simp [ExprDag.relationOf, resolvedTarget, hw, getOrInvalid, hn, he, stripNot, hrel, bind,
        Except.bind, pure, Except.pure]

/-- What tier 1 makes of the target. -/
theorem ExprDag.ComparesByte.solveTrivial_target {query : BranchQuery} {negated swapped : Bool}
    {rel : Rel} {index m w : Nat} {value : BitVec 128} (hd : dag.Acyclic)
    (hc : dag.ComparesByte query.targetBranch negated swapped rel index m w value)
    (hs : dag.HasSort query.targetBranch .bool) :
    solveTrivial dag (resolvedTarget query) query.inputBytes = some
      (if 2 ^ 32 ≤ index then .error "unsupported_feature"
      else if query.inputBytes ≤ index then .error "byte_index_out_of_range"
      else .ok ((boundaryByte (assertedRel query.wantTaken negated swapped rel)
          ((BitVec.ofNat w value.toNat).setWidth 8)).elim .unsat
        fun b => .sat ((List.replicate query.inputBytes 0).set index b))) := by
  obtain ⟨byteId, constId, hwrap, hconst, h128, hcmp⟩ := hc.parts hs
  have hbyte := hwrap.classifySide_byte hd (by omega)
  have hconstKind : dag.classifySide constId = some (.const value w) := by
    rw [ExprDag.classifySide_eq hd, ExprDag.classifyStep, hconst]
  have hlow : (BitVec.ofNat w value.toNat).setWidth 8 = value.setWidth 8 := by
    have := hwrap.bounds
    refine BitVec.eq_of_toNat_eq ?_
    rw [BitVec.toNat_setWidth, BitVec.toNat_setWidth, BitVec.toNat_ofNat, two_pow_split (by omega)]
    exact Nat.mod_mul_right_mod ..
  have hflip : ∀ rel', (if swapped then flipConstVar rel' value else flipVarConst rel' value) =
      boundaryByte (if swapped then rel'.mirror else rel') (value.setWidth 8) := by
    intro rel'
    cases swapped
    · exact flipVarConst_eq rel' value
    · exact (flipConstVar_eq rel' value).trans (flipVarConst_eq _ _)
  have hfound : dag.byteComparison (resolvedTarget query) = some (if 2 ^ 32 ≤ index then
      .error "unsupported_feature" else .ok ⟨if query.wantTaken = negated then rel.invert else rel,
        index, value, swapped⟩) := by
    unfold ExprDag.byteComparison
    rw [hcmp.relationOf_target]
    by_cases hi : index < 2 ^ 32
    · rw [if_pos hi] at hbyte
      rw [if_neg (show ¬ 2 ^ 32 ≤ index by omega)]
      cases swapped <;>
        simp [hbyte, hconstKind, matchSides, checkWidths, bind, Except.bind, Except.map, pure,
          Except.pure]
    · rw [if_neg hi] at hbyte
      rw [if_pos (show 2 ^ 32 ≤ index by omega)]
      cases swapped <;>
        simp [hbyte, hconstKind, matchSides, bind, Except.bind]
  unfold solveTrivial
  rw [hfound, hlow]
  by_cases hi : 2 ^ 32 ≤ index
  · rw [if_pos hi, if_pos hi]
    rfl
  · rw [if_neg hi, if_neg hi]
    simp only [bind, Option.bind_some, Except.bind, flipComparison, hflip, assertedRel, ge_iff_le,
      pure]
    split
    · rfl
    · cases boundaryByte _ (value.setWidth 8) <;> rfl

/-- A `Sat` of tier 1 makes the asserted target true, and where it answers `Unsat` no input
does. -/
structure DecidesTarget (query : BranchQuery) (dag : ExprDag) : Prop where
  sat : ∀ model,
    solveTrivial dag (resolvedTarget query) query.inputBytes = some (.ok (.sat model)) →
    ∀ base, dag.Gives (byteAssignment dag model base) query.targetBranch query.wantTaken
  unsat : solveTrivial dag (resolvedTarget query) query.inputBytes = some (.ok .unsat) →
    ∀ σ, ¬ dag.Gives σ query.targetBranch query.wantTaken

theorem byteAssignment_input {model : List (BitVec 8)} {base : Assignment SymbolId}
    {name : SymbolId} {i : Nat} (h : dag.symbolName name = some s!"input_b{i}") :
    byteAssignment dag model base name (.bv 8) = model.getD i 0 := by
  have hi : (dag.symbolName name).bind inputByteIndex = some i := by
    rw [h, Option.bind_some]
    exact inputByteIndex_eq_some.mpr rfl
  simp only [byteAssignment, hi, BitVec.setWidth_eq]

/-- Tier 1 decides a comparison of a wrapped input byte with a constant exactly where the part
of the constant above its low byte suits the asserted relation. -/
theorem decidesTarget_iff (query : BranchQuery) {negated swapped : Bool} {rel : Rel}
    {index m w : Nat} {value : BitVec 128} (hd : dag.Acyclic)
    (hs : dag.HasSort query.targetBranch .bool)
    (hc : dag.ComparesByte query.targetBranch negated swapped rel index m w value) :
    DecidesTarget query dag ↔ (index < query.inputBytes → index < 2 ^ 32 →
      HighPartSuits (assertedRel query.wantTaken negated swapped rel) m w
        (BitVec.ofNat w value.toNat)) := by
  have hanswer := hc.solveTrivial_target hd hs
  obtain ⟨name, hname, hgives⟩ := hc.gives_iff hs
  have htarget := fun σ => hgives σ query.wantTaken
  have hbounds : 8 ≤ m ∧ m ≤ w := by
    obtain ⟨_, _, hwrap, -⟩ := hc.parts hs
    exact hwrap.bounds
  rw [← answerRight_iff hbounds.1 hbounds.2]
  generalize assertedRel query.wantTaken negated swapped rel = asserted at hanswer htarget ⊢
  by_cases hi : 2 ^ 32 ≤ index
  · rw [if_pos hi] at hanswer
    refine ⟨fun _ _ h => by omega, fun _ => ⟨fun model h => ?_, fun h => ?_⟩⟩ <;>
      rw [hanswer] at h <;> cases h
  by_cases hin : query.inputBytes ≤ index
  · rw [if_neg hi, if_pos hin] at hanswer
    refine ⟨fun _ h => by omega, fun _ => ⟨fun model h => ?_, fun h => ?_⟩⟩ <;>
      rw [hanswer] at h <;> cases h
  rw [if_neg hi, if_neg hin] at hanswer
  have hbyte : ∀ (model : List (BitVec 8)) (base : Assignment SymbolId) (b : BitVec 8),
      model.getD index 0 = b → (dag.Gives (byteAssignment dag model base) query.targetBranch
        query.wantTaken ↔
        asserted.holds (wrapByte m w b) (BitVec.ofNat w value.toNat) = true) := by
    rintro model base b rfl
    rw [htarget, byteAssignment_input hname]
  cases hb : boundaryByte asserted ((BitVec.ofNat w value.toNat).setWidth 8) with
  | none =>
    rw [hb, Option.elim_none] at hanswer
    rw [answerRight_of_none hb]
    constructor
    · intro h _ _ b hholds
      -- an input with this byte would make the target true
      refine h.unsat hanswer (byteAssignment dag (List.replicate index 0 ++ [b]) default) ?_
      refine (hbyte _ _ b ?_).mpr hholds
      simp [List.getD_eq_getElem?_getD]
    · intro h
      refine ⟨fun model hsat => ?_, fun _ σ hσ => ?_⟩
      · rw [hanswer] at hsat
        cases hsat
      · exact h (by omega) (by omega) _ ((htarget σ).mp hσ)
  | some b =>
    rw [hb, Option.elim_some] at hanswer
    rw [answerRight_of_some hb]
    have hmodel : ((List.replicate query.inputBytes 0).set index b).getD index 0 = b := by
      rw [List.getD_eq_getElem?_getD, List.getElem?_set_self (by simpa using by omega)]
      rfl
    constructor
    · intro h _ _
      exact (hbyte _ default b hmodel).mp (h.sat _ hanswer default)
    · intro h
      refine ⟨fun model hsat base => ?_, fun hunsat => ?_⟩
      · rw [hanswer] at hsat
        cases hsat
        exact (hbyte _ base b hmodel).mpr (h (by omega) (by omega))
      · rw [hanswer] at hunsat
        cases hunsat

/-- `zero_extend(input_b0) = value`, over 32 bits. -/
def zeroExtended (value : BitVec 128) : ExprDag :=
  let symbol := (ExprDag.new.internSymbol "input_b0").2
  let byte := (symbol.intern (.var 0 (.bv 8))).2
  let wide := (byte.intern (.zeroExt 24 0)).2
  let const := (wide.intern (.bvConst value 32)).2
  (const.intern (.eq 1 2)).2

def zeroExtendedQuery : BranchQuery := ⟨1, [], 3, true, 0, none⟩

theorem zeroExtended_comparesByte (value : BitVec 128) (h : (zeroExtended value).nodes =
      [.var 0 (.bv 8), .zeroExt 24 0, .bvConst value 32, .eq 1 2])
    (hname : (zeroExtended value).symbolName 0 = some s!"input_b{0}") :
    (zeroExtended value).ComparesByte 3 false false .eq 0 8 32 value := by
  have hget : ∀ id, (zeroExtended value).tryGet id = [Expr.var 0 (.bv 8), .zeroExt 24 0,
      .bvConst value 32, .eq 1 2][id]? := fun id => by rw [ExprDag.tryGet, h]
  have hbyte : (zeroExtended value).WrapsByte 0 0 8 8 := .var (hget 0) hname
  exact ⟨1, 2, 32, .zeroExt (hget 1) hbyte, hget 2, .plain (hget 3) rfl⟩

theorem decidesTarget_iff_zeroExtended : DecidesTarget zeroExtendedQuery (zeroExtended 0x41) := by
  refine (decidesTarget_iff zeroExtendedQuery (ExprDag.Ordered.acyclic (by decide))
    ⟨3, by decide⟩ (zeroExtended_comparesByte _ (by decide) (by decide))).mpr fun _ _ => ?_
  simp [HighPartSuits, assertedRel, zeroExtendedQuery]

/-- No byte is 0x141, but its low byte is answered. -/
theorem high_part_ignored : ¬ DecidesTarget zeroExtendedQuery (zeroExtended 0x141) := by
  intro h
  have hs : (zeroExtended 0x141).HasSort 3 .bool := ⟨3, by decide⟩
  obtain ⟨name, -, hgives⟩ :=
    (zeroExtended_comparesByte 0x141 (by decide) (by decide)).gives_iff hs
  have hsat := h.sat [0x41] (by decide) default
  have hbyte : ∀ b : BitVec 8, Rel.eq.holds (wrapByte 8 32 b) 0x141#32 = false := by
    decide
  exact Bool.false_ne_true ((hbyte _).symm.trans ((hgives _ true).mp hsat))

end Shapes

end Axe.Concolic
