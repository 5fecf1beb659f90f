import Mathlib.Algebra.Order.Ring.Nat
import Mathlib.Data.List.Basic

/-!
# Sorts, values and operators of SMT-LIB

The Core, FixedSizeBitVectors and ArraysEx theories as far as quantifier-free
bit-vector and array problems use them. An operator has a typing rule on the
sorts of its operands and a partial meaning on their values; `Op.sort_apply`
says that the meaning is defined exactly on well-typed operands and has the
sort the rule gives.
-/
namespace Smt

inductive SmtSort where
  | bool
  | bv (width : Nat)
  | array (indexBits valueBits : Nat)
  deriving DecidableEq, Repr

/-- `(_ BitVec 0)` is not a sort. -/
def SmtSort.Valid : SmtSort → Prop
  | .bool => True
  | .bv w => 0 < w
  | .array i v => 0 < i ∧ 0 < v

instance : DecidablePred SmtSort.Valid := fun s => by
  cases s <;> simp only [SmtSort.Valid] <;> infer_instance

@[reducible] def SmtSort.Carrier : SmtSort → Type
  | .bool => Bool
  | .bv w => BitVec w
  | .array i v => BitVec i → BitVec v

inductive Value where
  | bool (b : Bool)
  | bv (width : Nat) (x : BitVec width)
  | array (indexBits valueBits : Nat) (f : BitVec indexBits → BitVec valueBits)

def Value.sort : Value → SmtSort
  | .bool _ => .bool
  | .bv w _ => .bv w
  | .array i v _ => .array i v

def Value.of : (s : SmtSort) → s.Carrier → Value
  | .bool, b => .bool b
  | .bv w, x => .bv w x
  | .array i v, f => .array i v f

@[simp] theorem Value.sort_bool (b : Bool) : (Value.bool b).sort = .bool := rfl
@[simp] theorem Value.sort_bv (w : Nat) (x : BitVec w) : (Value.bv w x).sort = .bv w := rfl
@[simp] theorem Value.sort_array (i v : Nat) (f : BitVec i → BitVec v) :
    (Value.array i v f).sort = .array i v := rfl
@[simp] theorem Value.sort_of (s : SmtSort) (x : s.Carrier) : (Value.of s x).sort = s := by
  cases s <;> rfl

theorem Value.eq_bool_of_sort {v : Value} (h : v.sort = .bool) : ∃ b, v = .bool b := by
  cases v <;> simp_all [Value.sort]

/-- A value for every variable at every sort. -/
def Assignment (ι : Type) := ι → (s : SmtSort) → s.Carrier

instance {ι : Type} : Inhabited (Assignment ι) where
  default _ s := match s with
    | .bool => false
    | .bv w => 0#w
    | .array _ v => fun _ => 0#v

inductive BvBin where
  | add | sub | mul | and | or | xor | shl | lshr | ashr
  deriving DecidableEq, Repr

def BvBin.den {w : Nat} : BvBin → BitVec w → BitVec w → BitVec w
  | .add, x, y => x + y
  | .sub, x, y => x - y
  | .mul, x, y => x * y
  | .and, x, y => x &&& y
  | .or, x, y => x ||| y
  | .xor, x, y => x ^^^ y
  | .shl, x, y => x <<< y.toNat
  | .lshr, x, y => x >>> y.toNat
  | .ashr, x, y => x.sshiftRight y.toNat

inductive BvCmp where
  | ult | ule | slt | sle
  deriving DecidableEq, Repr

def BvCmp.den {w : Nat} : BvCmp → BitVec w → BitVec w → Bool
  | .ult, x, y => x.ult y
  | .ule, x, y => x.ule y
  | .slt, x, y => x.slt y
  | .sle, x, y => x.sle y

inductive Op where
  | not | and | or | eq
  | bin (o : BvBin)
  | cmp (o : BvCmp)
  | extract (hi lo : Nat)
  | concat
  | zeroExtend (extra : Nat)
  | signExtend (extra : Nat)
  | ite
  | select
  | store
  deriving DecidableEq, Repr

/-- The typing rule of an operator. -/
def Op.sort : Op → List SmtSort → Option SmtSort
  | .not, [.bool] => some .bool
  | .and, ss => if ∀ s ∈ ss, s = .bool then some .bool else none
  | .or, ss => if ∀ s ∈ ss, s = .bool then some .bool else none
  | .eq, [a, b] => if a = b then some .bool else none
  | .bin _, [.bv w, .bv w'] => if w = w' then some (.bv w) else none
  | .cmp _, [.bv w, .bv w'] => if w = w' then some .bool else none
  | .extract hi lo, [.bv w] => if lo ≤ hi ∧ hi < w then some (.bv (hi - lo + 1)) else none
  | .concat, [.bv w, .bv w'] => some (.bv (w + w'))
  | .zeroExtend k, [.bv w] => some (.bv (w + k))
  | .signExtend k, [.bv w] => some (.bv (w + k))
  | .ite, [.bool, a, b] => if a = b then some a else none
  | .select, [.array i v, .bv i'] => if i = i' then some (.bv v) else none
  | .store, [.array i v, .bv i', .bv v'] => if i = i' ∧ v = v' then some (.array i v) else none
  | _, _ => none

section Rules
variable {ss : List SmtSort} {s : SmtSort}

attribute [local simp] Op.sort

@[simp] theorem Op.sort_not_iff : Op.not.sort ss = some s ↔ ss = [.bool] ∧ s = .bool := by
  rcases ss with _ | ⟨_ | _ | _, _ | ⟨b, ss⟩⟩ <;> simp
  grind

@[simp] theorem Op.sort_and_iff : Op.and.sort ss = some s ↔ (∀ t ∈ ss, t = .bool) ∧ s = .bool := by
  simp
  grind

@[simp] theorem Op.sort_or_iff : Op.or.sort ss = some s ↔ (∀ t ∈ ss, t = .bool) ∧ s = .bool := by
  simp
  grind

@[simp] theorem Op.sort_eq_iff : Op.eq.sort ss = some s ↔ (∃ t, ss = [t, t]) ∧ s = .bool := by
  rcases ss with _ | ⟨a, _ | ⟨b, _ | ⟨c, ss⟩⟩⟩ <;> simp
  grind

@[simp] theorem Op.sort_bin_iff {o : BvBin} :
    (Op.bin o).sort ss = some s ↔ ∃ w, ss = [.bv w, .bv w] ∧ s = .bv w := by
  rcases ss with _ | ⟨_ | _ | _, _ | ⟨_ | _ | _, _ | ⟨c, ss⟩⟩⟩ <;> simp
  grind

@[simp] theorem Op.sort_cmp_iff {o : BvCmp} :
    (Op.cmp o).sort ss = some s ↔ (∃ w, ss = [.bv w, .bv w]) ∧ s = .bool := by
  rcases ss with _ | ⟨_ | _ | _, _ | ⟨_ | _ | _, _ | ⟨c, ss⟩⟩⟩ <;> simp
  grind

@[simp] theorem Op.sort_extract_iff {hi lo : Nat} : (Op.extract hi lo).sort ss = some s ↔
    ∃ w, ss = [.bv w] ∧ lo ≤ hi ∧ hi < w ∧ s = .bv (hi - lo + 1) := by
  rcases ss with _ | ⟨_ | _ | _, _ | ⟨b, ss⟩⟩ <;> simp
  grind

@[simp] theorem Op.sort_concat_iff :
    Op.concat.sort ss = some s ↔ ∃ w w', ss = [.bv w, .bv w'] ∧ s = .bv (w + w') := by
  rcases ss with _ | ⟨_ | _ | _, _ | ⟨_ | _ | _, _ | ⟨c, ss⟩⟩⟩ <;> simp
  grind

@[simp] theorem Op.sort_zeroExtend_iff {k : Nat} :
    (Op.zeroExtend k).sort ss = some s ↔ ∃ w, ss = [.bv w] ∧ s = .bv (w + k) := by
  rcases ss with _ | ⟨_ | _ | _, _ | ⟨b, ss⟩⟩ <;> simp
  grind

@[simp] theorem Op.sort_signExtend_iff {k : Nat} :
    (Op.signExtend k).sort ss = some s ↔ ∃ w, ss = [.bv w] ∧ s = .bv (w + k) := by
  rcases ss with _ | ⟨_ | _ | _, _ | ⟨b, ss⟩⟩ <;> simp
  grind

@[simp] theorem Op.sort_ite_iff : Op.ite.sort ss = some s ↔ ss = [.bool, s, s] := by
  rcases ss with _ | ⟨_ | _ | _, _ | ⟨b, _ | ⟨c, _ | ⟨d, ss⟩⟩⟩⟩ <;> simp
  grind

@[simp] theorem Op.sort_select_iff :
    Op.select.sort ss = some s ↔ ∃ i v, ss = [.array i v, .bv i] ∧ s = .bv v := by
  rcases ss with _ | ⟨_ | _ | _, _ | ⟨_ | _ | _, _ | ⟨c, ss⟩⟩⟩ <;> simp
  grind

@[simp] theorem Op.sort_store_iff :
    Op.store.sort ss = some s ↔ ∃ i v, ss = [.array i v, .bv i, .bv v] ∧ s = .array i v := by
  rcases ss with _ | ⟨_ | _ | _, _ | ⟨_ | _ | _, _ | ⟨_ | _ | _, _ | ⟨d, ss⟩⟩⟩⟩ <;>
    simp
  grind

end Rules

def Value.asBool : Value → Option Bool
  | .bool b => some b
  | _ => none

/-- Equality of two values of one sort; on arrays it is extensional. -/
def Value.equal : Value → Value → Option Bool
  | .bool a, .bool b => some (a == b)
  | .bv w x, .bv w' y => if h : w' = w then some (x == y.cast h) else none
  | .array i v f, .array i' v' g =>
    if h : i = i' ∧ v' = v then
      some (decide (∀ a, f a = (g (a.cast h.1)).cast h.2)) else none
  | _, _ => none

/-- The meaning of an operator, undefined on operands its typing rule rejects. -/
def Op.apply : Op → List Value → Option Value
  | .not, [.bool b] => some (.bool (!b))
  | .and, vs => (vs.mapM Value.asBool).map fun bs => .bool (bs.all id)
  | .or, vs => (vs.mapM Value.asBool).map fun bs => .bool (bs.any id)
  | .eq, [a, b] => (a.equal b).map .bool
  | .bin o, [.bv w x, .bv w' y] => if h : w' = w then some (.bv w (o.den x (y.cast h))) else none
  | .cmp o, [.bv w x, .bv w' y] => if h : w' = w then some (.bool (o.den x (y.cast h))) else none
  | .extract hi lo, [.bv w x] =>
    if lo ≤ hi ∧ hi < w then some (.bv (hi - lo + 1) (x.extractLsb' lo (hi - lo + 1))) else none
  | .concat, [.bv w x, .bv w' y] => some (.bv (w + w') (x ++ y))
  | .zeroExtend k, [.bv w x] => some (.bv (w + k) (x.zeroExtend (w + k)))
  | .signExtend k, [.bv w x] => some (.bv (w + k) (x.signExtend (w + k)))
  | .ite, [.bool c, a, b] => if a.sort = b.sort then some (if c then a else b) else none
  | .select, [.array i v f, .bv i' a] => if h : i' = i then some (.bv v (f (a.cast h))) else none
  | .store, [.array i v f, .bv i' a, .bv v' x] =>
    if h : i' = i ∧ v' = v then
      some (.array i v fun b => if b = a.cast h.1 then x.cast h.2 else f b) else none
  | _, _ => none

theorem mapM_asBool_isSome (vs : List Value) :
    (vs.mapM Value.asBool).isSome = true ↔ ∀ s ∈ vs.map Value.sort, s = .bool := by
  induction vs with
  | nil => simp
  | cons v vs ih =>
    rw [List.mapM_cons]
    cases v with
    | bool b =>
      cases h : vs.mapM Value.asBool <;> simp_all [Value.asBool]
    | bv w x => simp [Value.asBool]
    | array i v f => simp [Value.asBool]

theorem Value.equal_isSome (a b : Value) : (a.equal b).isSome = true ↔ a.sort = b.sort := by
  cases a <;> cases b <;> simp [Value.equal, Value.sort]
  · exact eq_comm
  · exact fun _ => eq_comm

theorem sort_connective (vs : List Value) (f : List Bool → Bool) :
    ((vs.mapM Value.asBool).map fun bs => Value.bool (f bs)).map Value.sort =
      if ∀ s ∈ vs.map Value.sort, s = .bool then some .bool else none := by
  have h := mapM_asBool_isSome vs
  cases hm : vs.mapM Value.asBool with
  | none => rw [if_neg (by rw [← h, hm]; simp)]; rfl
  | some bs => rw [if_pos (h.mp (by rw [hm]; rfl))]; rfl

/-- The meaning of an operator is defined exactly when its typing rule applies
to the sorts of the operands, and has the sort of the rule. -/
theorem Op.sort_apply (o : Op) (vs : List Value) :
    (o.apply vs).map Value.sort = o.sort (vs.map Value.sort) := by
  cases o with
  | and => exact sort_connective vs _
  | or => exact sort_connective vs _
  | eq =>
    rcases vs with _ | ⟨a, _ | ⟨b, _ | ⟨c, vs⟩⟩⟩ <;> try rfl
    have h := Value.equal_isSome a b
    simp only [apply, sort, List.map_cons, List.map_nil]
    cases he : a.equal b <;> simp_all
  | ite =>
    rcases vs with _ | ⟨c, _ | ⟨a, _ | ⟨b, _ | ⟨d, vs⟩⟩⟩⟩ <;> try rfl
    all_goals cases c <;> try rfl
    simp only [apply, sort, List.map_cons, List.map_nil, Value.sort_bool]
    split
    · split <;> simp_all
    · rfl
  | store =>
    rcases vs with _ | ⟨c, _ | ⟨a, _ | ⟨b, _ | ⟨d, vs⟩⟩⟩⟩ <;> try rfl
    all_goals cases c <;> try rfl
    all_goals cases a <;> try rfl
    all_goals cases b <;> try rfl
    simp only [apply, sort, List.map_cons, List.map_nil, Value.sort]
    split <;> split <;> simp_all
  | not => rcases vs with _ | ⟨a, _ | ⟨b, vs⟩⟩ <;> try rfl
           all_goals cases a <;> rfl
  | extract hi lo =>
    rcases vs with _ | ⟨a, _ | ⟨b, vs⟩⟩ <;> try rfl
    all_goals cases a <;> try rfl
    simp only [apply, sort, List.map_cons, List.map_nil, Value.sort_bv]
    split <;> rfl
  | zeroExtend k => rcases vs with _ | ⟨a, _ | ⟨b, vs⟩⟩ <;> try rfl
                    all_goals cases a <;> rfl
  | signExtend k => rcases vs with _ | ⟨a, _ | ⟨b, vs⟩⟩ <;> try rfl
                    all_goals cases a <;> rfl
  | concat =>
    rcases vs with _ | ⟨a, _ | ⟨b, _ | ⟨c, vs⟩⟩⟩ <;> try rfl
    all_goals cases a <;> try rfl
    all_goals cases b <;> rfl
  | bin o =>
    rcases vs with _ | ⟨a, _ | ⟨b, _ | ⟨c, vs⟩⟩⟩ <;> try rfl
    all_goals cases a <;> try rfl
    all_goals cases b <;> try rfl
    simp only [apply, sort, List.map_cons, List.map_nil, Value.sort_bv]
    split <;> split <;> simp_all
  | cmp o =>
    rcases vs with _ | ⟨a, _ | ⟨b, _ | ⟨c, vs⟩⟩⟩ <;> try rfl
    all_goals cases a <;> try rfl
    all_goals cases b <;> try rfl
    simp only [apply, sort, List.map_cons, List.map_nil, Value.sort_bv]
    split <;> split <;> simp_all
  | select =>
    rcases vs with _ | ⟨a, _ | ⟨b, _ | ⟨c, vs⟩⟩⟩ <;> try rfl
    all_goals cases a <;> try rfl
    all_goals cases b <;> try rfl
    simp only [apply, sort, List.map_cons, List.map_nil, Value.sort_bv, Value.sort_array]
    split <;> split <;> simp_all

/-- Well-typed operands have a value, of the sort the rule gives. -/
theorem Op.apply_of_sort {o : Op} {vs : List Value} {s : SmtSort}
    (h : o.sort (vs.map Value.sort) = some s) : ∃ v, o.apply vs = some v ∧ v.sort = s := by
  rw [← Op.sort_apply, Option.map_eq_some_iff] at h
  exact h

theorem Op.sort_of_apply {o : Op} {vs : List Value} {v : Value} (h : o.apply vs = some v) :
    o.sort (vs.map Value.sort) = some v.sort := by
  rw [← Op.sort_apply, h]
  rfl

end Smt
