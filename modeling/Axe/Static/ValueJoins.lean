import Mathlib.Data.List.Sort
import Mathlib.Data.Nat.ModEq
import Axe.Static.EdgeRefinement

/-!
# Joins of abstract values

The listed values of two arguments are put together. A few of them make a set, more of them an
interval between the least and the greatest with the common divisor of their distances.
-/
namespace Axe.Static

/-- The fields that tell values apart when states are compared. -/
structure ValueSignature where
  kind : Kind
  lo : Option Word
  hi : Option Word
  possibleValues : List Word
  targetVa : Option Word
  region : Region
  stride : Word
  deriving DecidableEq

def valueSignature (value : AbstractValue) : ValueSignature :=
  ⟨value.kind, value.lo, value.hi, value.possibleValues, value.targetVa, value.region, value.stride⟩

/-- The listed values, or else the bounds. -/
def possibleValues (value : AbstractValue) : List Word :=
  if value.possibleValues ≠ [] then value.possibleValues
  else match value.lo, value.hi with
    | some lo, some hi => if lo = hi then [lo] else [lo, hi]
    | _, _ => []

def gcd (left right : Word) : Word :=
  if right = 0 then left else gcd right (left % right)
termination_by right.val
decreasing_by
  rename_i h
  exact Nat.mod_lt _ (Nat.pos_of_ne_zero fun h0 => h (Fin.ext h0))

def strideStep (stride : Word) (pair : Word × Word) : Word :=
  let delta := pair.2.saturatingSub pair.1
  if stride = 0 then delta else gcd stride delta

def strideForValues (values : List Word) : Word :=
  let sorted := sortDedup values
  max ((sorted.zip sorted.tail).foldl strideStep 0) 1

def keepEqual {α : Type} [DecidableEq α] (left right other : α) : α :=
  if left = right then left else other

/-- The listed values of both arguments. -/
def listedValues (left right : AbstractValue) : List Word :=
  sortDedup (possibleValues left ++ possibleValues right)

/-- The join of two values that are told apart. -/
def mergedValue (left right : AbstractValue) : AbstractValue :=
  let values := listedValues left right
  { kind := if values.length ≤ 8 && 1 < values.length then .constantSet else .interval
    lo := values.min?.or (left.lo.toList ++ right.lo.toList).min?
    hi := values.max?.or (left.hi.toList ++ right.hi.toList).max?
    stride := strideForValues values
    value := none
    targetVa := keepEqual left.targetVa right.targetVa none
    evidence := sortDedup (left.evidence ++ right.evidence)
    confidence := .medium
    region := keepEqual left.region right.region .unknown
    expression := keepEqual left.expression right.expression none
    base := keepEqual left.base right.base none
    index := keepEqual left.index right.index none
    scale := keepEqual left.scale right.scale 0
    displacement := keepEqual left.displacement right.displacement 0
    possibleValues := values }

def joinValues (left right : AbstractValue) : AbstractValue :=
  if valueSignature left = valueSignature right then left else mergedValue left right

/-- The values of the transfer and refinement functions, and of the joins between them. -/
inductive Produced (strings : Strings) : AbstractValue → Prop
  | transfer {ins : IrInstruction} {regs : Registers} {stack : StackSlots} {value : AbstractValue} :
    (∀ reg source, regs.get reg = some source → Produced strings source) →
    (∀ slot source, stack.get slot = some source → Produced strings source) →
    valueForInstruction ins strings regs stack = some value → Produced strings value
  | evidence {value : AbstractValue} (address : Nat) :
    Produced strings value → Produced strings (withEvidence value address)
  | upper {value : AbstractValue} (hi : Word) (va : Nat) :
    Produced strings value → Produced strings (value.refineUpperBound hi va)
  | lower {value : AbstractValue} (lo : Word) (va : Nat) :
    Produced strings value → Produced strings (value.refineLowerBound lo va)
  | exact {value : AbstractValue} (x : Word) (va : Nat) :
    Produced strings value → Produced strings (value.refineExactValue x va)
  | join {left right : AbstractValue} : Produced strings left → Produced strings right →
    Produced strings (joinValues left right)

/-- The words that a value stands for: an interval has all steps between its bounds, the other
kinds list their members. -/
def AbstractValue.Describes (value : AbstractValue) (v : Word) : Prop :=
  if value.kind = .interval then
    ∃ lo hi, value.lo = some lo ∧ value.hi = some hi ∧ lo ≤ v ∧ v ≤ hi ∧
      v.val ≡ lo.val [MOD value.stride.val]
  else v ∈ value.possibleValues

structure AbstractValue.WellFormed (value : AbstractValue) : Prop where
  listed : value.possibleValues ≠ []
  bounds : value.kind = .interval → ∃ lo ∈ value.possibleValues, ∃ hi ∈ value.possibleValues,
    value.lo = some lo ∧ value.hi = some hi
  stride : 0 < value.stride.val

section Lists
variable {α : Type} [LinearOrder α] {xs ys : List α} {x : α}

theorem mem_sortDedup : x ∈ sortDedup xs ↔ x ∈ xs := by
  have h := SortedMap.exists_mem_ofList id xs x
  simpa [sortDedup] using h

theorem sorted_sortDedup : (sortDedup xs).Pairwise (· < ·) := SortedMap.sorted_ofList xs

theorem sortDedup_congr (h : ∀ x, x ∈ xs ↔ x ∈ ys) : sortDedup xs = sortDedup ys :=
  sorted_sortDedup.eq_of_mem_iff sorted_sortDedup fun x =>
    mem_sortDedup.trans ((h x).trans mem_sortDedup.symm)

end Lists

section Strides
variable {values : List Word} {x y : Word}

theorem val_gcd (left right : Word) : (gcd left right).val = Nat.gcd right.val left.val := by
  fun_induction gcd left right with
  | case1 left => rw [Fin.val_zero, Nat.gcd_zero_left]
  | case2 left right h ih => rw [ih, Fin.mod_val, Nat.gcd_rec right.val]

theorem val_strideStep (stride : Word) (pair : Word × Word) :
    (strideStep stride pair).val = Nat.gcd (pair.2.val - pair.1.val) stride.val := by
  rw [strideStep]
  split
  · rename_i h
    rw [h, Fin.val_zero, Nat.gcd_zero_right, Word.val_saturatingSub]
  · rw [val_gcd, Word.val_saturatingSub]

theorem foldl_strideStep_dvd (pairs : List (Word × Word)) (stride : Word) :
    (pairs.foldl strideStep stride).val ∣ stride.val ∧
      ∀ pair ∈ pairs, (pairs.foldl strideStep stride).val ∣ pair.2.val - pair.1.val := by
  induction pairs generalizing stride with
  | nil => exact ⟨dvd_rfl, fun _ h => absurd h List.not_mem_nil⟩
  | cons pair rest ih =>
    obtain ⟨hhead, hrest⟩ := ih (strideStep stride pair)
    rw [val_strideStep] at hhead
    refine ⟨hhead.trans (Nat.gcd_dvd_right _ _), fun other hother => ?_⟩
    rcases List.mem_cons.mp hother with rfl | hother
    · exact hhead.trans (Nat.gcd_dvd_left _ _)
    · exact hrest other hother

/-- Steps between neighbours are steps from the first. -/
theorem dvd_of_neighbours {d : Nat} {head : Word} {rest : List Word}
    (hsorted : (head :: rest).Pairwise (· < ·))
    (h : ∀ pair ∈ (head :: rest).zip rest, d ∣ pair.2.val - pair.1.val) :
    ∀ x ∈ head :: rest, d ∣ x.val - head.val := by
  induction rest generalizing head with
  | nil =>
    intro x hx
    rw [List.mem_singleton.mp hx, Nat.sub_self]
    exact dvd_zero d
  | cons second rest ih =>
    obtain ⟨hhead, hrest⟩ := List.pairwise_cons.mp hsorted
    have hlt : head.val < second.val := hhead second List.mem_cons_self
    intro x hx
    rcases List.mem_cons.mp hx with rfl | hx
    · rw [Nat.sub_self]
      exact dvd_zero d
    · have hx' := ih hrest (fun pair hpair => h pair (List.mem_cons_of_mem _ hpair)) x hx
      have hstep := h (head, second) List.mem_cons_self
      have hle : second.val ≤ x.val := by
        rcases List.mem_cons.mp hx with rfl | hx
        · exact le_rfl
        · exact ((List.pairwise_cons.mp hrest).1 x hx).le
      have hsum : x.val - head.val = (x.val - second.val) + (second.val - head.val) := by omega
      rw [hsum]
      exact Nat.dvd_add hx' hstep

theorem strideForValues_dvd (hx : x ∈ values) (hy : y ∈ values) (hmin : ∀ z ∈ values, y ≤ z) :
    (strideForValues values).val ∣ x.val - y.val := by
  have hy' : y ∈ sortDedup values := mem_sortDedup.mpr hy
  have hx' : x ∈ sortDedup values := mem_sortDedup.mpr hx
  have hsorted : (sortDedup values).Pairwise (· < ·) := sorted_sortDedup
  have hfold := foldl_strideStep_dvd ((sortDedup values).zip (sortDedup values).tail) 0
  rw [strideForValues]
  generalize ((sortDedup values).zip (sortDedup values).tail).foldl strideStep 0 = g at hfold ⊢
  cases hlist : sortDedup values with
  | nil =>
    rw [hlist] at hy'
    cases hy'
  | cons head rest =>
    rw [hlist] at hfold hsorted hx' hy'
    have hdvd := dvd_of_neighbours hsorted hfold.2 x hx'
    have hhead : head = y := by
      have hle : y ≤ head := hmin head (mem_sortDedup.mp (hlist ▸ List.mem_cons_self))
      rcases List.mem_cons.mp hy' with rfl | hy'
      · rfl
      · exact absurd hle (not_le.mpr ((List.pairwise_cons.mp hsorted).1 y hy'))
    rw [← hhead]
    rcases eq_or_ne g 0 with rfl | hne
    · exact (one_dvd _ : 1 ∣ _)
    · have hmax : max g 1 = g := max_eq_left (Fin.one_le_of_ne_zero hne)
      rwa [hmax]

theorem stride_pos : 0 < (strideForValues values).val := by
  have hle : (1 : Word) ≤ strideForValues values := le_max_right _ _
  exact hle

end Strides

namespace AbstractValue.WellFormed

variable {value source : AbstractValue} {x : Word} {va : Nat}

theorem of_singleton (h : value.possibleValues = [x]) (hlo : value.lo = some x)
    (hhi : value.hi = some x) (hs : 0 < value.stride.val) : value.WellFormed where
  listed := h ▸ List.cons_ne_nil _ _
  bounds _ := ⟨x, h ▸ List.mem_cons_self, x, h ▸ List.mem_cons_self, hlo, hhi⟩
  stride := hs

theorem constant (value : Word) (confidence : Confidence) (evidence : List Nat) :
    (constant value confidence evidence).WellFormed :=
  of_singleton rfl rfl rfl Nat.one_pos

theorem pointerOrConstant {target : Option Word} {strings : Strings}
    (h : pointerOrConstant target strings = some value) : value.WellFormed := by
  obtain ⟨target, _, rfl⟩ := Option.map_eq_some_iff.mp h
  split
  · exact of_singleton rfl rfl rfl Nat.one_pos
  · exact constant _ _ _

theorem pointerExpression {ins : IrInstruction} {regs : Registers} {strings : Strings}
    (h : pointerExpression ins regs strings = some value) : value.WellFormed := by
  rw [Static.pointerExpression] at h
  split at h
  · cases h
  · split at h
    · cases h
    · cases h
      exact of_singleton rfl rfl rfl Nat.one_pos

/-- Two words are listed, or one where they are equal, and the bounds are among them. -/
theorem of_pair {a b lo hi : Word} (h : value.possibleValues = if a = b then [a] else [a, b])
    (hlo : value.lo = some lo) (hhi : value.hi = some hi) (hlo' : lo = a ∨ lo = b)
    (hhi' : hi = a ∨ hi = b) (hs : 0 < value.stride.val) : value.WellFormed := by
  have hmem : ∀ w, w = a ∨ w = b → w ∈ value.possibleValues := by
    intro w hw
    rw [h]
    split
    · rename_i hab
      exact List.mem_singleton.mpr (hw.elim id fun h => h.trans hab.symm)
    · exact List.mem_pair.mpr hw
  exact ⟨List.ne_nil_of_mem (hmem lo hlo'), fun _ => ⟨lo, hmem lo hlo', hi, hmem hi hhi', hlo, hhi⟩,
    hs⟩

theorem masked (imm : Word) : (masked imm).WellFormed where
  listed := List.cons_ne_nil _ _
  bounds _ := ⟨0, List.mem_cons_self, imm, List.mem_cons_of_mem _ List.mem_cons_self, rfl, rfl⟩
  stride := Nat.one_pos

theorem arithmetic {op : String} (hs : source.WellFormed)
    (h : arithmetic source op x = some value) : value.WellFormed := by
  obtain ⟨lo, _, h⟩ := Option.bind_eq_some_iff.mp h
  obtain ⟨hi, _, rfl⟩ := Option.map_eq_some_iff.mp h
  exact ⟨List.cons_ne_nil _ _, fun _ => ⟨_, List.mem_cons_self, _,
    List.mem_cons_of_mem _ List.mem_cons_self, rfl, rfl⟩, hs.stride⟩

theorem shift {op : String} (hs : source.WellFormed) (h : shift source op x = some value) :
    value.WellFormed := by
  obtain ⟨lo, _, h⟩ := Option.bind_eq_some_iff.mp h
  obtain ⟨hi, _, h⟩ := Option.bind_eq_some_iff.mp h
  split at h
  · cases h
  · cases h
    refine ⟨List.cons_ne_nil _ _, fun _ => ⟨_, ?_, _, ?_, rfl, rfl⟩, hs.stride⟩
    · rcases min_choice (if op = "shl" then lo <<< x else lo >>> x)
        (if op = "shl" then hi <<< x else hi >>> x) with h | h <;> simp [h]
    · rcases max_choice (if op = "shl" then lo <<< x else lo >>> x)
        (if op = "shl" then hi <<< x else hi >>> x) with h | h <;> simp [h]

theorem upper (h : value.WellFormed) : (value.refineUpperBound x va).WellFormed :=
  of_pair rfl rfl rfl (min_choice _ _) (Or.inr rfl) h.stride

theorem lower (h : value.WellFormed) : (value.refineLowerBound x va).WellFormed :=
  of_pair rfl rfl rfl (min_choice _ _) (max_choice _ _).symm h.stride

theorem exact (h : value.WellFormed) : (value.refineExactValue x va).WellFormed :=
  of_singleton rfl rfl rfl h.stride

theorem possibleValues_eq (h : value.WellFormed) :
    Static.possibleValues value = value.possibleValues := if_pos h.listed

theorem mem_listedValues {left right : AbstractValue} (hl : left.WellFormed)
    (hr : right.WellFormed) :
    x ∈ listedValues left right ↔ x ∈ left.possibleValues ∨ x ∈ right.possibleValues := by
  rw [listedValues, mem_sortDedup, List.mem_append, hl.possibleValues_eq, hr.possibleValues_eq]

/-- The bounds of a merged value are the ends of the list. -/
theorem exists_ends {left right : AbstractValue} (hl : left.WellFormed) (hr : right.WellFormed) :
    ∃ lo ∈ listedValues left right, ∃ hi ∈ listedValues left right,
      (mergedValue left right).lo = some lo ∧ (mergedValue left right).hi = some hi ∧
      ∀ z ∈ listedValues left right, lo ≤ z ∧ z ≤ hi := by
  obtain ⟨z, hz⟩ := List.exists_mem_of_ne_nil _ hl.listed
  have hne : listedValues left right ≠ [] :=
    List.ne_nil_of_mem ((mem_listedValues hl hr).mpr (Or.inl hz))
  obtain ⟨lo, hlo⟩ := Option.isSome_iff_exists.mp (List.isSome_min?_of_ne_nil hne)
  obtain ⟨hi, hhi⟩ := Option.isSome_iff_exists.mp (List.isSome_max?_of_ne_nil hne)
  obtain ⟨hlomem, hmin⟩ := List.min?_eq_some_iff.mp hlo
  obtain ⟨himem, hmax⟩ := List.max?_eq_some_iff.mp hhi
  refine ⟨lo, hlomem, hi, himem, ?_, ?_, fun z hz => ⟨hmin z hz, hmax z hz⟩⟩
  · simp only [mergedValue, hlo, Option.some_or]
  · simp only [mergedValue, hhi, Option.some_or]

theorem join {left right : AbstractValue} (hl : left.WellFormed) (hr : right.WellFormed) :
    (joinValues left right).WellFormed := by
  obtain ⟨lo, hlo, hi, hhi, hmin, hmax, _⟩ := exists_ends hl hr
  rw [joinValues]
  split
  · exact hl
  · exact ⟨List.ne_nil_of_mem hlo, fun _ => ⟨lo, hlo, hi, hhi, hmin, hmax⟩, stride_pos⟩

theorem computed {ins : IrInstruction} {regs : Registers}
    (hread : ∀ source, firstRead ins regs = some source → source.WellFormed)
    (h : computedValue ins regs = some (some value)) : value.WellFormed := by
  rw [computedValue] at h
  split at h
  · cases h
    exact constant _ _ _
  · split at h
    · obtain ⟨source, hsource, h⟩ := Option.bind_eq_some_iff.mp h
      obtain ⟨imm, _, h⟩ := Option.map_eq_some_iff.mp h
      exact arithmetic (hread source hsource) h
    · split at h
      · obtain ⟨source, hsource, h⟩ := Option.bind_eq_some_iff.mp h
        obtain ⟨imm, _, h⟩ := Option.map_eq_some_iff.mp h
        exact shift (hread source hsource) h
      · split at h
        · obtain ⟨imm, _, h⟩ := Option.map_eq_some_iff.mp h
          cases h
          exact masked imm
        · cases h

theorem transfer {ins : IrInstruction} {strings : Strings} {regs : Registers} {stack : StackSlots}
    (hregs : ∀ reg source, regs.get reg = some source → source.WellFormed)
    (hstack : ∀ slot source, stack.get slot = some source → source.WellFormed)
    (h : valueForInstruction ins strings regs stack = some value) : value.WellFormed := by
  have hread : ∀ source, firstRead ins regs = some source → source.WellFormed := by
    intro source hsource
    obtain ⟨reg, _, hget⟩ := Option.bind_eq_some_iff.mp hsource
    exact hregs reg source hget
  rw [valueForInstruction] at h
  cases hcomputed : computedValue ins regs with
  | some result =>
    rw [hcomputed, Option.getD_some] at h
    subst h
    exact computed hread hcomputed
  | none =>
    rw [hcomputed, Option.getD_none] at h
    rcases Option.or_eq_some_iff.mp h with h | ⟨_, h⟩
    · exact pointerExpression (Option.ite_none_right_eq_some.mp h).2
    rcases Option.or_eq_some_iff.mp h with h | ⟨_, h⟩
    · exact pointerOrConstant h
    rcases Option.or_eq_some_iff.mp h with h | ⟨_, h⟩
    · exact pointerOrConstant (Option.ite_none_right_eq_some.mp h).2
    rcases Option.or_eq_some_iff.mp h with h | ⟨_, h⟩
    · obtain ⟨slot, _, hslot⟩ := Option.bind_eq_some_iff.mp (Option.ite_none_right_eq_some.mp h).2
      exact hstack slot value hslot
    · exact hread value h

theorem of_produced {strings : Strings} (h : Produced strings value) : value.WellFormed := by
  induction h with
  | transfer hregs hstack h ihregs ihstack => exact transfer ihregs ihstack h
  | evidence address _ ih =>
    rw [withEvidence]
    split
    · exact ih
    · exact ⟨ih.listed, ih.bounds, ih.stride⟩
  | upper hi va _ ih => exact ih.upper
  | lower lo va _ ih => exact ih.lower
  | exact x va _ ih => exact ih.exact
  | join _ _ ihl ihr => exact ihl.join ihr

end AbstractValue.WellFormed

/-- An interval goes into a list when it has no other member, or into the steps between the
ends of the list when it has one member at most or the steps are among its own. -/
def AbstractValue.JoinsInto (value : AbstractValue) (values : List Word) : Prop :=
  value.kind = .interval →
    if values.length ≤ 8 ∧ 1 < values.length then ∀ v, value.Describes v → v ∈ values
    else ∀ lo hi, value.lo = some lo → value.hi = some hi →
      hi.val < lo.val + value.stride.val ∨ (strideForValues values).val ∣ value.stride.val

section Joins
variable {strings : Strings} {left right value : AbstractValue} {v : Word}

theorem describes_congr (h : valueSignature left = valueSignature right) :
    left.Describes v ↔ right.Describes v := by
  simp only [valueSignature, ValueSignature.mk.injEq] at h
  obtain ⟨hkind, hlo, hhi, hvalues, _, _, hstride⟩ := h
  rw [AbstractValue.Describes, AbstractValue.Describes, hkind, hlo, hhi, hvalues, hstride]

theorem describes_of_interval {lo hi : Word} (hkind : value.kind = .interval)
    (hlo : value.lo = some lo) (hhi : value.hi = some hi) :
    value.Describes v ↔ lo ≤ v ∧ v ≤ hi ∧ value.stride.val ∣ v.val - lo.val := by
  rw [AbstractValue.Describes, if_pos hkind, hlo, hhi]
  constructor
  · rintro ⟨lo', hi', hlo', hhi', hle, hge, hmod⟩
    cases hlo'
    cases hhi'
    exact ⟨hle, hge, (Nat.modEq_iff_dvd' hle).mp hmod.symm⟩
  · rintro ⟨hle, hge, hdvd⟩
    exact ⟨lo, hi, rfl, rfl, hle, hge, ((Nat.modEq_iff_dvd' hle).mpr hdvd).symm⟩

theorem describes_set (hfew : (listedValues left right).length ≤ 8 ∧
    1 < (listedValues left right).length) :
    (mergedValue left right).Describes v ↔ v ∈ listedValues left right := by
  have hkind : (mergedValue left right).kind = .constantSet := by
    simp [mergedValue, hfew]
  rw [AbstractValue.Describes, hkind]
  exact Iff.rfl

theorem describes_interval (hl : left.WellFormed) (hr : right.WellFormed)
    (hmany : ¬ ((listedValues left right).length ≤ 8 ∧ 1 < (listedValues left right).length)) :
    (mergedValue left right).Describes v ↔
      ∃ lo ∈ listedValues left right, ∃ hi ∈ listedValues left right,
        (∀ z ∈ listedValues left right, lo ≤ z ∧ z ≤ hi) ∧ lo ≤ v ∧ v ≤ hi ∧
        (strideForValues (listedValues left right)).val ∣ v.val - lo.val := by
  have hkind : (mergedValue left right).kind = .interval := by
    simp [mergedValue, hmany]
  obtain ⟨least, hleast, greatest, hgreatest, hlo, hhi, hends⟩ :=
    AbstractValue.WellFormed.exists_ends hl hr
  rw [describes_of_interval hkind hlo hhi]
  constructor
  · rintro ⟨hle, hge, hdvd⟩
    exact ⟨least, hleast, greatest, hgreatest, hends, hle, hge, hdvd⟩
  · rintro ⟨lo, hlo, hi, hhi, hother, hle, hge, hdvd⟩
    have hlo' : least = lo := le_antisymm (hends lo hlo).1 (hother least hleast).1
    have hhi' : greatest = hi := le_antisymm (hother greatest hgreatest).2 (hends hi hhi).2
    rw [hlo', hhi']
    exact ⟨hle, hge, hdvd⟩

theorem describes_of_mem (hl : left.WellFormed) (hr : right.WellFormed)
    (h : v ∈ listedValues left right) : (mergedValue left right).Describes v := by
  by_cases hfew : (listedValues left right).length ≤ 8 ∧ 1 < (listedValues left right).length
  · exact (describes_set hfew).mpr h
  · obtain ⟨lo, hlo, hi, hhi, _, _, hends⟩ := AbstractValue.WellFormed.exists_ends hl hr
    refine (describes_interval hl hr hfew).mpr ⟨lo, hlo, hi, hhi, hends, (hends v h).1,
      (hends v h).2, ?_⟩
    exact strideForValues_dvd h hlo fun z hz => (hends z hz).1

theorem listedValues_comm (left right : AbstractValue) :
    listedValues left right = listedValues right left :=
  sortDedup_congr fun x => by rw [List.mem_append, List.mem_append, or_comm]

theorem mergedValue_comm (hl : left.WellFormed) (hr : right.WellFormed) :
    (mergedValue left right).Describes v ↔ (mergedValue right left).Describes v := by
  have hcomm := listedValues_comm left right
  by_cases hfew : (listedValues left right).length ≤ 8 ∧ 1 < (listedValues left right).length
  · rw [describes_set hfew, describes_set (hcomm ▸ hfew), hcomm]
  · rw [describes_interval hl hr hfew, describes_interval hr hl (hcomm ▸ hfew), hcomm]

/-- An interval with a member beside the ends is bounded by the steps of the list only. -/
theorem joinsInto_interval (hl : left.WellFormed) (hr : right.WellFormed) {lo hi : Word}
    (hkind : value.kind = .interval) (hlo : value.lo = some lo) (hhi : value.hi = some hi)
    (hmem : lo ∈ listedValues left right) (himem : hi ∈ listedValues left right)
    (hmany : ¬ ((listedValues left right).length ≤ 8 ∧ 1 < (listedValues left right).length)) :
    (∀ v, value.Describes v → (mergedValue left right).Describes v) ↔
      hi.val < lo.val + value.stride.val ∨
        (strideForValues (listedValues left right)).val ∣ value.stride.val := by
  obtain ⟨least, hleast, greatest, hgreatest, _, _, hends⟩ :=
    AbstractValue.WellFormed.exists_ends hl hr
  have hlow : (strideForValues (listedValues left right)).val ∣ lo.val - least.val :=
    strideForValues_dvd hmem hleast fun z hz => (hends z hz).1
  have hle0 : least.val ≤ lo.val := (hends lo hmem).1
  constructor
  · intro hkeep
    refine or_iff_not_imp_left.mpr fun hroom => ?_
    have hi_lt := hi.isLt
    obtain ⟨v, hv⟩ : ∃ v : Word, v.val = lo.val + value.stride.val :=
      ⟨⟨lo.val + value.stride.val, by omega⟩, rfl⟩
    have hin : value.Describes v := by
      refine (describes_of_interval hkind hlo hhi).mpr
        ⟨Fin.le_def.mpr (by omega), Fin.le_def.mpr (by omega), ?_⟩
      rw [hv, Nat.add_sub_cancel_left]
    obtain ⟨other, hother, _, _, hends', _, _, hdvd⟩ :=
      (describes_interval hl hr hmany).mp (hkeep v hin)
    have heq : other = least := le_antisymm (hends' least hleast).1 (hends other hother).1
    have hsum : v.val - least.val = (lo.val - least.val) + value.stride.val := by omega
    rw [heq, hsum] at hdvd
    exact (Nat.dvd_add_right hlow).mp hdvd
  · intro hstep v hv
    obtain ⟨hle, hge, hdvd⟩ := (describes_of_interval hkind hlo hhi).mp hv
    have hle' : lo.val ≤ v.val := hle
    rcases hstep with hroom | hstride
    · have hge' : v.val ≤ hi.val := hge
      have hzero := Nat.eq_zero_of_dvd_of_lt hdvd (by omega)
      have heq : v = lo := Fin.ext (by omega)
      exact heq ▸ describes_of_mem hl hr hmem
    · refine (describes_interval hl hr hmany).mpr ⟨least, hleast, greatest, hgreatest, hends,
        (hends lo hmem).1.trans hle, hge.trans (hends hi himem).2, ?_⟩
      rw [show v.val - least.val = (lo.val - least.val) + (v.val - lo.val) by omega]
      exact Nat.dvd_add hlow (hstride.trans hdvd)

theorem joinsInto_iff (hl : left.WellFormed) (hr : right.WellFormed) (hw : value.WellFormed)
    (hsub : ∀ x ∈ value.possibleValues, x ∈ listedValues left right) :
    (∀ v, value.Describes v → (mergedValue left right).Describes v) ↔
      value.JoinsInto (listedValues left right) := by
  by_cases hkind : value.kind = .interval
  · obtain ⟨lo, hlomem, hi, himem, hlo, hhi⟩ := hw.bounds hkind
    rw [AbstractValue.JoinsInto, forall_prop_of_true hkind]
    split
    · rename_i hfew
      exact forall₂_congr fun v _ => describes_set hfew
    · rename_i hmany
      rw [joinsInto_interval hl hr hkind hlo hhi (hsub lo hlomem) (hsub hi himem) hmany, hlo, hhi]
      simp only [Option.some.injEq]
      exact ⟨fun h _ _ hlo hhi => hlo ▸ hhi ▸ h, fun h => h lo hi rfl rfl⟩
  · refine iff_of_true (fun v hv => ?_) fun h => absurd h hkind
    rw [AbstractValue.Describes, if_neg hkind] at hv
    exact describes_of_mem hl hr (hsub v hv)

/-- A join bounds its arguments just when their intervals go into the listed values. -/
theorem joinValues_bound_iff (hl : Produced strings left) (hr : Produced strings right) :
    ((∀ v, left.Describes v ∨ right.Describes v → (joinValues left right).Describes v) ∧
      ∀ v, (joinValues left right).Describes v ↔ (joinValues right left).Describes v) ↔
    valueSignature left = valueSignature right ∨
      (left.JoinsInto (listedValues left right) ∧ right.JoinsInto (listedValues left right)) := by
  have hwl := AbstractValue.WellFormed.of_produced hl
  have hwr := AbstractValue.WellFormed.of_produced hr
  by_cases hsame : valueSignature left = valueSignature right
  · refine iff_of_true ⟨fun v hv => ?_, fun v => ?_⟩ (Or.inl hsame)
    · rw [joinValues, if_pos hsame]
      exact hv.elim id (describes_congr hsame).mpr
    · rw [joinValues, if_pos hsame, joinValues, if_pos hsame.symm]
      exact describes_congr hsame
  · have hjoin : joinValues left right = mergedValue left right := if_neg hsame
    have hjoin' : joinValues right left = mergedValue right left := if_neg (Ne.symm hsame)
    have hmem := fun x => AbstractValue.WellFormed.mem_listedValues (x := x) hwl hwr
    rw [or_iff_right hsame, hjoin, hjoin', and_iff_left fun v => mergedValue_comm hwl hwr,
      ← joinsInto_iff hwl hwr hwl fun x hx => (hmem x).mpr (Or.inl hx),
      ← joinsInto_iff hwl hwr hwr fun x hx => (hmem x).mpr (Or.inr hx)]
    simp only [or_imp, forall_and]

def immediateIns (mnemonic : String) (imm : Word) : IrInstruction :=
  { address := 0x1000, size := 5, mnemonic := mnemonic, writeReg := some "rax", readRegs := []
    immediate := some imm, ripTarget := none, stackSlot := none, memoryBase := none
    memoryIndex := none, memoryScale := 0, memoryDisplacement := 0, memoryWrite := false
    memoryRead := false, directTarget := none, isJump := false }

theorem produced_of_nothing {ins : IrInstruction}
    (h : valueForInstruction ins strings .empty .empty = some value) : Produced strings value :=
  .transfer (by simp) (by simp) h

theorem produced_masked (imm : Word) : Produced .empty (masked imm) :=
  have h : valueForInstruction (immediateIns "and" imm) .empty .empty .empty =
    some (masked imm) := rfl
  produced_of_nothing h

theorem produced_constant (imm : Word) : Produced .empty (constant imm .medium []) :=
  have h : valueForInstruction (immediateIns "mov" imm) .empty .empty .empty =
    some (constant imm .medium []) := rfl
  produced_of_nothing h

/-- A mask of one bit lists all of its values. -/
theorem joinValues_bound_bit :
    (∀ v, (masked 1).Describes v ∨ (constant 5 .medium []).Describes v →
        (joinValues (masked 1) (constant 5 .medium [])).Describes v) ∧
      ∀ v, (joinValues (masked 1) (constant 5 .medium [])).Describes v ↔
        (joinValues (constant 5 .medium []) (masked 1)).Describes v := by
  have hlist : listedValues (masked 1) (constant 5 .medium []) = [0, 1, 5] := by decide
  refine (joinValues_bound_iff (produced_masked 1) (produced_constant 5)).mpr (Or.inr ⟨?_, ?_⟩)
  · intro _
    rw [hlist, if_pos (by decide)]
    intro v hv
    have hle : v.val ≤ 1 := ((describes_of_interval rfl rfl rfl).mp hv).2.1
    rcases Nat.le_one_iff_eq_zero_or_eq_one.mp hle with h | h
    · exact List.mem_cons.mpr (Or.inl (Fin.ext h))
    · exact List.mem_cons_of_mem _ (List.mem_cons.mpr (Or.inl (Fin.ext h)))
  · exact fun h => nomatch h

/-- The values between zero and a mask of a hundred are lost beside a five. -/
theorem mask_collapses :
    Produced .empty (masked 100) ∧ Produced .empty (constant 5 .medium []) ∧
      (masked 100).Describes 1 ∧
      ¬ (joinValues (masked 100) (constant 5 .medium [])).Describes 1 := by
  have hlist : listedValues (masked 100) (constant 5 .medium []) = [0, 5, 100] := by decide
  have hmasked : (masked 100).Describes 1 :=
    (describes_of_interval rfl rfl rfl).mpr ⟨by decide, by decide, one_dvd _⟩
  refine ⟨produced_masked 100, produced_constant 5, hmasked, ?_⟩
  rw [joinValues, if_neg (by decide), describes_set (by rw [hlist]; decide), hlist]
  decide

end Joins

end Axe.Static
