import Axe.Concolic.Smt2Emit

/-!
# The tier-1 solver

`PureRustFastSolver` compares one input byte with one constant and proposes an
input on the boundary of the relation. `i32` values are integers; an id out of
range, an unknown symbol and an overflowing width panic. The wall clock is a
parameter.
-/
namespace Axe.Concolic

open Smt (SmtSort)

/-- `u8::try_from` of an `i32`. -/
def u8TryFrom (c : Int) : Option (BitVec 8) :=
  if 0 ≤ c ∧ c ≤ 255 then some (BitVec.ofInt 8 c) else none

/-- `i8::try_from` of an `i32`, and the checked arithmetic on `i8`, read as `u8`. -/
def i8TryFrom (c : Int) : Option (BitVec 8) :=
  if -128 ≤ c ∧ c ≤ 127 then some (BitVec.ofInt 8 c) else none

/-- `n.parse::<u32>()`: a leading `+` and leading zeros are accepted. -/
def parseU32 (s : List Char) : Option Nat :=
  let digits := match s with
    | '+' :: ds => ds
    | ds => ds
  let n := Nat.ofDigitChars 10 digits 0
  if digits ≠ [] ∧ digits.all Char.isDigit ∧ n < 2 ^ 32 then some n else none

theorem parseU32_eq {s : List Char} (hs : ∀ ds, s ≠ '+' :: ds) :
    parseU32 s = if s ≠ [] ∧ s.all Char.isDigit ∧ Nat.ofDigitChars 10 s 0 < 2 ^ 32 then
      some (Nat.ofDigitChars 10 s 0) else none := by
  unfold parseU32
  extract_lets digits n
  have hdigits : digits = s := by
    unfold digits
    split
    · exact absurd rfl (hs _)
    · rfl
  have hn : n = Nat.ofDigitChars 10 s 0 := by rw [← hdigits]
  simp only [hn, hdigits]

theorem parseU32_toDigits (n : Nat) :
    parseU32 (Nat.toDigits 10 n) = if n < 2 ^ 32 then some n else none := by
  have hdigit : ∀ c ∈ Nat.toDigits 10 n, c.isDigit = true := fun c hc =>
    Nat.isDigit_of_mem_toDigits (by decide) (by decide) hc
  have hplus : ∀ ds, Nat.toDigits 10 n ≠ '+' :: ds := fun ds h =>
    absurd (hdigit '+' (by simp [h])) (by decide)
  have hall : (Nat.toDigits 10 n).all Char.isDigit = true := List.all_eq_true.mpr hdigit
  rw [parseU32_eq hplus]
  simp [hall, Nat.toDigits_ne_nil, Nat.ofDigitChars_ten_toDigits]

def parseInputByteVarName (s : String) : Option Nat :=
  ("input_b".toList.isPrefixOf? s.toList).bind parseU32

inductive Rel where
  | eq | ne | ult | ule | ugt | uge | slt | sle | sgt | sge
  deriving DecidableEq, Repr

def Rel.invert : Rel → Rel
  | .eq => .ne
  | .ne => .eq
  | .ult => .uge
  | .ule => .ugt
  | .ugt => .ule
  | .uge => .ult
  | .slt => .sge
  | .sle => .sgt
  | .sgt => .sle
  | .sge => .slt

inductive SideKind where
  | inputByte (index width : Nat)
  | const (value : BitVec 128) (bits : Nat)
  | other
  deriving DecidableEq, Repr

def ExprDag.classifyStep (dag : ExprDag) (classifySide : NodeId → Option SideKind)
    (id : NodeId) : Option SideKind :=
  match dag.tryGet id with
  | none => some .other
  | some (.var name sort) => do
    let n ← dag.symbolName name
    match parseInputByteVarName n, sort with
    | some idx, .bv b => some (.inputByte idx b)
    | _, _ => some .other
  | some (.bvConst value bits) => some (.const value bits)
  | some (.zeroExt _ value) | some (.signExt _ value) => do
    match ← classifySide value with
    | .inputByte index _ =>
      match dag.sortOf id with
      | .ok (.bv w) => some (.inputByte index w)
      | .error .panic => none
      | _ => some .other
    | _ => some .other
  | some _ => some .other

def ExprDag.classifySide (dag : ExprDag) : NodeId → Option SideKind :=
  DagFold.unroll dag.classifyStep none (dag.len + 1)

def checkWidths (varWidth constBits : Nat) : Except String (Option Unit) :=
  if varWidth ≠ constBits then .error "width_mismatch" else .ok (some ())

/-- A byte `v` with `v rel c`. -/
def flipVarConst (rel : Rel) (c : BitVec 128) : Option (BitVec 8) :=
  let c : Int := (c &&& 0xff).toNat
  let cs : Int := (BitVec.ofInt 8 c).toInt
  match rel with
  | .eq => u8TryFrom c
  | .ne => some (if c = 0 then 1 else 0)
  | .ult => u8TryFrom (c - 1)
  | .ule => u8TryFrom c
  | .ugt => u8TryFrom (c + 1)
  | .uge => u8TryFrom c
  | .slt => i8TryFrom (cs - 1)
  | .sle => i8TryFrom c
  | .sgt => i8TryFrom (cs + 1)
  | .sge => i8TryFrom c

/-- A byte `v` with `c rel v`. -/
def flipConstVar (rel : Rel) (c : BitVec 128) : Option (BitVec 8) :=
  let c : Int := (c &&& 0xff).toNat
  let cs : Int := (BitVec.ofInt 8 c).toInt
  match rel with
  | .eq => u8TryFrom c
  | .ne => some (if c = 0 then 1 else 0)
  | .ult => u8TryFrom (c + 1)
  | .ule => u8TryFrom c
  | .ugt => u8TryFrom (c - 1)
  | .uge => u8TryFrom c
  | .slt => i8TryFrom (cs + 1)
  | .sle => i8TryFrom c
  | .sgt => i8TryFrom (cs - 1)
  | .sge => i8TryFrom c

inductive ResolvedTarget where
  | direct (node : NodeId)
  | negated (node : NodeId)
  deriving DecidableEq, Repr

inductive TrivialOutcome where
  | sat (model : List (BitVec 8))
  | unsat
  deriving DecidableEq, Repr

/-- A comparison of an input byte with a constant, the constant on the left if
`swapped`. -/
structure ByteComparison where
  rel : Rel
  byteIndex : Nat
  constValue : BitVec 128
  swapped : Bool
  deriving DecidableEq, Repr

/-- `try_get(..).ok_or_else(|| "invalid_node_id")?` -/
def ExprDag.getOrInvalid (dag : ExprDag) (id : NodeId) : Except String Expr :=
  match dag.tryGet id with
  | some e => .ok e
  | none => .error "invalid_node_id"

/-- Strip an outer `Not` and treat it as the inverse relation. -/
def ExprDag.stripNot (dag : ExprDag) (expr : Expr) (negated : Bool) :
    Except String (Expr × Bool) :=
  match expr with
  | .not inner => do
    let e ← dag.getOrInvalid inner
    return (e, !negated)
  | other => .ok (other, negated)

def relationParts : Expr → Except String (Rel × NodeId × NodeId)
  | .eq a b => .ok (.eq, a, b)
  | .ult a b => .ok (.ult, a, b)
  | .ule a b => .ok (.ule, a, b)
  | .slt a b => .ok (.slt, a, b)
  | .sle a b => .ok (.sle, a, b)
  | _ => .error "unsupported_feature"

/-- The relation a target asserts, with its two sides. -/
def ExprDag.relationOf (dag : ExprDag) (target : ResolvedTarget) :
    Except String (Rel × NodeId × NodeId) := do
  let (node, negated) := match target with
    | .direct n => (n, false)
    | .negated n => (n, true)
  let expr ← dag.getOrInvalid node
  let (expr, negated) ← dag.stripNot expr negated
  let (rel, lhs, rhs) ← relationParts expr
  return (if negated then rel.invert else rel, lhs, rhs)

/-- Which side is a single input byte and which is a constant of its width. -/
def matchSides (rel : Rel) (lhsKind rhsKind : SideKind) : Except String ByteComparison := do
  let found ← match lhsKind, rhsKind with
    | .inputByte index width, .const value bits =>
      (checkWidths width bits).map (·.map fun _ => (⟨rel, index, value, false⟩ : ByteComparison))
    | .const value bits, .inputByte index width =>
      (checkWidths bits width).map (·.map fun _ => ⟨rel, index, value, true⟩)
    | _, _ => .error "unsupported_feature"
  match found with
  | some c => return c
  | none => .error "width_mismatch"

/-- The pattern `solve_trivial` recognises. -/
def ExprDag.byteComparison (dag : ExprDag) (target : ResolvedTarget) :
    Option (Except String ByteComparison) :=
  match dag.relationOf target with
  | .error reason => some (.error reason)
  | .ok (rel, lhs, rhs) => do
    let lhsKind ← dag.classifySide lhs
    let rhsKind ← dag.classifySide rhs
    return matchSides rel lhsKind rhsKind

/-- The model for a recognised comparison. -/
def flipComparison (inputBytes : Nat) (c : ByteComparison) : Except String TrivialOutcome :=
  if c.byteIndex ≥ inputBytes then .error "byte_index_out_of_range"
  else
    let satisfying := if c.swapped then flipConstVar c.rel c.constValue
      else flipVarConst c.rel c.constValue
    match satisfying with
    | some byteVal => .ok (.sat ((List.replicate inputBytes 0).set c.byteIndex byteVal))
    | none => .ok .unsat

def solveTrivial (dag : ExprDag) (target : ResolvedTarget) (inputBytes : Nat) :
    Option (Except String TrivialOutcome) := do
  let found ← dag.byteComparison target
  return found >>= flipComparison inputBytes

def resolvedTarget (query : BranchQuery) : ResolvedTarget :=
  if query.wantTaken then .direct query.targetBranch else .negated query.targetBranch

/-- `PureRustFastSolver::solve_branch`. -/
def pureRustSolveBranch (elapsedMs : Nat) (query : BranchQuery) (dag : ExprDag) :
    Option SolveReport := do
  let emitted ← emitQuery query dag
  let outcome ← solveTrivial dag (resolvedTarget query) query.inputBytes
  let report (status : SolveStatus) (model : Option (List (BitVec 8))) (reason : Option String) :
      SolveReport := ⟨status, elapsedMs, model, emitted.smt2, reason, [], false, "pure_rust"⟩
  match outcome with
  | .ok (.sat model) => return report .sat (some model) none
  | .ok .unsat => return report .unsat none (some "trivially_unsat")
  | .error reason => return report .unknown none (some reason)

section Boundary

/-- The relation read from right to left. -/
def Rel.mirror : Rel → Rel
  | .eq => .eq
  | .ne => .ne
  | .ult => .ugt
  | .ule => .uge
  | .ugt => .ult
  | .uge => .ule
  | .slt => .sgt
  | .sle => .sge
  | .sgt => .slt
  | .sge => .sle

/-- The byte on the boundary of `v rel c`: the constant, or its neighbour on the
side the relation asks for. The signed relations with equality are answered for
constants without the sign bit only. -/
def boundaryByte (rel : Rel) (c : BitVec 8) : Option (BitVec 8) :=
  match rel with
  | .eq | .ule | .uge => some c
  | .ne => some (if c = 0 then 1 else 0)
  | .ult => if c = 0 then none else some (c - 1)
  | .ugt => if c = 255 then none else some (c + 1)
  | .slt => if c = 128 then none else some (c - 1)
  | .sgt => if c = 127 then none else some (c + 1)
  | .sle | .sge => if c.msb then none else some c

theorem toNat_and_255 (c : BitVec 128) : (c &&& 0xff).toNat = c.toNat % 256 :=
  Nat.and_two_pow_sub_one_eq_mod c.toNat 8

theorem flipVarConst_eq (rel : Rel) (c : BitVec 128) :
    flipVarConst rel c = boundaryByte rel (c.setWidth 8) := by
  have hbyte : ∀ b : BitVec 8, flipVarConst rel (b.setWidth 128) = boundaryByte rel b := by
    cases rel <;> decide +kernel
  have hc : (c &&& 0xff).toNat = ((c.setWidth 8).setWidth 128 &&& 0xff).toNat := by
    simp only [toNat_and_255, BitVec.toNat_setWidth]
    omega
  rw [← hbyte (c.setWidth 8)]
  unfold flipVarConst
  rw [hc]

/-- The mirror case computes the same byte. -/
theorem flipConstVar_eq (rel : Rel) (c : BitVec 128) :
    flipConstVar rel c = flipVarConst rel.mirror c := by
  cases rel <;> rfl

/-- The input on the boundary of the target's comparison: zero but for the byte
compared. -/
def boundaryInput (query : BranchQuery) (dag : ExprDag) : Option (List (BitVec 8)) :=
  match dag.byteComparison (resolvedTarget query) with
  | some (.ok c) =>
    if c.byteIndex < query.inputBytes then
      (boundaryByte (if c.swapped then c.rel.mirror else c.rel) (c.constValue.setWidth 8)).map
        fun b => (List.replicate query.inputBytes 0).set c.byteIndex b
    else none
  | _ => none

/-- Tier 1 answers `Sat` with the boundary input of the target, whatever the path
constraints are. -/
theorem solveTrivial_eq_sat {query : BranchQuery} {dag : ExprDag} {model : List (BitVec 8)} :
    solveTrivial dag (resolvedTarget query) query.inputBytes = some (.ok (.sat model)) ↔
      boundaryInput query dag = some model := by
  unfold solveTrivial boundaryInput
  rcases dag.byteComparison (resolvedTarget query) with _ | _ | c
  · simp
  · simp [bind, Except.bind]
  · have hflip : (if c.swapped then flipConstVar c.rel c.constValue
        else flipVarConst c.rel c.constValue) =
        boundaryByte (if c.swapped then c.rel.mirror else c.rel) (c.constValue.setWidth 8) := by
      cases c.swapped
      · exact flipVarConst_eq c.rel c.constValue
      · exact (flipConstVar_eq c.rel c.constValue).trans (flipVarConst_eq _ _)
    simp only [bind, Option.bind, Except.bind, flipComparison, hflip]
    by_cases hi : c.byteIndex < query.inputBytes
    · rw [if_neg (by omega), if_pos hi]
      cases boundaryByte (if c.swapped then c.rel.mirror else c.rel) (c.constValue.setWidth 8) <;>
        simp
    · rw [if_pos (by omega), if_neg hi]
      simp

/-- What tier 1 reports when it does not panic. -/
theorem pureRustSolveBranch_eq_some {elapsedMs : Nat} {query : BranchQuery} {dag : ExprDag}
    {report : SolveReport} (h : pureRustSolveBranch elapsedMs query dag = some report) :
    match boundaryInput query dag with
    | some model => report.status = .sat ∧ report.inputModel = some model
    | none => report.status ≠ .sat := by
  obtain ⟨emitted, -, h⟩ := Option.bind_eq_some_iff.mp h
  obtain ⟨outcome, houtcome, h⟩ := Option.bind_eq_some_iff.mp h
  have hsat : ∀ model, outcome = .ok (.sat model) ↔ boundaryInput query dag = some model := by
    intro model
    rw [← solveTrivial_eq_sat, houtcome, Option.some.injEq]
  rcases outcome with reason | model | _
  · cases h
    cases hb : boundaryInput query dag with
    | none => simp
    | some model => cases (hsat model).mpr hb
  · cases h
    rw [(hsat model).mp rfl]
    exact ⟨rfl, rfl⟩
  · cases h
    cases hb : boundaryInput query dag with
    | none => simp
    | some model => cases (hsat model).mpr hb

end Boundary

end Axe.Concolic
