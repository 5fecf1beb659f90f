import Axe.Concolic.Smt2Meaning
import Axe.Lib.Exact

/-!
# Lowering to the in-process solver

`Z3Lowerer` builds Z3 terms, with one cache for Boolean results and one for bit
vectors. A Z3 constant is known by its name and its sort, so its terms are
SMT-LIB terms over such pairs; each constructor of the z3 crate is the operator
of the same name. `Bool`, `BV` and `Dynamic` are one type here.
-/
namespace Axe.Concolic

open Smt (SmtSort Value Assignment Term)
open Exact (Prog Decides)

abbrev Ast := Term (String × SmtSort)

/-- The declared sort of a Z3 constant is part of it. -/
def constSort (k : String × SmtSort) : Option SmtSort := some k.2

/-- `BV::get_size`. -/
def Ast.getSize (t : Ast) : Nat := ((t.sort constSort).bind bvWidth).getD 0

/-- A numeral is reduced modulo its width. -/
def fromU64 (value : BitVec 64) (size : Nat) : Ast := .bvNum (value.toNat % 2 ^ size) size

/-- `Bool::and`, true without operands. -/
def boolAnd (asts : List Ast) : Ast := if asts.isEmpty then .lit true else .app .and asts

/-- `Bool::or`, false without operands. -/
def boolOr (asts : List Ast) : Ast := if asts.isEmpty then .lit false else .app .or asts

/-- A constant; one wider than 64 bits is put together from two halves. -/
def bvConstAst (value : BitVec 128) (bits : Nat) : Ast :=
  if bits ≤ 64 then fromU64 (value.setWidth 64) bits
  else
    let hi := (value >>> 64).setWidth 64
    let lo := value.setWidth 64
    .app .concat [fromU64 hi (bits - 64), fromU64 lo 64]

inductive LoweringError where
  | widthMismatch (op : String) (lhs rhs : Nat)
  | unsupportedExpr (backend detail : String)
  deriving DecidableEq, Repr

def unsupported (detail : String) : LoweringError := .unsupportedExpr "z3_in_process" detail

section Debug

/-- `{:?}` of a sort. -/
def debugSort : SmtSort → String
  | .bool => "Bool"
  | .bv w => s!"Bv({w})"
  | .array i v => s!"Array \x7b index_bits: {i}, value_bits: {v} \x7d"

/-- `{:?}` of an expression. -/
def Expr.debug : Expr → String
  | .var name sort => s!"Var \x7b name: {name}, sort: {debugSort sort} \x7d"
  | .bvConst value bits => s!"BvConst \x7b value: {value.toNat}, bits: {bits} \x7d"
  | .boolConst b => s!"BoolConst({b})"
  | .not a => s!"Not({a})"
  | .and children => s!"And({children})"
  | .or children => s!"Or({children})"
  | .eq a b => s!"Eq({a}, {b})"
  | .bvAdd a b => s!"BvAdd({a}, {b})"
  | .bvSub a b => s!"BvSub({a}, {b})"
  | .bvMul a b => s!"BvMul({a}, {b})"
  | .bvAnd a b => s!"BvAnd({a}, {b})"
  | .bvOr a b => s!"BvOr({a}, {b})"
  | .bvXor a b => s!"BvXor({a}, {b})"
  | .bvShl a b => s!"BvShl({a}, {b})"
  | .bvLShr a b => s!"BvLShr({a}, {b})"
  | .bvAShr a b => s!"BvAShr({a}, {b})"
  | .ult a b => s!"Ult({a}, {b})"
  | .ule a b => s!"Ule({a}, {b})"
  | .slt a b => s!"Slt({a}, {b})"
  | .sle a b => s!"Sle({a}, {b})"
  | .extract hi lo value => s!"Extract \x7b hi: {hi}, lo: {lo}, value: {value} \x7d"
  | .concat a b => s!"Concat({a}, {b})"
  | .zeroExt extra value => s!"ZeroExt \x7b extra: {extra}, value: {value} \x7d"
  | .signExt extra value => s!"SignExt \x7b extra: {extra}, value: {value} \x7d"
  | .ite cond thenId elseId =>
    s!"Ite \x7b cond: {cond}, then_id: {thenId}, else_id: {elseId} \x7d"
  | .load8 mem addr => s!"Load8 \x7b mem: {mem}, addr: {addr} \x7d"
  | .store8 mem addr value => s!"Store8 \x7b mem: {mem}, addr: {addr}, value: {value} \x7d"

end Debug

structure Z3Lowerer where
  boolCache : List (NodeId × Ast)
  bvCache : List (NodeId × Ast)

def Z3Lowerer.new : Z3Lowerer := ⟨[], []⟩

abbrev Lower := Prog Z3Lowerer LoweringError Ast

/-- Which of `lower_bool` and `lower_bv` is called. -/
inductive LowerKind where
  | bool | bv
  deriving DecidableEq, Repr

def Ast.checkWidths (op : String) (lhs rhs : Ast) : Prog Z3Lowerer LoweringError Unit :=
  if lhs.getSize ≠ rhs.getSize then throw (.widthMismatch op lhs.getSize rhs.getSize) else pure ()

section Step
variable (dag : ExprDag) (lower : NodeId → LowerKind → Lower)

/-- `lower_bv` on both operands, a width check, and the operator. -/
def binBv (opName : String) (op : Smt.Op) (a b : NodeId) : Lower := do
  let l ← lower a .bv
  let r ← lower b .bv
  Ast.checkWidths opName l r
  return .app op [l, r]

/-- `lower_dynamic`: the sort the DAG declares picks the recursion. -/
def lowerDynamic (id : NodeId) : Lower :=
  match dag.sortOf id with
  | .ok .bool => lower id .bool
  | .ok (.bv _) => lower id .bv
  | .ok (.array _ _) => throw (unsupported "array sort not lowerable to Dynamic")
  | .error .none => throw (unsupported "node has no declared sort")
  | .error .panic => Prog.ofOption none

def lowerBoolExpr (e : Expr) : Lower :=
  match e with
  | .boolConst b => return .lit b
  | .var name .bool => do
    let n ← Prog.ofOption (dag.symbolName name)
    return .symbol (n, .bool)
  | .not a => do return .app .not [← lower a .bool]
  | .and children => do return boolAnd (← children.mapM fun c => lower c .bool)
  | .or children => do return boolOr (← children.mapM fun c => lower c .bool)
  | .eq a b => do
    let lhs ← lowerDynamic dag lower a
    let rhs ← lowerDynamic dag lower b
    return .app .eq [lhs, rhs]
  | .ult a b => binBv lower "bvult" (.cmp .ult) a b
  | .ule a b => binBv lower "bvule" (.cmp .ule) a b
  | .slt a b => binBv lower "bvslt" (.cmp .slt) a b
  | .sle a b => binBv lower "bvsle" (.cmp .sle) a b
  | other => throw (unsupported s!"not a Bool kind: {other.debug}")

def lowerBvExpr (e : Expr) : Lower :=
  match e with
  | .bvConst value bits => return bvConstAst value bits
  | .var name (.bv bits) => do
    let n ← Prog.ofOption (dag.symbolName name)
    return .symbol (n, .bv bits)
  | .bvAdd a b => binBv lower "bvadd" (.bin .add) a b
  | .bvSub a b => binBv lower "bvsub" (.bin .sub) a b
  | .bvMul a b => binBv lower "bvmul" (.bin .mul) a b
  | .bvAnd a b => binBv lower "bvand" (.bin .and) a b
  | .bvOr a b => binBv lower "bvor" (.bin .or) a b
  | .bvXor a b => binBv lower "bvxor" (.bin .xor) a b
  | .bvShl a b => binBv lower "bvshl" (.bin .shl) a b
  | .bvLShr a b => binBv lower "bvlshr" (.bin .lshr) a b
  | .bvAShr a b => binBv lower "bvashr" (.bin .ashr) a b
  | .concat a b => do
    let l ← lower a .bv
    let r ← lower b .bv
    return .app .concat [l, r]
  | .extract hi lo value => do return .app (.extract hi lo) [← lower value .bv]
  | .zeroExt extra value => do return .app (.zeroExtend extra) [← lower value .bv]
  | .signExt extra value => do return .app (.signExtend extra) [← lower value .bv]
  | .ite cond thenId elseId => do
    let c ← lower cond .bool
    let t ← lower thenId .bv
    let e ← lower elseId .bv
    return .app .ite [c, t, e]
  | .load8 _ addr => return .symbol (s!"load8_at_{addr}", .bv 8)
  | other => throw (unsupported s!"not a BV kind: {other.debug}")

/-- One call of `lower_bool` or `lower_bv`. An id out of range panics. -/
def lowerStep (id : NodeId) : LowerKind → Lower
  | .bool => Exact.memo (fun s => s.boolCache.lookup id)
      (fun ast s => { s with boolCache := (id, ast) :: s.boolCache })
      (Prog.ofOption (dag.tryGet id) >>= lowerBoolExpr dag lower)
  | .bv => Exact.memo (fun s => s.bvCache.lookup id)
      (fun ast s => { s with bvCache := (id, ast) :: s.bvCache })
      (Prog.ofOption (dag.tryGet id) >>= lowerBvExpr dag lower)

end Step

def ExprDag.lower (dag : ExprDag) : NodeId → LowerKind → Lower :=
  DagFold.unroll (lowerStep dag) (fun _ => Prog.ofOption none) (dag.len + 1)

def lowerBool (dag : ExprDag) (id : NodeId) : Lower := dag.lower id .bool

def lowerBv (dag : ExprDag) (id : NodeId) : Lower := dag.lower id .bv

end Axe.Concolic
