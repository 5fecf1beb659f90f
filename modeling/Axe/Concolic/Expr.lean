import Mathlib.Data.Finset.Insert
import Axe.Lib.DagFold
import Axe.Lib.Smt

/-!
# The hash-consed expression DAG

`Expr`, `ExprDag`, `sort_of` and `validate` of the symbolic IR. The source's
`Sort` is `Smt.SmtSort`. Node ids, symbol ids and widths are `u32` in the
source: they are naturals here, the cast that makes a fresh id wraps at `2 ^ 32`,
and the width arithmetic of `sort_of` panics where it leaves `u32`. Hash maps
are association lists, hash sets are finite sets. The two recursive functions
run at a depth no acyclic DAG exhausts; a cyclic one overflows the stack.
-/
namespace Axe.Concolic

open Smt (SmtSort)

abbrev NodeId := Nat
abbrev SymbolId := Nat

inductive Expr where
  | var (name : SymbolId) (sort : SmtSort)
  | bvConst (value : BitVec 128) (bits : Nat)
  | boolConst (b : Bool)
  | not (a : NodeId)
  | and (children : List NodeId)
  | or (children : List NodeId)
  | eq (a b : NodeId)
  | bvAdd (a b : NodeId)
  | bvSub (a b : NodeId)
  | bvMul (a b : NodeId)
  | bvAnd (a b : NodeId)
  | bvOr (a b : NodeId)
  | bvXor (a b : NodeId)
  | bvShl (a b : NodeId)
  | bvLShr (a b : NodeId)
  | bvAShr (a b : NodeId)
  | ult (a b : NodeId)
  | ule (a b : NodeId)
  | slt (a b : NodeId)
  | sle (a b : NodeId)
  | extract (hi lo : Nat) (value : NodeId)
  | concat (a b : NodeId)
  | zeroExt (extra : Nat) (value : NodeId)
  | signExt (extra : Nat) (value : NodeId)
  | ite (cond thenId elseId : NodeId)
  | load8 (mem addr : NodeId)
  | store8 (mem addr value : NodeId)
  deriving DecidableEq, Repr

/-- The ids an expression refers to, in the order every traversal visits them. -/
def childrenOf : Expr → List NodeId
  | .var _ _ | .bvConst _ _ | .boolConst _ => []
  | .not a => [a]
  | .and v | .or v => v
  | .eq a b | .bvAdd a b | .bvSub a b | .bvMul a b | .bvAnd a b | .bvOr a b | .bvXor a b
  | .bvShl a b | .bvLShr a b | .bvAShr a b | .ult a b | .ule a b | .slt a b | .sle a b
  | .concat a b => [a, b]
  | .extract _ _ value | .zeroExt _ value | .signExt _ value => [value]
  | .ite cond thenId elseId => [cond, thenId, elseId]
  | .load8 mem addr => [mem, addr]
  | .store8 mem addr value => [mem, addr, value]

inductive TypeError where
  | widthMismatch (op : String) (lhs rhs : Nat)
  | badExtractBounds (hi lo width : Nat)
  | sortMismatch (op : String) (expected got : SmtSort)
  | arrayValueWidth (got : Nat)
  | bvConstOverflow (value : BitVec 128) (bits : Nat)
  | invalidNodeId (id : NodeId)
  deriving DecidableEq, Repr

structure ExprDag where
  nodes : List Expr
  index : List (Expr × NodeId)
  symbols : List String
  symbolIndex : List (String × SymbolId)
  deriving DecidableEq, Repr

namespace ExprDag

def new : ExprDag := ⟨[], [], [], []⟩

/-- The id of an expression, interned if it has not been seen before. -/
def intern (dag : ExprDag) (e : Expr) : NodeId × ExprDag :=
  match dag.index.lookup e with
  | some id => (id, dag)
  | none =>
    let id := dag.nodes.length % 2 ^ 32
    (id, { dag with nodes := dag.nodes ++ [e], index := (e, id) :: dag.index })

def internSymbol (dag : ExprDag) (name : String) : SymbolId × ExprDag :=
  match dag.symbolIndex.lookup name with
  | some id => (id, dag)
  | none =>
    let id := dag.symbols.length % 2 ^ 32
    (id, { dag with
      symbols := dag.symbols ++ [name], symbolIndex := (name, id) :: dag.symbolIndex })

/-- Indexing with an id out of range is where the source's `get` panics. -/
def tryGet (dag : ExprDag) (id : NodeId) : Option Expr := dag.nodes[id]?

def symbolName (dag : ExprDag) (id : SymbolId) : Option String := dag.symbols[id]?

def len (dag : ExprDag) : Nat := dag.nodes.length

abbrev succ (dag : ExprDag) : NodeId → List NodeId := DagFold.succ dag.tryGet childrenOf

abbrev Reaches (dag : ExprDag) : NodeId → NodeId → Prop := DagFold.Reaches dag.tryGet childrenOf

abbrev Acyclic (dag : ExprDag) : Prop := DagFold.Acyclic dag.succ

/-- No id out of range is reached from a root. -/
def InRange (dag : ExprDag) (root : NodeId) : Prop := ∀ n, dag.Reaches root n → n < dag.len

theorem lt_of_tryGet {dag : ExprDag} {id : NodeId} {e : Expr} (h : dag.tryGet id = some e) :
    id < dag.len := (List.getElem?_eq_some_iff.mp h).1

theorem exists_tryGet {dag : ExprDag} {id : NodeId} (h : id < dag.len) :
    ∃ e, dag.tryGet id = some e := ⟨_, List.getElem?_eq_getElem h⟩

theorem succ_eq {dag : ExprDag} {id : NodeId} {e : Expr} (h : dag.tryGet id = some e) :
    dag.succ id = childrenOf e := DagFold.succ_of_get h

theorem lt_of_succ_ne_nil {dag : ExprDag} (id : NodeId) (h : dag.succ id ≠ []) : id < dag.len := by
  cases he : dag.tryGet id with
  | none => simp [succ, DagFold.succ, he] at h
  | some e => exact lt_of_tryGet he

theorem InRange.child {dag : ExprDag} {id c : NodeId} {e : Expr} (h : dag.InRange id)
    (he : dag.tryGet id = some e) (hc : c ∈ childrenOf e) : dag.InRange c :=
  fun n hn => h n (.of_child he hc hn)

/-- Every stored id is smaller than the id it is stored under. -/
def Ordered (dag : ExprDag) : Prop := ∀ id < dag.len, ∀ c ∈ dag.succ id, c < id

instance (dag : ExprDag) : Decidable dag.Ordered := by unfold Ordered; infer_instance

theorem Ordered.acyclic {dag : ExprDag} (h : dag.Ordered) : dag.Acyclic :=
  .of_lt fun id c hc => h id (lt_of_succ_ne_nil id (List.ne_nil_of_mem hc)) c hc

theorem Ordered.inRange {dag : ExprDag} (h : dag.Ordered) {root : NodeId} (hr : root < dag.len) :
    dag.InRange root := fun _ hn =>
  hn.mem_closed (V := {n | n < dag.len}) hr fun p hp c hc => (h p hp c hc).trans hp

theorem InRange.lt {dag : ExprDag} {id : NodeId} (h : dag.InRange id) : id < dag.len :=
  h id (.refl id)

/-- The fields of an expression that the source stores as `u32`. -/
def U32 : Expr → Prop
  | .var name (.bv w) => name < 2 ^ 32 ∧ w < 2 ^ 32
  | .var name (.array i v) => name < 2 ^ 32 ∧ i < 2 ^ 32 ∧ v < 2 ^ 32
  | .var name .bool => name < 2 ^ 32
  | .bvConst _ bits => bits < 2 ^ 32
  | .extract hi lo _ => hi < 2 ^ 32 ∧ lo < 2 ^ 32
  | .zeroExt extra _ | .signExt extra _ => extra < 2 ^ 32
  | _ => True

/-- The DAGs the program builds: every child is an id handed out before. -/
inductive Built : ExprDag → Prop
  | new : Built .new
  | intern {dag : ExprDag} {e : Expr} : Built dag → (∀ c ∈ childrenOf e, c < dag.len) → U32 e →
      Built (dag.intern e).2
  | internSymbol {dag : ExprDag} {name : String} : Built dag → Built (dag.internSymbol name).2

@[simp] theorem internSymbol_nodes (dag : ExprDag) (name : String) :
    (dag.internSymbol name).2.nodes = dag.nodes := by
  unfold internSymbol
  split <;> rfl

/-- Interning keeps the nodes there are and adds at most the one asked for. -/
theorem intern_nodes (dag : ExprDag) (e : Expr) :
    (dag.intern e).2.nodes = dag.nodes ∨ (dag.intern e).2.nodes = dag.nodes ++ [e] := by
  unfold intern
  split
  · exact .inl rfl
  · exact .inr rfl

/-- What holds of every stored expression and its id when it is interned. -/
theorem Built.nodes_induct {P : NodeId → Expr → Prop} {dag : ExprDag} (h : dag.Built)
    (hP : ∀ id e, (∀ c ∈ childrenOf e, c < id) → U32 e → P id e) :
    ∀ id e, dag.tryGet id = some e → P id e := by
  induction h with
  | new =>
    intro id e he
    simp [ExprDag.new, tryGet] at he
  | @internSymbol dag name _ ih =>
    intro id e he
    rw [tryGet, internSymbol_nodes] at he
    exact ih id e he
  | @intern dag e hdag hc hu ih =>
    intro id f hf
    rcases intern_nodes dag e with hn | hn
    · rw [tryGet, hn] at hf
      exact ih id f hf
    · rw [tryGet, hn, List.getElem?_append] at hf
      split at hf
      · exact ih id f hf
      · rename_i hid
        obtain ⟨hlen, hef⟩ := List.getElem?_eq_some_iff.mp hf
        rw [List.getElem_singleton] at hef
        rw [List.length_singleton] at hlen
        have hid' : dag.len = (id : Nat) := by
          unfold len
          omega
        exact hid' ▸ hef ▸ hP _ e hc hu

theorem Built.ordered {dag : ExprDag} (h : dag.Built) : dag.Ordered := by
  intro id hid c hc
  obtain ⟨e, he⟩ := exists_tryGet hid
  rw [succ_eq he] at hc
  exact h.nodes_induct (P := fun id e => ∀ c ∈ childrenOf e, c < id) (fun _ _ h _ => h) id e he c hc

end ExprDag

section SortOf

/-- How `sort_of` fails to answer: the source's `None`, or an overflowing `u32`. -/
inductive SortFault where
  | none
  | panic
  deriving DecidableEq, Repr

def addU32 (a b : Nat) : Except SortFault Nat :=
  if a + b < 2 ^ 32 then .ok (a + b) else .error .panic

def subU32 (a b : Nat) : Except SortFault Nat :=
  if b ≤ a then .ok (a - b) else .error .panic

def bvWidth : SmtSort → Option Nat
  | .bv w => some w
  | _ => none

/-- The `?` on an `Option`. -/
def orNone {α : Type} : Option α → Except SortFault α
  | some a => .ok a
  | none => .error .none

def ExprDag.sortOfStep (dag : ExprDag) (sortOf : NodeId → Except SortFault SmtSort)
    (id : NodeId) : Except SortFault SmtSort :=
  match dag.tryGet id with
  | none => .error .none
  | some e =>
    match e with
    | .var _ sort => .ok sort
    | .bvConst _ bits => .ok (.bv bits)
    | .boolConst _ => .ok .bool
    | .not _ | .and _ | .or _ | .eq _ _ => .ok .bool
    | .ult _ _ | .ule _ _ | .slt _ _ | .sle _ _ => .ok .bool
    | .bvAdd a _ | .bvSub a _ | .bvMul a _ | .bvAnd a _ | .bvOr a _ | .bvXor a _
    | .bvShl a _ | .bvLShr a _ | .bvAShr a _ => sortOf a
    | .extract hi lo _ => do
      let d ← subU32 hi lo
      let w ← addU32 d 1
      return .bv w
    | .concat a b => do
      let wa ← orNone (bvWidth (← sortOf a))
      let wb ← orNone (bvWidth (← sortOf b))
      let w ← addU32 wa wb
      return .bv w
    | .zeroExt extra value | .signExt extra value => do
      let wv ← orNone (bvWidth (← sortOf value))
      let w ← addU32 wv extra
      return .bv w
    | .ite _ thenId _ => sortOf thenId
    | .load8 _ _ => .ok (.bv 8)
    | .store8 mem _ _ => sortOf mem

def ExprDag.sortOf (dag : ExprDag) (id : NodeId) : Except SortFault SmtSort :=
  DagFold.unroll dag.sortOfStep (.error .panic) (dag.len + 1) id

theorem ExprDag.sortOfStep_local (dag : ExprDag) : DagFold.Local dag.sortOfStep dag.succ := by
  intro f g id h
  cases he : dag.tryGet id with
  | none => simp [sortOfStep, he]
  | some e =>
    rw [ExprDag.succ_eq he] at h
    cases e <;> simp_all [sortOfStep, childrenOf]

theorem ExprDag.sortOf_eq {dag : ExprDag} (hd : dag.Acyclic) (id : NodeId) :
    dag.sortOf id = dag.sortOfStep dag.sortOf id :=
  DagFold.unroll_fix dag.sortOfStep_local ExprDag.lt_of_succ_ne_nil hd id

end SortOf

section Validate

/-- How `validate` fails to answer `Ok`: a type error, or an overflow in `sort_of`. -/
inductive ValidateFault where
  | type (e : TypeError)
  | panic
  deriving DecidableEq, Repr

variable (dag : ExprDag)

/-- `self.sort_of(id).ok_or(TypeError::InvalidNodeId(id))?` -/
def ExprDag.sortOrInvalid (id : NodeId) : Except ValidateFault SmtSort :=
  match dag.sortOf id with
  | .ok s => .ok s
  | .error .none => .error (.type (.invalidNodeId id))
  | .error .panic => .error .panic

/-- `bv_width(..).ok_or(TypeError::SortMismatch { .. })?` of a child's sort. -/
def ExprDag.widthOrMismatch (op : String) (id : NodeId) : Except ValidateFault Nat := do
  match bvWidth (← dag.sortOrInvalid id) with
  | some w => .ok w
  | none => .error (.type (.sortMismatch op (.bv 0) .bool))

def ExprDag.expectSort (id : NodeId) (expected : SmtSort) (op : String) :
    Except ValidateFault Unit := do
  let got ← dag.sortOrInvalid id
  if got = expected then .ok () else .error (.type (.sortMismatch op expected got))

/-- The width comparison of the binary operators and of the comparisons. -/
def ExprDag.expectSameWidth (op : String) (a b : NodeId) : Except ValidateFault Unit := do
  let wa ← dag.widthOrMismatch op a
  let wb ← dag.widthOrMismatch op b
  if wa ≠ wb then .error (.type (.widthMismatch op wa wb)) else .ok ()

def bvOpName : Expr → String
  | .bvAdd _ _ => "bvadd"
  | .bvSub _ _ => "bvsub"
  | .bvMul _ _ => "bvmul"
  | .bvAnd _ _ => "bvand"
  | .bvOr _ _ => "bvor"
  | .bvXor _ _ => "bvxor"
  | .bvShl _ _ => "bvshl"
  | .bvLShr _ _ => "bvlshr"
  | .bvAShr _ _ => "bvashr"
  | _ => "bv_op"

abbrev Visited := Finset NodeId

/-- One call of `validate_node` on a node not visited before. -/
def ExprDag.validateExpr (validateNode : NodeId → Visited → Except ValidateFault Visited)
    (e : Expr) (visited : Visited) : Except ValidateFault Visited :=
  match e with
  | .var _ _ | .boolConst _ => .ok visited
  | .bvConst value bits =>
    if bits = 0 ∨ bits > 128 then .error (.type (.bvConstOverflow value bits))
    else if bits < 128 ∧ value.toNat ≥ 2 ^ bits then .error (.type (.bvConstOverflow value bits))
    else .ok visited
  | .not a => do
    let visited ← validateNode a visited
    dag.expectSort a .bool "not"
    return visited
  | .and children | .or children =>
    children.foldlM (fun visited c => do
      let visited ← validateNode c visited
      dag.expectSort c .bool "and/or"
      return visited) visited
  | .eq a b => do
    let visited ← validateNode a visited
    let visited ← validateNode b visited
    let sa ← dag.sortOrInvalid a
    let sb ← dag.sortOrInvalid b
    if sa ≠ sb then .error (.type (.sortMismatch "eq" sa sb)) else return visited
  | .bvAdd a b | .bvSub a b | .bvMul a b | .bvAnd a b | .bvOr a b | .bvXor a b
  | .bvShl a b | .bvLShr a b | .bvAShr a b => do
    let visited ← validateNode a visited
    let visited ← validateNode b visited
    dag.expectSameWidth (bvOpName e) a b
    return visited
  | .ult a b | .ule a b | .slt a b | .sle a b => do
    let visited ← validateNode a visited
    let visited ← validateNode b visited
    dag.expectSameWidth "bv_cmp" a b
    return visited
  | .extract hi lo value => do
    let visited ← validateNode value visited
    let w ← dag.widthOrMismatch "extract" value
    if hi < lo ∨ hi ≥ w then .error (.type (.badExtractBounds hi lo w)) else return visited
  | .concat a b => do
    let visited ← validateNode a visited
    let visited ← validateNode b visited
    let _ ← dag.widthOrMismatch "concat" a
    let _ ← dag.widthOrMismatch "concat" b
    return visited
  | .zeroExt _ value | .signExt _ value => do
    let visited ← validateNode value visited
    let _ ← dag.widthOrMismatch "ext" value
    return visited
  | .ite cond thenId elseId => do
    let visited ← validateNode cond visited
    let visited ← validateNode thenId visited
    let visited ← validateNode elseId visited
    dag.expectSort cond .bool "ite-cond"
    let st ← dag.sortOrInvalid thenId
    let se ← dag.sortOrInvalid elseId
    if st ≠ se then .error (.type (.sortMismatch "ite" st se)) else return visited
  | .load8 mem addr => do
    let visited ← validateNode mem visited
    let visited ← validateNode addr visited
    match ← dag.sortOrInvalid mem with
    | .array _ v =>
      if v ≠ 8 then .error (.type (.arrayValueWidth v)) else return visited
    | sm => .error (.type (.sortMismatch "load8" (.array 64 8) sm))
  | .store8 mem addr value => do
    let visited ← validateNode mem visited
    let visited ← validateNode addr visited
    let visited ← validateNode value visited
    match ← dag.sortOrInvalid mem with
    | .array _ v =>
      if v ≠ 8 then .error (.type (.arrayValueWidth v))
      else
        let sv ← dag.sortOrInvalid value
        if bvWidth sv ≠ some 8 then .error (.type (.sortMismatch "store8-value" (.bv 8) sv))
        else return visited
    | sm => .error (.type (.sortMismatch "store8" (.array 64 8) sm))

def ExprDag.validateStep (validateNode : NodeId → Visited → Except ValidateFault Visited)
    (id : NodeId) (visited : Visited) : Except ValidateFault Visited :=
  if id ∈ visited then .ok visited
  else
    match dag.tryGet id with
    | none => .error (.type (.invalidNodeId id))
    | some e => dag.validateExpr validateNode e (insert id visited)

def ExprDag.validateNode : NodeId → Visited → Except ValidateFault Visited :=
  DagFold.unroll dag.validateStep (fun _ => .error .panic) (dag.len + 1)

def ExprDag.validate (root : NodeId) : Except ValidateFault Unit := do
  let _ ← dag.validateNode root ∅
  return ()

end Validate

end Axe.Concolic
