import Axe.Concolic.Backend
import Axe.Concolic.Validate
import Axe.Lib.SmtScript

/-!
# Emitting a query as SMT-LIB text

The emitter writes text; `termAlg` and `emitScript` say which terms and which
script that text is. The reference counts of the source are never read and its
table of let-bound names is never filled, so `expr_text` always inlines. An id
out of range panics.
-/
namespace Axe.Concolic

open Smt (SmtSort Value Assignment Term Command Script)

section Text

/-- `format!("{value:0nibbles$x}")` -/
def hexPadded (value nibbles : Nat) : List Char := (Nat.toDigits 16 value).leftpad nibbles '0'

/-- `format!("c_{idx:04}")` -/
def constraintName (idx : Nat) : String :=
  "c_" ++ String.ofList ((Nat.toDigits 10 idx).leftpad 4 '0')

variable (exprText : NodeId → Option String)

def binop (op : String) (a b : NodeId) : Option String := do
  let ta ← exprText a
  let tb ← exprText b
  return s!"({op} {ta} {tb})"

def nAry (op : String) (children : List NodeId) : Option String :=
  if children.isEmpty then some (if op = "and" then "true" else "false")
  else do
    let out ← children.foldlM (fun out c => do
      let t ← exprText c
      return out ++ " " ++ t) s!"({op}"
    return out ++ ")"

def ExprDag.inlineText (dag : ExprDag) (id : NodeId) : Option String := do
  match ← dag.tryGet id with
  | .var name _ => dag.symbolName name
  | .bvConst value bits =>
    if bits ≤ 64 then some s!"(_ bv{value.toNat} {bits})"
    else if bits + 3 < 2 ^ 32 then
      some ("#x" ++ String.ofList (hexPadded value.toNat ((bits + 3) / 4)))
    else none
  | .boolConst b => some (if b then "true" else "false")
  | .not a => do
    let t ← exprText a
    return s!"(not {t})"
  | .and children => nAry exprText "and" children
  | .or children => nAry exprText "or" children
  | .eq a b => binop exprText "=" a b
  | .bvAdd a b => binop exprText "bvadd" a b
  | .bvSub a b => binop exprText "bvsub" a b
  | .bvMul a b => binop exprText "bvmul" a b
  | .bvAnd a b => binop exprText "bvand" a b
  | .bvOr a b => binop exprText "bvor" a b
  | .bvXor a b => binop exprText "bvxor" a b
  | .bvShl a b => binop exprText "bvshl" a b
  | .bvLShr a b => binop exprText "bvlshr" a b
  | .bvAShr a b => binop exprText "bvashr" a b
  | .ult a b => binop exprText "bvult" a b
  | .ule a b => binop exprText "bvule" a b
  | .slt a b => binop exprText "bvslt" a b
  | .sle a b => binop exprText "bvsle" a b
  | .extract hi lo value => do
    let v ← exprText value
    return s!"((_ extract {hi} {lo}) {v})"
  | .concat a b => binop exprText "concat" a b
  | .zeroExt extra value => do
    let v ← exprText value
    return s!"((_ zero_extend {extra}) {v})"
  | .signExt extra value => do
    let v ← exprText value
    return s!"((_ sign_extend {extra}) {v})"
  | .ite cond thenId elseId => do
    let c ← exprText cond
    let t ← exprText thenId
    let e ← exprText elseId
    return s!"(ite {c} {t} {e})"
  | .load8 mem addr => do
    let m ← exprText mem
    let a ← exprText addr
    return s!"(select {m} {a})"
  | .store8 mem addr value => do
    let m ← exprText mem
    let a ← exprText addr
    let v ← exprText value
    return s!"(store {m} {a} {v})"

end Text

def ExprDag.exprText (dag : ExprDag) : NodeId → Option String :=
  DagFold.unroll (fun f id => dag.inlineText f id) none (dag.len + 1)

structure EmittedQuery where
  smt2 : String
  nameMap : List (String × NodeId)
  deriving DecidableEq, Repr

/-- The options and the declarations of the input bytes. -/
def emitHeader (query : BranchQuery) : String :=
  let out := "(set-info :smt-lib-version 2.6)\n"
  let logic := query.preferLogic.getD "QF_ABV"
  let out := out ++ s!"(set-logic {logic})\n"
  let out := out ++ "(set-option :produce-models true)\n"
  let out := out ++ "(set-option :produce-unsat-cores true)\n"
  (List.range query.inputBytes).foldl (fun out i =>
    out ++ s!"(declare-fun input_b{i} () (_ BitVec 8))\n") out

/-- One round of the loop over the path constraints. -/
def emitAssert (dag : ExprDag) (emitted : EmittedQuery) (c : NodeId × Nat) :
    Option EmittedQuery := do
  let name := constraintName c.2
  let body ← dag.exprText c.1
  return ⟨emitted.smt2 ++ s!"(assert (! {body} :named {name}))\n",
    emitted.nameMap ++ [(name, c.1)]⟩

def emitQuery (query : BranchQuery) (dag : ExprDag) : Option EmittedQuery := do
  let emitted ← query.pathConstraints.zipIdx.foldlM (emitAssert dag) ⟨emitHeader query, []⟩
  let targetBody ← dag.exprText query.targetBranch
  let assertion := if query.wantTaken then targetBody else s!"(not {targetBody})"
  return ⟨emitted.smt2 ++ s!"(assert (! {assertion} :named c_TGT))\n" ++ "(check-sat)\n" ++
      "(get-model)\n" ++ "(get-unsat-core)\n" ++ "(exit)\n",
    emitted.nameMap ++ [("c_TGT", query.targetBranch)]⟩

section Script

/-- The literal a constant is written as. -/
def constTerm (value : BitVec 128) (bits : Nat) : Option (Term String) :=
  if bits ≤ 64 then some (.bvNum value.toNat bits)
  else if bits + 3 < 2 ^ 32 then some (.hex (hexPadded value.toNat ((bits + 3) / 4)))
  else none

/-- The term an expression is written as, from the terms of its children. -/
def termAlg (dag : ExprDag) (e : Expr) (ts : List (Term String)) : Option (Term String) :=
  match e with
  | .var name _ => (dag.symbolName name).map .symbol
  | .bvConst value bits => constTerm value bits
  | .boolConst b => some (.lit b)
  | .and [] => some (.lit true)
  | .or [] => some (.lit false)
  | e => e.op.map fun op => .app op ts

def ExprDag.term (dag : ExprDag) : NodeId → Option (Term String) :=
  DagFold.fold dag.tryGet childrenOf (termAlg dag) (dag.len + 1)

/-- The commands of a query before its assertions. -/
def preamble (query : BranchQuery) : Script :=
  [.setInfo ":smt-lib-version 2.6", .setLogic (query.preferLogic.getD "QF_ABV"),
    .setOption ":produce-models true", .setOption ":produce-unsat-cores true"] ++
  (List.range query.inputBytes).map fun i => .declareFun s!"input_b{i}" (.bv 8)

def targetTerm (query : BranchQuery) (t : Term String) : Term String :=
  if query.wantTaken then t else .app .not [t]

/-- The assertion of a path constraint, with its position in the list. -/
def assertCommand (dag : ExprDag) (c : NodeId × Nat) : Option Command :=
  (dag.term c.1).map fun t => .assertNamed t (constraintName c.2)

/-- The script the text of a query is. -/
def emitScript (query : BranchQuery) (dag : ExprDag) : Option Script := do
  let asserts ← query.pathConstraints.zipIdx.mapM (assertCommand dag)
  let target ← dag.term query.targetBranch
  return preamble query ++ asserts ++ [.assertNamed (targetTerm query target) "c_TGT",
    .checkSat, .getModel, .getUnsatCore, .exit]

end Script

section Render
variable {dag : ExprDag}

theorem binop_congr {f g : NodeId → Option String} {a b : NodeId} (op : String)
    (h : ∀ c ∈ [a, b], f c = g c) : binop f op a b = binop g op a b := by
  rw [binop, h a (by simp), h b (by simp), binop]

theorem nAry_congr {f g : NodeId → Option String} {l : List NodeId} (op : String)
    (h : ∀ c ∈ l, f c = g c) : nAry f op l = nAry g op l := by
  rw [nAry, foldlM_congr_mem fun c hc s => by rw [h c hc], nAry]

theorem inlineText_local (dag : ExprDag) :
    DagFold.Local (fun f id => dag.inlineText f id) dag.succ := by
  intro f g id h
  dsimp only
  unfold ExprDag.inlineText
  cases he : dag.tryGet id with
  | none => rfl
  | some e =>
    rw [ExprDag.succ_eq he] at h
    rw [Option.bind_eq_bind, Option.bind_some, Option.bind_eq_bind, Option.bind_some]
    cases e with
    | var | bvConst | boolConst => rfl
    | and children | or children => exact nAry_congr _ h
    | not a | extract _ _ a | zeroExt _ a | signExt _ a =>
      dsimp only
      rw [h a (by simp [childrenOf])]
    | ite a b c | store8 a b c =>
      dsimp only
      rw [h a (by simp [childrenOf]), h b (by simp [childrenOf]), h c (by simp [childrenOf])]
    | load8 a b =>
      dsimp only
      rw [h a (by simp [childrenOf]), h b (by simp [childrenOf])]
    | _ => exact binop_congr _ h

theorem exprText_fix (hd : dag.Acyclic) (id : NodeId) :
    dag.exprText id = dag.inlineText dag.exprText id :=
  DagFold.unroll_fix (inlineText_local dag) ExprDag.lt_of_succ_ne_nil hd id

theorem term_fix (hd : dag.Acyclic) (id : NodeId) :
    dag.term id = DagFold.foldStep dag.tryGet childrenOf (termAlg dag) dag.term id :=
  DagFold.fold_fix ExprDag.lt_of_succ_ne_nil hd id

/-- The operands a loop writes are those of the term. -/
theorem foldlM_text {f : NodeId → Option String} {g : NodeId → Option (Term String)} {l : List NodeId}
    (h : ∀ c ∈ l, f c = (g c).map Term.render) (out : String) :
    (l.foldlM (fun out c => do
      let t ← f c
      return out ++ " " ++ t) out) =
      (l.mapM g).map fun ts => out ++ Term.renderArgs ts := by
  induction l generalizing out with
  | nil => simp [Term.renderArgs]
  | cons c l ih =>
    rw [List.foldlM_cons, h c (by simp), List.mapM_cons]
    cases hc : g c with
    | none => rfl
    | some t =>
      refine (ih (fun d hd => h d (by simp [hd])) _).trans ?_
      cases l.mapM g with
      | none => rfl
      | some ts => simp [Term.renderArgs, String.append_assoc]

/-- The text of a binary operator, from the terms of its operands. -/
theorem binop_eq {f : NodeId → Option String} {g : NodeId → Option (Term String)} {a b : NodeId}
    (op : Smt.Op) (h : ∀ c ∈ [a, b], f c = (g c).map Term.render) :
    binop f op.head a b = (([a, b].mapM g).bind fun ts => some (.app op ts)).map Term.render := by
  rw [binop, h a (by simp), h b (by simp), List.mapM_cons, List.mapM_cons, List.mapM_nil]
  cases g a with
  | none => rfl
  | some t =>
    cases g b with
    | none => rfl
    | some u => exact congrArg some (Smt.render_app_two op t u).symm

theorem unop_eq {f : NodeId → Option String} {g : NodeId → Option (Term String)} {a : NodeId}
    {text : String → String} (op : Smt.Op) (h : ∀ c ∈ [a], f c = (g c).map Term.render)
    (htext : ∀ t, text t = s!"({op.head} {t})") :
    (do let t ← f a; some (text t)) =
      (([a].mapM g).bind fun ts => some (.app op ts)).map Term.render := by
  rw [h a (by simp), List.mapM_cons, List.mapM_nil]
  cases g a with
  | none => rfl
  | some t => exact congrArg some ((htext t.render).trans (Smt.render_app_one op t).symm)

theorem extract_text (hi lo : Nat) (t : String) :
    s!"((_ extract {hi} {lo}) {t})" = s!"({(Smt.Op.extract hi lo).head} {t})" := by
  change "(" ++ "(_ extract " ++ toString hi ++ " " ++ toString lo ++ (")" ++ " ") ++ t ++ ")" =
    "(" ++ ("(_ extract " ++ toString hi ++ " " ++ toString lo ++ ")") ++ " " ++ t ++ ")"
  simp only [String.append_assoc]

theorem zeroExtend_text (extra : Nat) (t : String) :
    s!"((_ zero_extend {extra}) {t})" = s!"({(Smt.Op.zeroExtend extra).head} {t})" := by
  change "(" ++ "(_ zero_extend " ++ toString extra ++ (")" ++ " ") ++ t ++ ")" =
    "(" ++ ("(_ zero_extend " ++ toString extra ++ ")") ++ " " ++ t ++ ")"
  simp only [String.append_assoc]

theorem signExtend_text (extra : Nat) (t : String) :
    s!"((_ sign_extend {extra}) {t})" = s!"({(Smt.Op.signExtend extra).head} {t})" := by
  change "(" ++ "(_ sign_extend " ++ toString extra ++ (")" ++ " ") ++ t ++ ")" =
    "(" ++ ("(_ sign_extend " ++ toString extra ++ ")") ++ " " ++ t ++ ")"
  simp only [String.append_assoc]

theorem ternop_eq {f : NodeId → Option String} {g : NodeId → Option (Term String)} {a b c : NodeId}
    (op : Smt.Op) (h : ∀ x ∈ [a, b, c], f x = (g x).map Term.render) :
    (do let t ← f a; let u ← f b; let v ← f c; some s!"({op.head} {t} {u} {v})") =
      (([a, b, c].mapM g).bind fun ts => some (.app op ts)).map Term.render := by
  rw [h a (by simp), h b (by simp), h c (by simp), List.mapM_cons, List.mapM_cons, List.mapM_cons,
    List.mapM_nil]
  cases g a with
  | none => rfl
  | some t =>
    cases g b with
    | none => rfl
    | some u =>
      cases g c with
      | none => rfl
      | some v => exact congrArg some (Smt.render_app_three op t u v).symm

theorem nAry_eq {f : NodeId → Option String} {g : NodeId → Option (Term String)} {l : List NodeId}
    (op : Smt.Op) (hl : l ≠ []) (h : ∀ c ∈ l, f c = (g c).map Term.render) :
    nAry f op.head l = ((l.mapM g).bind fun ts => some (.app op ts)).map Term.render := by
  have hne : l.isEmpty = false := by simpa using hl
  rw [nAry, hne, foldlM_text h]
  cases l.mapM g with
  | none => rfl
  | some ts =>
    refine congrArg some ?_
    simp only [Term.render, String.append_assoc]
    rfl

theorem constText_eq (value : BitVec 128) (bits : Nat) :
    (if bits ≤ 64 then some s!"(_ bv{value.toNat} {bits})"
      else if bits + 3 < 2 ^ 32 then
        some ("#x" ++ String.ofList (hexPadded value.toNat ((bits + 3) / 4)))
      else none) = (constTerm value bits).map Term.render := by
  unfold constTerm
  split
  · rfl
  · split <;> rfl

/-- The text of a node is the text of its term. -/
theorem exprText_eq (hd : dag.Acyclic) (id : NodeId) :
    dag.exprText id = (dag.term id).map Term.render := by
  induction id using hd.induct with
  | _ id ih =>
    rw [exprText_fix hd, term_fix hd, DagFold.foldStep]
    cases he : dag.tryGet id with
    | none => simp [ExprDag.inlineText, he]
    | some e =>
      rw [ExprDag.succ_eq he] at ih
      rw [Option.bind_some, ExprDag.inlineText, he, Option.bind_eq_bind, Option.bind_some]
      cases e with
      | and children =>
        cases children with
        | nil => rfl
        | cons c children => exact nAry_eq .and (by simp) ih
      | or children =>
        cases children with
        | nil => rfl
        | cons c children => exact nAry_eq .or (by simp) ih
      | var name s =>
        change dag.symbolName name = ((dag.symbolName name).map Term.symbol).map Term.render
        cases dag.symbolName name <;> rfl
      | bvConst value bits => exact constText_eq value bits
      | boolConst b => rfl
      | not a => exact unop_eq .not ih fun _ => rfl
      | extract hi lo value => exact unop_eq (.extract hi lo) ih (extract_text hi lo)
      | zeroExt extra value => exact unop_eq (.zeroExtend extra) ih (zeroExtend_text extra)
      | signExt extra value => exact unop_eq (.signExtend extra) ih (signExtend_text extra)
      | ite cond thenId elseId => exact ternop_eq .ite ih
      | load8 mem addr => exact binop_eq .select ih
      | store8 mem addr value => exact ternop_eq .store ih
      | eq a b => exact binop_eq .eq ih
      | bvAdd a b => exact binop_eq (.bin .add) ih
      | bvSub a b => exact binop_eq (.bin .sub) ih
      | bvMul a b => exact binop_eq (.bin .mul) ih
      | bvAnd a b => exact binop_eq (.bin .and) ih
      | bvOr a b => exact binop_eq (.bin .or) ih
      | bvXor a b => exact binop_eq (.bin .xor) ih
      | bvShl a b => exact binop_eq (.bin .shl) ih
      | bvLShr a b => exact binop_eq (.bin .lshr) ih
      | bvAShr a b => exact binop_eq (.bin .ashr) ih
      | ult a b => exact binop_eq (.cmp .ult) ih
      | ule a b => exact binop_eq (.cmp .ule) ih
      | slt a b => exact binop_eq (.cmp .slt) ih
      | sle a b => exact binop_eq (.cmp .sle) ih
      | concat a b => exact binop_eq .concat ih

theorem foldl_render {α : Type} {text : α → String} {command : α → Command}
    (h : ∀ a, text a = (command a).render ++ "\n") (l : List α) (out : String) :
    l.foldl (fun out a => out ++ text a) out = out ++ Script.render (l.map command) := by
  induction l generalizing out with
  | nil => simp [Script.render]
  | cons a l ih => rw [List.foldl_cons, ih, h a, List.map_cons, Script.render, String.append_assoc]

theorem assert_text (body name : String) :
    s!"(assert (! {body} :named {name}))\n" = s!"(assert (! {body} :named {name}))" ++ "\n" := by
  change "(assert (! " ++ body ++ " :named " ++ name ++ ("))" ++ "\n") =
    "(assert (! " ++ body ++ " :named " ++ name ++ "))" ++ "\n"
  simp only [String.append_assoc]

theorem declare_text (i : Nat) : s!"(declare-fun input_b{i} () (_ BitVec 8))\n" =
    (Command.declareFun s!"input_b{i}" (.bv 8)).render ++ "\n" := by
  change "(declare-fun " ++ "input_b" ++ toString i ++ (" () " ++ "(_ BitVec 8)" ++ ")" ++ "\n") =
    "(declare-fun " ++ ("input_b" ++ toString i) ++ " () " ++ "(_ BitVec 8)" ++ ")" ++ "\n"
  simp only [String.append_assoc]

/-- The loop over the path constraints writes their assertions and names. -/
theorem foldlM_emitAssert (hd : dag.Acyclic) (l : List (NodeId × Nat)) (emitted : EmittedQuery) :
    l.foldlM (emitAssert dag) emitted = (l.mapM (assertCommand dag)).map fun cs =>
      ⟨emitted.smt2 ++ Script.render cs,
        emitted.nameMap ++ l.map fun c => (constraintName c.2, c.1)⟩ := by
  induction l generalizing emitted with
  | nil => simp [Script.render]
  | cons c l ih =>
    rw [List.foldlM_cons, List.mapM_cons, assertCommand, emitAssert, exprText_eq hd]
    cases dag.term c.1 with
    | none => rfl
    | some t =>
      refine (ih _).trans ?_
      cases l.mapM (assertCommand dag) with
      | none => rfl
      | some cs =>
        refine congrArg some (congr (congrArg EmittedQuery.mk ?_) (by simp))
        dsimp only
        rw [assert_text, Script.render, String.append_assoc]
        rfl

theorem emitHeader_eq (query : BranchQuery) :
    emitHeader query = Script.render (preamble query) := by
  unfold emitHeader preamble
  rw [foldl_render declare_text, Smt.Script.render_append]
  refine congrArg (· ++ _) ?_
  change "(set-info :smt-lib-version 2.6)\n" ++ ("(set-logic " ++ _ ++ (")" ++ "\n")) ++
    "(set-option :produce-models true)\n" ++ "(set-option :produce-unsat-cores true)\n" =
    "(set-info :smt-lib-version 2.6)\n" ++ ("(set-logic " ++ _ ++ ")" ++ "\n" ++
      ("(set-option :produce-models true)\n" ++ "(set-option :produce-unsat-cores true)\n"))
  simp only [String.append_assoc]

theorem targetText_eq (query : BranchQuery) (t : Term String) :
    (if query.wantTaken then t.render else s!"(not {t.render})") = (targetTerm query t).render := by
  unfold targetTerm
  split
  · rfl
  · exact (Smt.render_app_one .not t).symm

theorem closing_text (body : Term String) :
    Script.render [.assertNamed body "c_TGT", .checkSat, .getModel, .getUnsatCore, .exit] =
      s!"(assert (! {body.render} :named c_TGT))\n" ++ "(check-sat)\n" ++ "(get-model)\n" ++
        "(get-unsat-core)\n" ++ "(exit)\n" := by
  change "(assert (! " ++ body.render ++ " :named " ++ "c_TGT" ++ "))" ++ "\n" ++
    ("(check-sat)\n" ++ ("(get-model)\n" ++ ("(get-unsat-core)\n" ++ "(exit)\n"))) =
    "(assert (! " ++ body.render ++ (" :named " ++ ("c_TGT" ++ ("))" ++ "\n"))) ++ "(check-sat)\n" ++
      "(get-model)\n" ++ "(get-unsat-core)\n" ++ "(exit)\n"
  simp only [String.append_assoc]

/-- The emitted text is the text of the script, and the names map back to the
constraints in order. -/
theorem emitQuery_eq (hd : dag.Acyclic) (query : BranchQuery) :
    emitQuery query dag = (emitScript query dag).map fun script =>
      ⟨script.render, query.pathConstraints.zipIdx.map (fun c => (constraintName c.2, c.1)) ++
        [("c_TGT", query.targetBranch)]⟩ := by
  rw [emitQuery, emitScript, foldlM_emitAssert hd, exprText_eq hd]
  cases query.pathConstraints.zipIdx.mapM (assertCommand dag) with
  | none => rfl
  | some asserts =>
    cases dag.term query.targetBranch with
    | none => rfl
    | some t =>
      refine congrArg some (congr (congrArg EmittedQuery.mk ?_) (by simp))
      dsimp only
      rw [Smt.Script.render_append, Smt.Script.render_append, closing_text, ← targetText_eq,
        emitHeader_eq]
      simp only [String.append_assoc]

end Render

end Axe.Concolic
