import Axe.Concolic.LoweringMeaning

/-!
# Lowering against the text

The text of a root is the text of the root in a second DAG, whose wide constants
are as wide as their literals. So the lowered term and the text agree when
lowering does not fail, the names can be declared, and the wider constants
leave the value of the root as it is.
-/
namespace Axe.Concolic

open Smt (SmtSort Value Assignment Term)

section Rounded

/-- The width a constant has as a literal. -/
def literalWidth (bits : Nat) : Nat := if bits ≤ 64 then bits else 4 * ((bits + 3) / 4)

def Expr.rounded : Expr → Expr
  | .bvConst value bits => .bvConst value (literalWidth bits)
  | e => e

/-- The DAG with the widths of its wide constants rounded up to whole hexadecimal
digits. -/
def ExprDag.rounded (dag : ExprDag) : ExprDag := { dag with nodes := dag.nodes.map Expr.rounded }

variable {dag : ExprDag}

theorem childrenOf_rounded (e : Expr) : childrenOf e.rounded = childrenOf e := by cases e <;> rfl

theorem tryGet_rounded (id : NodeId) :
    dag.rounded.tryGet id = (dag.tryGet id).map Expr.rounded := by
  simp [ExprDag.rounded, ExprDag.tryGet]

theorem succ_rounded : dag.rounded.succ = dag.succ := by
  funext id
  simp only [ExprDag.succ, DagFold.succ, tryGet_rounded, Option.map_map]
  congr 2
  funext e
  exact childrenOf_rounded e

theorem reaches_rounded {a b : NodeId} : dag.rounded.Reaches a b ↔ dag.Reaches a b := by
  unfold ExprDag.Reaches DagFold.Reaches
  change Relation.ReflTransGen (fun p c => c ∈ dag.rounded.succ p) a b ↔ _
  rw [succ_rounded]

theorem acyclic_rounded (hd : dag.Acyclic) : dag.rounded.Acyclic := by
  unfold ExprDag.Acyclic
  rw [succ_rounded]
  exact hd

theorem tryGet_rounded_eq_some {id : NodeId} {e : Expr} (h : dag.rounded.tryGet id = some e) :
    ∃ f, dag.tryGet id = some f ∧ e = f.rounded := by
  rw [tryGet_rounded, Option.map_eq_some_iff] at h
  obtain ⟨f, hf, rfl⟩ := h
  exact ⟨f, hf, rfl⟩

/-- A variable of the rounded DAG is a variable of the DAG. -/
theorem var_of_rounded {id : NodeId} {v : SymbolId} {s : SmtSort}
    (h : dag.rounded.tryGet id = some (.var v s)) : dag.tryGet id = some (.var v s) := by
  obtain ⟨f, hf, he⟩ := tryGet_rounded_eq_some h
  cases f with
  | var => exact he ▸ hf
  | _ => cases he

theorem constTerm_literalWidth (value : BitVec 128) {bits : Nat} (h : bits ≤ 128) :
    constTerm value (literalWidth bits) = constTerm value bits := by
  unfold constTerm literalWidth
  by_cases hb : bits ≤ 64
  · rw [if_pos hb, if_pos hb]
  · rw [if_neg hb, if_neg (by omega), if_neg hb, if_pos (by omega), if_pos (by omega)]
    congr 3
    omega

theorem termAlg_rounded {e : Expr} (h : ∀ value bits, e = .bvConst value bits → bits ≤ 128)
    (ts : List (Term String)) : termAlg dag.rounded e.rounded ts = termAlg dag e ts := by
  cases e with
  | bvConst value bits => exact constTerm_literalWidth value (h value bits rfl)
  | _ => rfl

/-- Both DAGs are written alike. -/
theorem term_rounded (hd : dag.Acyclic) {root : NodeId} {t : Term String}
    (hconst : ∀ n value bits, dag.Reaches root n → dag.tryGet n = some (.bvConst value bits) →
      bits ≤ 128) : dag.rounded.term root = some t ↔ dag.term root = some t := by
  constructor
  · refine fun h => DagFold.Folds.fold_eq ExprDag.lt_of_succ_ne_nil hd ?_
    refine DagFold.Folds.transport ⟨_, h⟩ fun n e hn he => ?_
    obtain ⟨f, hf, rfl⟩ := tryGet_rounded_eq_some he
    refine ⟨f, hf, (childrenOf_rounded f).symm, fun ts => (termAlg_rounded ?_ ts).symm⟩
    rintro value bits rfl
    exact hconst n value bits (reaches_rounded.mp hn) hf
  · refine fun h => DagFold.Folds.fold_eq ExprDag.lt_of_succ_ne_nil (acyclic_rounded hd) ?_
    refine DagFold.Folds.transport ⟨_, h⟩ fun n e hn he => ?_
    refine ⟨e.rounded, by rw [tryGet_rounded, he]; rfl, childrenOf_rounded e, termAlg_rounded ?_⟩
    rintro value bits rfl
    exact hconst n value bits hn he

end Rounded

section Typing
variable {dag : ExprDag} {decl : String → Option SmtSort}

/-- Every variable below a root has a sort that exists and is declared with it. -/
def DeclaresBelow (dag : ExprDag) (decl : String → Option SmtSort) (root : NodeId) : Prop :=
  ∀ n v s, dag.Reaches root n → dag.tryGet n = some (.var v s) →
    s.Valid ∧ ∃ name, dag.symbolName v = some name ∧ decl name = some s

theorem byteWide_of_memoryFree {e : Expr} (h : e.MemoryFree) (s : SmtSort) :
    e.byteWide s = true := by
  cases e with
  | load8 | store8 => exact h.elim
  | _ => rfl

/-- What the text needs below a root to be read back: declared variables, literals
of the right width, constants that fit, and no arrays. -/
structure Writable (dag : ExprDag) (decl : String → Option SmtSort) (id : NodeId) : Prop where
  declares : DeclaresBelow dag decl id
  literals : ∀ n value bits, dag.Reaches id n → dag.tryGet n = some (.bvConst value bits) →
    1 ≤ bits ∧ bits ≤ 128 ∧ value.toNat < 2 ^ bits ∧ (64 < bits → 4 ∣ bits)
  memoryFree : ∀ n e, dag.Reaches id n → dag.tryGet n = some e → e.MemoryFree

theorem Writable.child {id c : NodeId} {e : Expr} (h : Writable dag decl id)
    (he : dag.tryGet id = some e) (hc : c ∈ childrenOf e) : Writable dag decl c :=
  ⟨fun n v s hn => h.declares n v s (.of_child he hc hn),
    fun n value bits hn => h.literals n value bits (.of_child he hc hn),
    fun n f hn => h.memoryFree n f (.of_child he hc hn)⟩

theorem Writable.covered {id : NodeId} (h : Writable dag decl id) : Covered dag decl id :=
  ⟨fun n v s hn he => (h.declares n v s hn he).2,
    fun n value bits hn he => (h.literals n value bits hn he).2.2.2⟩

/-- Children written as well-sorted terms are well-sorted. -/
private theorem forall₂_hasSort {cs : List NodeId} {ts : List (Term String)} {ss : List SmtSort}
    (h : List.Forall₂ (fun c t => ∀ s, t.sort decl = some s → Writable dag decl c →
      dag.HasSort c s) cs ts)
    (hs : List.Forall₂ (fun t s => t.sort decl = some s) ts ss)
    (hw : ∀ c ∈ cs, Writable dag decl c) : List.Forall₂ dag.HasSort cs ss := by
  induction h generalizing ss with
  | nil =>
    cases hs
    exact .nil
  | cons hct _ ih =>
    cases hs with
    | cons hts hs =>
      exact .cons (hct _ hts (hw _ (by simp))) (ih hs fun d hd => hw d (by simp [hd]))

/-- A well-sorted term was written for a well-sorted node. -/
theorem hasSort_of_term {id : NodeId} {s : SmtSort} {t : Term String}
    (h : DagFold.Folds dag.tryGet childrenOf (termAlg dag) id t) (hs : t.sort decl = some s)
    (hw : Writable dag decl id) : dag.HasSort id s := by
  refine DagFold.Folds.induct (P := fun id t => ∀ s, t.sort decl = some s →
    Writable dag decl id → dag.HasSort id s) ?_ h s hs hw
  intro id e ts t he hts ht s hs hw
  have hmem := hw.memoryFree id e (.refl id) he
  cases ho : e.op with
  | none =>
    refine DagFold.Folds.iff.mpr ?_
    cases e with
    | var name s' =>
      obtain ⟨hvalid, nm, hn, hd⟩ := hw.declares id name s' (.refl id) he
      refine ⟨_, [], he, .nil, ?_⟩
      rw [termAlg, hn] at ht
      cases ht
      rw [Term.sort, hd] at hs
      cases hs
      simp [sortAlg, Expr.op, Expr.leafSort, hvalid]
    | bvConst value bits =>
      obtain ⟨h₁, h₂, h₃, h₄⟩ := hw.literals id value bits (.refl id) he
      obtain ⟨u, w, hu, husort, hw', -⟩ := constTerm_spec decl h₁ h₂ h₃
      cases hu.symm.trans ht
      cases husort.symm.trans hs
      cases hw'.mpr h₄
      exact ⟨_, [], he, .nil, by simp [sortAlg, Expr.op, Expr.leafSort, h₁, h₂, h₃]⟩
    | boolConst b =>
      cases ht
      cases hs
      exact ⟨_, [], he, .nil, rfl⟩
    | _ => cases ho
  | some o =>
    by_cases hc : childrenOf e = []
    · obtain ⟨b, ht', hap⟩ := termAlg_empty ho hc ts
      cases ht'.symm.trans ht
      cases hs
      refine DagFold.Folds.iff.mpr ⟨e, [], he, hc ▸ .nil, ?_⟩
      simp only [sortAlg, ho, Option.filter_eq_some_iff, byteWide_of_memoryFree hmem, and_true]
      exact Smt.Op.sort_of_apply hap
    · cases (termAlg_op ho hc ts).symm.trans ht
      rw [Term.sort] at hs
      split at hs
      · cases hs
      · obtain ⟨ss, hss, hos⟩ := Option.bind_eq_some_iff.mp hs
        have hchild : List.Forall₂ dag.HasSort (childrenOf e) ss :=
          forall₂_hasSort (hts.imp fun _ _ h => h.2) (Term.forall₂_of_sorts hss)
            fun c hc => hw.child he hc
        refine DagFold.Folds.iff.mpr ⟨e, ss, he, hchild, ?_⟩
        simp only [sortAlg, ho, Option.filter_eq_some_iff, byteWide_of_memoryFree hmem, and_true]
        exact hos

end Typing

section Agreement
variable {dag : ExprDag} {root : NodeId} {st : Z3Lowerer}

/-- The lowerers that a run of `lower_bool` on well-sorted roots leaves behind. -/
inductive Z3Lowerer.Reached (dag : ExprDag) : Z3Lowerer → Prop
  | new : Reached dag .new
  | lower {st st' : Z3Lowerer} {root : NodeId} {res : Except LoweringError Ast} :
      Reached dag st → Lowerable dag root → dag.HasSort root .bool →
      (lowerBool dag root).exec st = some (res, st') → Reached dag st'

theorem Z3Lowerer.Reached.cacheOk (hd : dag.Acyclic) (h : Reached dag st) : CacheOk dag st := by
  induction h with
  | new => exact .new dag
  | @lower st st' root res _ hl hs hrun ih =>
    obtain ⟨r, st'', hrun', hst, -⟩ := (lowersWell hd root hl).bool hs st ih
    cases hrun.symm.trans hrun'
    exact hst

/-- `lower_bool` succeeds, and its term and the text denote one Boolean function of
the names, all declared with the sorts of the variables. -/
def LowersLikeText (dag : ExprDag) (st : Z3Lowerer) (root : NodeId) : Prop :=
  ∃ ast st' t decl, (lowerBool dag root).exec st = some (.ok ast, st') ∧
    dag.exprText root = some t.render ∧ dag.term root = some t ∧ DeclaresBelow dag decl root ∧
    t.sort decl = some .bool ∧
    ∀ ρ, ∃ b, ast.eval constSort (constView ρ) = some (.bool b) ∧ t.eval decl ρ = some (.bool b)

/-- No `Ite` between Booleans, one sort for each name, and a truth value that does
not change when the wide constants get the widths of their literals. -/
structure TextSafe (dag : ExprDag) (root : NodeId) : Prop where
  boolIteFree : BoolIteFree dag root
  names : ∀ n v s, dag.Reaches root n → dag.tryGet n = some (.var v s) →
    s.Valid ∧ ∃ name, dag.symbolName v = some name ∧ ∀ m u s', dag.Reaches root m →
      dag.tryGet m = some (.var u s') → dag.symbolName u = some name → s' = s
  rounded : dag.rounded.HasSort root .bool
  sameValue : ∀ ρ b, dag.rounded.Gives (dag.named ρ) root b ↔ dag.Gives (dag.named ρ) root b

/-- A variable below a root with a name and a sort. -/
def NamesBelow (dag : ExprDag) (root : NodeId) (name : String) (s : SmtSort) : Prop :=
  ∃ n v, dag.Reaches root n ∧ dag.tryGet n = some (.var v s) ∧ dag.symbolName v = some name

/-- The names below a root can be declared exactly when each has one sort. -/
theorem exists_declaresBelow : (∃ decl, DeclaresBelow dag decl root) ↔
    ∀ n v s, dag.Reaches root n → dag.tryGet n = some (.var v s) →
      s.Valid ∧ ∃ name, dag.symbolName v = some name ∧ ∀ m u s', dag.Reaches root m →
        dag.tryGet m = some (.var u s') → dag.symbolName u = some name → s' = s := by
  classical
  constructor
  · rintro ⟨decl, h⟩ n v s hn he
    obtain ⟨hvalid, name, hname, hdecl⟩ := h n v s hn he
    refine ⟨hvalid, name, hname, fun m u s' hm he' hname' => ?_⟩
    obtain ⟨-, name', hu, hdecl'⟩ := h m u s' hm he'
    cases hname'.symm.trans hu
    exact Option.some.inj (hdecl'.symm.trans hdecl)
  · intro h
    refine ⟨fun name => if hs : ∃ s, NamesBelow dag root name s then some hs.choose else none,
      fun n v s hn he => ?_⟩
    obtain ⟨hvalid, name, hname, huniq⟩ := h n v s hn he
    have hs : ∃ s, NamesBelow dag root name s := ⟨s, n, v, hn, he, hname⟩
    obtain ⟨m, u, hm, he', hname'⟩ := hs.choose_spec
    refine ⟨hvalid, name, hname, (dif_pos hs).trans ?_⟩
    rw [huniq m u _ hm he' hname']

/-- The rounded DAG can be written below a validated root. -/
theorem Writable.rounded {decl : String → Option SmtSort} (hd : dag.Acyclic)
    (hv : dag.validate root = .ok ())
    (hmem : ∀ n e, dag.Reaches root n → dag.tryGet n = some e → e.MemoryFree)
    (hdecl : DeclaresBelow dag decl root) : Writable dag.rounded decl root := by
  refine ⟨fun n v s hn he => ?_, fun n value bits hn he => ?_, fun n e hn he => ?_⟩
  · exact hdecl n v s (reaches_rounded.mp hn) (var_of_rounded he)
  · obtain ⟨f, hf, he⟩ := tryGet_rounded_eq_some he
    cases f with
    | bvConst value' bits' =>
      cases he
      obtain ⟨h₁, h₂, h₃⟩ := const_of_validate hd hv (reaches_rounded.mp hn) hf
      have hle : bits' ≤ literalWidth bits' := by
        unfold literalWidth
        split <;> omega
      refine ⟨by omega, ?_, h₃.trans_le (Nat.pow_le_pow_right (by decide) hle), ?_⟩
      · unfold literalWidth
        split <;> omega
      · unfold literalWidth
        split <;> omega
    | _ => cases he
  · obtain ⟨f, hf, rfl⟩ := tryGet_rounded_eq_some he
    have := hmem n f (reaches_rounded.mp hn) hf
    cases f with
    | bvConst => trivial
    | _ => exact this

/-- For a validated Boolean root without arrays, the in-process lowering agrees with the
text exactly when no `Ite` below it is Boolean, each name has one sort, and the
literals of the text do not change the truth value. -/
theorem lowerBool_like_text_iff (hd : dag.Acyclic) (hv : dag.validate root = .ok ())
    (hroot : dag.sortOf root = .ok .bool)
    (hmem : ∀ n e, dag.Reaches root n → dag.tryGet n = some e → e.MemoryFree)
    (hst : Z3Lowerer.Reached dag st) : LowersLikeText dag st root ↔ TextSafe dag root := by
  have hsort : ∀ decl, DeclaresBelow dag decl root → dag.HasSort root .bool := by
    intro decl hdecl
    obtain ⟨s, hs⟩ := hasSort_of_validate hd hv fun n v s hn he =>
      ⟨(hdecl n v s hn he).1, fun i w h => by
        subst h
        exact hmem n _ hn he⟩
    cases (hs.lax.agrees hd _ hroot).1
    exact hs
  have hlower : ∀ decl, DeclaresBelow dag decl root → Lowerable dag root := fun decl hdecl =>
    ⟨(validate_eq_ok hd).mp hv, hmem, fun n v s hn he =>
      (hdecl n v s hn he).2.imp fun _ h => h.1⟩
  have hterm : ∀ t, dag.rounded.term root = some t ↔ dag.term root = some t := fun t =>
    term_rounded hd fun n value bits hn he => (const_of_validate hd hv hn he).2.1
  constructor
  · rintro ⟨ast, st', t, decl, hrun, -, ht, hdecl, hts, heval⟩
    have hs := hsort decl hdecl
    have hw := Writable.rounded hd hv hmem hdecl
    obtain ⟨r, st'', hrun', -, hout⟩ := (lowersWell hd root (hlower decl hdecl)).bool hs st
      (hst.cacheOk hd)
    cases hrun.symm.trans hrun'
    obtain ⟨hfree, a, ha, hast⟩ | ⟨-, e, he⟩ := hout
    · cases ha
      have hsr : dag.rounded.HasSort root .bool :=
        hasSort_of_term ⟨_, (hterm t).mpr ht⟩ hts hw
      obtain ⟨t', ht', hden⟩ := exists_term (acyclic_rounded hd) hsr hw.covered
      cases ((hterm t).mpr ht).symm.trans ht'
      refine ⟨hfree, exists_declaresBelow.mp ⟨decl, hdecl⟩, hsr, fun ρ b => ?_⟩
      obtain ⟨b', hb', htb'⟩ := heval ρ
      obtain ⟨c, hc⟩ := hs.gives (dag.named ρ)
      obtain ⟨c', hc', hgives⟩ := hden.eval_iff hsr ρ
      have h₁ := (hast.2 ρ _ hc).symm.trans hb'
      have h₂ := hc'.symm.trans htb'
      simp only [Option.some.injEq, Value.bool.injEq] at h₁ h₂
      refine (hgives b).trans ⟨fun h => ?_, fun h => ?_⟩
      · exact (h₁.trans (h₂.symm.trans h)) ▸ hc
      · cases ExprDag.Evaluates.unique h hc
        exact h₂.trans h₁.symm
    · cases he
  · intro h
    obtain ⟨decl, hdecl⟩ := exists_declaresBelow.mpr h.names
    have hs := hsort decl hdecl
    have hw := Writable.rounded hd hv hmem hdecl
    obtain ⟨r, st', hrun, -, hout⟩ := (lowersWell hd root (hlower decl hdecl)).bool hs st
      (hst.cacheOk hd)
    obtain ⟨-, ast, rfl, hast⟩ | ⟨hfree, -⟩ := hout
    · obtain ⟨t, ht, hden⟩ := exists_term (acyclic_rounded hd) h.rounded hw.covered
      have ht' := (hterm t).mp ht
      refine ⟨ast, st', t, decl, hrun, by rw [exprText_eq hd, ht']; rfl, ht', hdecl, hden.1,
        fun ρ => ?_⟩
      obtain ⟨b, hb⟩ := hs.gives (dag.named ρ)
      exact ⟨b, hast.2 ρ _ hb, hden.2 ρ _ ((h.sameValue ρ b).mpr hb)⟩
    · exact absurd h.boolIteFree hfree

/-- `Ite` between Booleans: if the input byte is zero then false, else itself. -/
def boolIte : ExprDag :=
  let symbol := (ExprDag.new.internSymbol "input_b0").2
  let byte := (symbol.intern (.var 0 (.bv 8))).2
  let zero := (byte.intern (.bvConst 0 8)).2
  let eq := (zero.intern (.eq 0 1)).2
  let false := (eq.intern (.boolConst false)).2
  (false.intern (.ite 2 3 2)).2

theorem boolIte_acyclic : boolIte.Acyclic := ExprDag.Ordered.acyclic (by decide)

theorem boolIte_validate : boolIte.validate 4 = .ok () := by decide

theorem boolIte_sortOf : boolIte.sortOf 4 = .ok .bool := by decide

theorem boolIte_memoryFree (n : NodeId) (e : Expr) (_ : boolIte.Reaches 4 n)
    (he : boolIte.tryGet n = some e) : e.MemoryFree := by
  have hall : ∀ e ∈ boolIte.nodes, e.MemoryFree := by
    change ∀ e ∈ [Expr.var 0 (.bv 8), .bvConst 0 8, .eq 0 1, .boolConst false, .ite 2 3 2],
      e.MemoryFree
    simp [Expr.MemoryFree]
  exact hall e (List.mem_of_getElem? he)

/-- The text has the conditional, but lowering has no case for it. -/
theorem lowerBool_rejects_boolIte :
    boolIte.Acyclic ∧ boolIte.validate 4 = .ok () ∧ boolIte.sortOf 4 = .ok .bool ∧
      boolIte.exprText 4 = some "(ite (= input_b0 (_ bv0 8)) false (= input_b0 (_ bv0 8)))" ∧
      ((lowerBool boolIte 4).exec .new).map (fun p => p.1.toBool) = some false ∧
      ¬ LowersLikeText boolIte .new 4 := by
  have hrun : ((lowerBool boolIte 4).exec .new).map (fun p => p.1.toBool) = some false := by
    decide
  refine ⟨boolIte_acyclic, boolIte_validate, boolIte_sortOf, by decide, hrun, ?_⟩
  rintro ⟨ast, st', t, decl, h, -⟩
  rw [h] at hrun
  cases hrun

theorem lowerBool_like_text_iff_boolIte :
    LowersLikeText boolIte .new 4 ↔ TextSafe boolIte 4 :=
  lowerBool_like_text_iff boolIte_acyclic boolIte_validate boolIte_sortOf boolIte_memoryFree .new

end Agreement

end Axe.Concolic
