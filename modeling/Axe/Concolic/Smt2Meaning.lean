import Axe.Concolic.Smt2Emit

/-!
# What the emitted script means

A term denotes what its node denotes once every variable is declared with its
sort and every literal has its width. Under `validate` these are the only ways
for the script to go wrong, besides a root that is not Boolean.
-/
namespace Axe.Concolic

open Smt (SmtSort Value Assignment Term Command Script)

variable {dag : ExprDag} {query : BranchQuery}

/-- The assignment of symbol ids that an assignment of names stands for. -/
def ExprDag.named (dag : ExprDag) (ρ : Assignment String) : Assignment SymbolId :=
  fun v s => ρ ((dag.symbolName v).getD "") s

section Literals
variable {value : BitVec 128} {bits : Nat}

theorem length_hexPadded {n nibbles : Nat} (h : n < 16 ^ nibbles) (hn : 0 < nibbles) :
    (hexPadded n nibbles).length = nibbles := by
  have hlen := (Nat.length_toDigits_le_iff (by decide : 1 < 16) hn).mpr h
  simp [hexPadded, List.leftpad]
  omega

theorem lt_sixteen_pow {n bits : Nat} (h : n < 2 ^ bits) : n < 16 ^ ((bits + 3) / 4) := by
  have h16 : 16 ^ ((bits + 3) / 4) = 2 ^ (4 * ((bits + 3) / 4)) := by
    rw [Nat.pow_mul]
  rw [h16]
  exact h.trans_le (Nat.pow_le_pow_right (by decide) (by omega))

theorem hexPadded_sort (decl : String → Option SmtSort) {n nibbles : Nat} (h : n < 16 ^ nibbles)
    (hn : 0 < nibbles) :
    (Term.hex (hexPadded n nibbles)).sort decl = some (.bv (4 * nibbles)) := by
  have hlen := length_hexPadded h hn
  have hne : hexPadded n nibbles ≠ [] := List.ne_nil_of_length_pos (by omega)
  have hall : (hexPadded n nibbles).all Smt.isHexDigit = true :=
    List.all_eq_true.mpr (Smt.isHexDigit_leftpad nibbles (Smt.isHexDigit_toDigits n))
  rw [Term.sort, if_pos ⟨hne, hall⟩, hlen]

theorem hexPadded_eval (decl : String → Option SmtSort) (ρ : Assignment String) {n nibbles : Nat}
    (h : n < 16 ^ nibbles) (hn : 0 < nibbles) :
    (Term.hex (hexPadded n nibbles)).eval decl ρ =
      some (.bv (4 * nibbles) (BitVec.ofNat (4 * nibbles) n)) := by
  have hval : Smt.hexValue (hexPadded n nibbles) = n := by
    rw [hexPadded, Smt.hexValue_leftpad, Smt.hexValue_toDigits]
  rw [Term.eval, hval, length_hexPadded h hn]

/-- A constant that passes its check is written as a literal of its value; the
literal has the declared width unless it is one of the wide ones and not made of
whole hexadecimal digits. -/
theorem constTerm_spec (decl : String → Option SmtSort) (h₁ : 1 ≤ bits) (h₂ : bits ≤ 128)
    (h₃ : value.toNat < 2 ^ bits) :
    ∃ t w, constTerm value bits = some t ∧ t.sort decl = some (.bv w) ∧
      (w = bits ↔ (64 < bits → 4 ∣ bits)) ∧
      ∀ ρ, t.eval decl ρ = some (.bv w (BitVec.ofNat w value.toNat)) := by
  unfold constTerm
  by_cases h : bits ≤ 64
  · refine ⟨_, bits, by rw [if_pos h], ?_, ?_, fun ρ => rfl⟩
    · rw [Term.sort, if_pos ⟨by omega, h₃⟩]
    · simp
      omega
  · have hlt := lt_sixteen_pow h₃
    have hpos : 0 < (bits + 3) / 4 := by omega
    refine ⟨_, _, by rw [if_neg h, if_pos (by omega)], hexPadded_sort decl hlt hpos, ?_,
      fun ρ => hexPadded_eval decl ρ hlt hpos⟩
    omega

end Literals

section Terms

/-- What a term needs of the declarations: the variables of its node are
declared with their sorts and its constants are literals of their widths. -/
structure Covered (dag : ExprDag) (decl : String → Option SmtSort) (root : NodeId) : Prop where
  vars : ∀ n v s, dag.Reaches root n → dag.tryGet n = some (.var v s) →
    ∃ name, dag.symbolName v = some name ∧ decl name = some s
  literals : ∀ n value bits, dag.Reaches root n → dag.tryGet n = some (.bvConst value bits) →
    64 < bits → 4 ∣ bits

theorem Covered.child {decl : String → Option SmtSort} {p c : NodeId} {e : Expr}
    (h : Covered dag decl p) (he : dag.tryGet p = some e) (hc : c ∈ childrenOf e) :
    Covered dag decl c :=
  ⟨fun n v s hn => h.vars n v s (.of_child he hc hn),
    fun n value bits hn => h.literals n value bits (.of_child he hc hn)⟩

/-- A term of the sort and of the value of its node, over symbols that an
assignment of names gives values to by `view`. -/
def TermDenotes {κ : Type} (dag : ExprDag) (decl : κ → Option SmtSort)
    (view : Assignment String → Assignment κ) (id : NodeId) (s : SmtSort) (t : Term κ) : Prop :=
  t.sort decl = some s ∧
    ∀ ρ v, dag.Evaluates (dag.named ρ) id v → t.eval decl (view ρ) = some v

/-- The operator of a node, applied to terms of its children. -/
theorem TermDenotes.app {κ : Type} {decl : κ → Option SmtSort}
    {view : Assignment String → Assignment κ} {id : NodeId} {e : Expr} {o : Smt.Op} {s : SmtSort}
    {ts : List (Term κ)} (he : dag.tryGet id = some e) (ho : e.op = some o)
    (hc : childrenOf e ≠ []) (hs : dag.HasSort id s)
    (hts : List.Forall₂ (fun c t => ∃ u, dag.HasSort c u ∧ TermDenotes dag decl view c u t)
      (childrenOf e) ts) : TermDenotes dag decl view id s (.app o ts) := by
  obtain ⟨f, ss, hf, hss, hs⟩ := DagFold.Folds.iff.mp hs
  cases he.symm.trans hf
  simp only [sortAlg, ho, Option.filter_eq_some_iff] at hs
  have hparts : List.Forall₂ (fun t s => t.sort decl = some s) ts ss ∧
      ∀ ρ vs, List.Forall₂ (dag.Evaluates (dag.named ρ)) (childrenOf e) vs →
        List.Forall₂ (fun t v => t.eval decl (view ρ) = some v) ts vs := by
    clear hs hc
    generalize childrenOf e = l at hts hss
    induction hts generalizing ss with
    | nil =>
      cases hss
      exact ⟨.nil, fun ρ vs h => by cases h; exact .nil⟩
    | @cons c t l ts hct _ ih =>
      cases hss with
      | cons hcs hss =>
        obtain ⟨hsorts, hevals⟩ := ih _ hss
        obtain ⟨u, hu, hden⟩ := hct
        cases hu.unique hcs
        refine ⟨.cons hden.1 hsorts, fun ρ vs h => ?_⟩
        cases h with
        | cons hv hvs => exact .cons (hden.2 ρ _ hv) (hevals ρ _ hvs)
  have hne : ts ≠ [] := by
    rintro rfl
    exact hc (List.forall₂_nil_right_iff.mp hts)
  refine ⟨(Term.sort_app hne hparts.1).trans hs.1, fun ρ v hv => ?_⟩
  obtain ⟨f, vs, hf, hvs, hev⟩ := DagFold.Folds.iff.mp hv
  cases he.symm.trans hf
  rw [Term.eval_app (hparts.2 ρ vs hvs)]
  simpa only [evalAlg, ho] using hev

/-- A term of the text, over declared names. -/
abbrev Denotes (dag : ExprDag) (decl : String → Option SmtSort) : NodeId → SmtSort →
    Term String → Prop :=
  TermDenotes dag decl fun ρ => ρ

theorem termAlg_op {e : Expr} {o : Smt.Op} (h : e.op = some o) (hc : childrenOf e ≠ [])
    (ts : List (Term String)) : termAlg dag e ts = some (.app o ts) := by
  cases e with
  | and l | or l =>
    cases l with
    | nil => exact absurd rfl hc
    | cons c l =>
      cases h
      rfl
  | var | bvConst | boolConst => cases h
  | _ => cases h; rfl

/-- An empty conjunction or disjunction is written as its unit. -/
theorem termAlg_empty {e : Expr} {o : Smt.Op} (h : e.op = some o) (hc : childrenOf e = [])
    (ts : List (Term String)) :
    ∃ b, termAlg dag e ts = some (.lit b) ∧ o.apply [] = some (.bool b) := by
  cases e with
  | and l =>
    cases h
    cases hc
    exact ⟨true, rfl, rfl⟩
  | or l =>
    cases h
    cases hc
    exact ⟨false, rfl, rfl⟩
  | var | bvConst | boolConst => cases h
  | _ => cases hc

/-- The leaves. -/
theorem termAlg_leaf {decl : String → Option SmtSort} {id : NodeId} {e : Expr} {s : SmtSort}
    (hcov : Covered dag decl id) (he : dag.tryGet id = some e) (ho : e.op = none)
    (hs : e.leafSort = some s) (ts : List (Term String)) :
    ∃ t, termAlg dag e ts = some t ∧ t.sort decl = some s ∧
      ∀ ρ v, e.leafValue (dag.named ρ) = some v → t.eval decl ρ = some v := by
  cases e with
  | var name s' =>
    simp only [Expr.leafSort, Option.ite_none_right_eq_some, Option.some.injEq] at hs
    obtain ⟨-, rfl⟩ := hs
    obtain ⟨nm, hn, hdecl⟩ := hcov.vars id name s' (.refl id) he
    refine ⟨.symbol nm, by rw [termAlg, hn]; rfl, hdecl, fun ρ v hv => ?_⟩
    cases hv
    rw [Term.eval, hdecl, ExprDag.named, hn]
    rfl
  | bvConst value bits =>
    simp only [Expr.leafSort, Option.ite_none_right_eq_some, Option.some.injEq] at hs
    obtain ⟨⟨h₁, h₂, h₃⟩, rfl⟩ := hs
    obtain ⟨t, w, ht, hsort, hw, heval⟩ := constTerm_spec decl h₁ h₂ h₃
    have hbits : w = bits := hw.mpr (hcov.literals id value bits (.refl id) he)
    subst hbits
    refine ⟨t, ht, hsort, fun ρ v hv => ?_⟩
    cases hv
    exact heval ρ
  | boolConst b =>
    cases hs
    refine ⟨.lit b, rfl, rfl, fun ρ v hv => ?_⟩
    cases hv
    rfl
  | _ => cases ho

/-- A well-sorted node is written as a term that denotes it. -/
theorem exists_term (hd : dag.Acyclic) {decl : String → Option SmtSort} {id : NodeId} {s : SmtSort}
    (h : dag.HasSort id s) (hcov : Covered dag decl id) :
    ∃ t, dag.term id = some t ∧ Denotes dag decl id s t := by
  obtain ⟨t, ht, hden⟩ : ∃ t, DagFold.Folds dag.tryGet childrenOf (termAlg dag) id t ∧
      Denotes dag decl id s t := by
    refine DagFold.Folds.induct (P := fun id s => Covered dag decl id →
      ∃ t, DagFold.Folds dag.tryGet childrenOf (termAlg dag) id t ∧ Denotes dag decl id s t)
      ?_ h hcov
    intro id e ss s he hss hs hcov
    have hid : dag.HasSort id s :=
      DagFold.Folds.iff.mpr ⟨e, ss, he, hss.imp fun _ _ h => h.1, hs⟩
    have hchild : ∃ ts, List.Forall₂ (fun c t => DagFold.Folds dag.tryGet childrenOf (termAlg dag) c t ∧
        ∃ u, dag.HasSort c u ∧ Denotes dag decl c u t) (childrenOf e) ts := by
      refine DagFold.forall₂_of_mem fun c hc => ?_
      obtain ⟨u, -, hu, hcu⟩ := DagFold.forall₂_mem_left hss c hc
      obtain ⟨t, ht, hden⟩ := hcu (hcov.child he hc)
      exact ⟨t, ht, u, hu, hden⟩
    obtain ⟨ts, hts⟩ := hchild
    have hterms := hts.imp fun _ _ h => h.1
    cases ho : e.op with
    | none =>
      simp only [sortAlg, ho] at hs
      obtain ⟨t, ht, hsort, heval⟩ := termAlg_leaf hcov he ho hs ts
      refine ⟨t, DagFold.Folds.iff.mpr ⟨e, ts, he, hterms, ht⟩, hsort, fun ρ v hv => heval ρ v ?_⟩
      obtain ⟨f, vs, hf, -, hev⟩ := DagFold.Folds.iff.mp hv
      cases he.symm.trans hf
      simpa only [evalAlg, ho] using hev
    | some o =>
      by_cases hc : childrenOf e = []
      · obtain ⟨b, ht, hap⟩ := termAlg_empty ho hc ts
        refine ⟨.lit b, DagFold.Folds.iff.mpr ⟨e, ts, he, hterms, ht⟩, ?_, fun ρ v hv => ?_⟩
        · rw [hc, List.forall₂_nil_left_iff] at hss
          subst hss
          simp only [sortAlg, ho, Option.filter_eq_some_iff] at hs
          exact (Smt.Op.sort_of_apply hap).symm.trans hs.1
        · obtain ⟨f, vs, hf, hvs, hev⟩ := DagFold.Folds.iff.mp hv
          cases he.symm.trans hf
          rw [hc, List.forall₂_nil_left_iff] at hvs
          subst hvs
          rw [evalAlg, ho] at hev
          exact hap.symm.trans hev
      · exact ⟨.app o ts, DagFold.Folds.iff.mpr ⟨e, ts, he, hterms, termAlg_op ho hc ts⟩,
          .app he ho hc hid (hts.imp fun _ _ h => h.2)⟩
  exact ⟨t, DagFold.Folds.fold_eq ExprDag.lt_of_succ_ne_nil hd ht, hden⟩

end Terms

section Scripts

theorem lookup_eq_some_of_const {l : List (String × SmtSort)} {name : String} {s t : SmtSort}
    (hl : ∀ p ∈ l, p.2 = t) : l.lookup name = some s ↔ s = t ∧ ∃ p ∈ l, p.1 = name := by
  induction l with
  | nil => simp
  | cons p l ih =>
    rw [List.lookup_cons]
    by_cases h : name = p.1
    · subst h
      simp [hl p (by simp), eq_comm]
    · have hne : (name == p.1) = false := by simpa using h
      rw [hne, ih fun q hq => hl q (by simp [hq])]
      simp [Ne.symm h]

/-- The script declares the input bytes and nothing else. -/
theorem preamble_declares (query : BranchQuery) (name : String) (s : SmtSort) :
    (preamble query).declares name = some s ↔
      s = .bv 8 ∧ ∃ i < query.inputBytes, name = s!"input_b{i}" := by
  have hmap : (preamble query).filterMap Command.declared =
      (List.range query.inputBytes).map fun i => (s!"input_b{i}", SmtSort.bv 8) := by
    rw [preamble, List.filterMap_append, List.filterMap_map]
    change [] ++ (List.range query.inputBytes).filterMap
      (fun i => some (s!"input_b{i}", SmtSort.bv 8)) = _
    rw [List.nil_append, List.filterMap_eq_map']
  rw [Script.declares, hmap, lookup_eq_some_of_const (t := .bv 8) (by simp)]
  simp [eq_comm]

theorem assertCommand_eq_some {c : NodeId × Nat} {cmd : Command} :
    assertCommand dag c = some cmd ↔
      ∃ t, dag.term c.1 = some t ∧ cmd = .assertNamed t (constraintName c.2) := by
  simp [assertCommand, eq_comm]

theorem asserted_of_forall₂ {l : List (NodeId × Nat)} {cmds : List Command}
    (h : List.Forall₂ (fun c cmd => assertCommand dag c = some cmd) l cmds) :
    ∃ ts, List.Forall₂ (fun c t => dag.term c.1 = some t) l ts ∧
      cmds.filterMap Command.asserted = ts ∧ cmds.filterMap Command.declared = [] := by
  induction h with
  | nil => exact ⟨[], .nil, rfl, rfl⟩
  | cons hc _ ih =>
    obtain ⟨t, ht, rfl⟩ := assertCommand_eq_some.mp hc
    obtain ⟨ts, hts, hb, hd⟩ := ih
    refine ⟨t :: ts, .cons ht hts, by simp [Command.asserted, hb], ?_⟩
    rw [List.filterMap_cons_none rfl, hd]

/-- The assertions of a script are the terms of the constraints and of the target. -/
theorem emitScript_eq_some {script : Script} (h : emitScript query dag = some script) :
    ∃ ts t, List.Forall₂ (fun p t => dag.term p = some t) query.pathConstraints ts ∧
      dag.term query.targetBranch = some t ∧ script.bodies = ts ++ [targetTerm query t] ∧
      script.declares = (preamble query).declares := by
  obtain ⟨cmds, hcmds, h⟩ := Option.bind_eq_some_iff.mp h
  obtain ⟨t, ht, h⟩ := Option.bind_eq_some_iff.mp h
  cases Option.some.inj h
  rw [DagFold.mapM_some_iff] at hcmds
  obtain ⟨ts, hts, hbodies, hdecl⟩ := asserted_of_forall₂ hcmds
  refine ⟨ts, t, ?_, ht, ?_, ?_⟩
  · have := List.forall₂_map_left_iff (f := Prod.fst) (R := fun p t => dag.term p = some t)
      |>.mpr hts
    rwa [List.zipIdx_map_fst] at this
  · have hpre : (preamble query).filterMap Command.asserted = [] := by
      simp [preamble, Command.asserted]
    simp [Script.bodies, hpre, hbodies, Command.asserted]
  · funext name
    rw [Script.declares, List.filterMap_append, List.filterMap_append, hdecl, List.append_nil]
    change (_ ++ []).lookup name = _
    rw [List.append_nil]
    rfl

theorem emitScript_isSome (h : ∀ r ∈ query.roots, ∃ t, dag.term r = some t) :
    ∃ script, emitScript query dag = some script := by
  obtain ⟨t, ht⟩ := h query.targetBranch (by simp [BranchQuery.roots])
  obtain ⟨cmds, hcmds⟩ : ∃ cmds,
      query.pathConstraints.zipIdx.mapM (assertCommand dag) = some cmds := by
    simp only [DagFold.mapM_some_iff]
    refine DagFold.forall₂_of_mem fun c hc => ?_
    have hmem : c.1 ∈ query.pathConstraints := by
      have := List.mem_map_of_mem (f := Prod.fst) hc
      rwa [List.zipIdx_map_fst] at this
    obtain ⟨u, hu⟩ := h c.1 (by simp [BranchQuery.roots, hmem])
    exact ⟨_, assertCommand_eq_some.mpr ⟨u, hu, rfl⟩⟩
  exact ⟨_, by rw [emitScript, hcmds, ht]; rfl⟩

end Scripts

section Faithful

/-- The script that is emitted is well-sorted and closed, its literals have the
declared widths, and its assertions hold exactly where the query does. -/
structure Faithful (query : BranchQuery) (dag : ExprDag) (script : Script) : Prop where
  wellSorted : ∀ t ∈ script.bodies, t.sort script.declares = some .bool
  closed : ∀ r ∈ query.roots, ∀ n v s, dag.Reaches r n → dag.tryGet n = some (.var v s) →
    ∃ name, dag.symbolName v = some name ∧ script.declares name = some s
  literals : ∀ r ∈ query.roots, ∀ n value bits, dag.Reaches r n →
    dag.tryGet n = some (.bvConst value bits) →
    ∃ t, constTerm value bits = some t ∧ t.sort script.declares = some (.bv bits)
  meaning : ∀ ρ, (∀ t ∈ script.bodies, t.eval script.declares ρ = some (.bool true)) ↔
    query.Holds dag (dag.named ρ)

/-- `emit_query` writes a faithful script. -/
def EmitsFaithfully (query : BranchQuery) (dag : ExprDag) : Prop :=
  ∃ script names, emitScript query dag = some script ∧
    emitQuery query dag = some ⟨script.render, names⟩ ∧ Faithful query dag script

/-- The roots are Boolean, their variables are declared input bytes, and their
constants wider than 64 bits are made of whole hexadecimal digits. -/
structure InputBytesOnly (query : BranchQuery) (dag : ExprDag) : Prop where
  boolean : ∀ r ∈ query.roots, dag.sortOf r = .ok .bool
  inputs : ∀ r ∈ query.roots, ∀ n v s, dag.Reaches r n → dag.tryGet n = some (.var v s) →
    s = .bv 8 ∧ ∃ i < query.inputBytes, dag.symbolName v = some s!"input_b{i}"
  wholeDigits : ∀ r ∈ query.roots, ∀ n value bits, dag.Reaches r n →
    dag.tryGet n = some (.bvConst value bits) → 64 < bits → 4 ∣ bits

/-- Without array variables nothing has an array sort. -/
theorem ExprDag.LaxSort.not_array {id : NodeId} {s : SmtSort} (h : dag.LaxSort id s)
    (hvars : ∀ n v t, dag.Reaches id n → dag.tryGet n = some (.var v t) → ∀ i w, t ≠ .array i w) :
    ∀ i w, s ≠ .array i w := by
  refine DagFold.Folds.induct (P := fun id s =>
    (∀ n v t, dag.Reaches id n → dag.tryGet n = some (.var v t) → ∀ i w, t ≠ .array i w) →
      ∀ i w, s ≠ .array i w) ?_ h hvars
  intro id e ss s he hss hs hvars i w
  have hsub : ∀ c ∈ childrenOf e, ∀ n v t, dag.Reaches c n → dag.tryGet n = some (.var v t) →
      ∀ i w, t ≠ .array i w := fun c hc n v t hn => hvars n v t (.of_child he hc hn)
  cases e with
  | var name t =>
    cases hs
    exact hvars id name s (.refl id) he i w
  | load8 mem addr =>
    obtain ⟨_, _, rfl, rfl⟩ := laxAlg_load8_iff.mp hs
    exact SmtSort.noConfusion
  | store8 mem addr value =>
    obtain ⟨j, _, rfl, rfl⟩ := laxAlg_store8_iff.mp hs
    simp only [childrenOf, List.forall₂_cons] at hss
    exact absurd rfl (hss.1.2 (hsub mem (by simp [childrenOf])) j 8)
  | ite cond thenId elseId =>
    simp only [laxAlg, sortAlg, Expr.op, Option.filter_eq_some_iff, Smt.Op.sort_ite_iff] at hs
    obtain ⟨rfl, -⟩ := hs
    simp only [childrenOf, List.forall₂_cons] at hss
    exact hss.2.1.2 (hsub thenId (by simp [childrenOf])) i w
  | _ =>
    simp only [laxAlg, sortAlg, Expr.op, Option.filter_eq_some_iff, Smt.Op.sort_not_iff,
      Smt.Op.sort_and_iff, Smt.Op.sort_or_iff, Smt.Op.sort_eq_iff, Smt.Op.sort_bin_iff,
      Smt.Op.sort_cmp_iff, Smt.Op.sort_extract_iff, Smt.Op.sort_concat_iff,
      Smt.Op.sort_zeroExtend_iff, Smt.Op.sort_signExtend_iff, Expr.leafSort] at hs
    grind

theorem hasSort_of_validate (hd : dag.Acyclic) {root : NodeId} (hv : dag.validate root = .ok ())
    (hvars : ∀ n v s, dag.Reaches root n → dag.tryGet n = some (.var v s) →
      s.Valid ∧ ∀ i w, s ≠ .array i w) :
    ∃ s, dag.HasSort root s := by
  have hok := (validate_eq_ok hd).mp hv
  obtain ⟨s, hs⟩ := exists_laxSort hd hok root (.refl root)
  have harr : ∀ n c t, dag.Reaches root n → c ∈ dag.succ n → dag.LaxSort c t →
      ∀ i w, t ≠ .array i w := fun n c t hn hc ht =>
    ht.not_array fun m v t hm he => (hvars m v t ((hn.tail hc).trans hm) he).2
  refine ⟨s, hs.hasSort fun n hn hu => ?_⟩
  rcases hu with ⟨he, hval⟩ | ⟨he, hm, -, -⟩ | ⟨he, hm, -, -⟩
  · exact hval (hvars n _ _ hn he).1
  · exact harr n _ _ hn (by simp [ExprDag.succ_eq he, childrenOf]) hm _ _ rfl
  · exact harr n _ _ hn (by simp [ExprDag.succ_eq he, childrenOf]) hm _ _ rfl

/-- Input bytes are variables of a sort that exists. -/
theorem byte_valid {s : SmtSort} (h : s = .bv 8) : s.Valid ∧ ∀ i w, s ≠ .array i w := by
  subst h
  exact ⟨by decide, fun _ _ => SmtSort.noConfusion⟩

theorem targetTerm_sort {decl : String → Option SmtSort} {t : Term String} :
    (targetTerm query t).sort decl = some .bool ↔ t.sort decl = some .bool := by
  unfold targetTerm
  split
  · rfl
  · cases ht : t.sort decl <;> simp [Term.sort, Term.sorts, ht]

theorem targetTerm_eval {decl : String → Option SmtSort} {ρ : Assignment String} {t : Term String}
    {b : Bool} (h : t.eval decl ρ = some (.bool b)) :
    (targetTerm query t).eval decl ρ = some (.bool true) ↔ b = query.wantTaken := by
  unfold targetTerm
  split
  · rename_i hw
    simp [h, hw]
  · rename_i hw
    simp [Term.eval, Term.evals, h, Smt.Op.apply, hw]

theorem Covered.of_inputBytes (h : InputBytesOnly query dag) {r : NodeId} (hr : r ∈ query.roots) :
    Covered dag (preamble query).declares r := by
  refine ⟨fun n v s hn he => ?_, h.wholeDigits r hr⟩
  obtain ⟨rfl, i, hi, hname⟩ := h.inputs r hr n v s hn he
  exact ⟨_, hname, (preamble_declares query _ _).mpr ⟨rfl, i, hi, rfl⟩⟩

theorem const_of_validate (hd : dag.Acyclic) {r n : NodeId} {value : BitVec 128} {bits : Nat}
    (hv : dag.validate r = .ok ()) (hn : dag.Reaches r n)
    (he : dag.tryGet n = some (.bvConst value bits)) :
    1 ≤ bits ∧ bits ≤ 128 ∧ value.toNat < 2 ^ bits := by
  obtain ⟨e, he', hcheck⟩ := (validate_eq_ok hd).mp hv n hn
  cases he.symm.trans he'
  exact hcheck

theorem Covered.of_faithful {script : Script} (h : Faithful query dag script)
    (hv : ∀ r ∈ query.roots, dag.validate r = .ok ()) (hd : dag.Acyclic) {r : NodeId}
    (hr : r ∈ query.roots) : Covered dag script.declares r := by
  refine ⟨h.closed r hr, fun n value bits hn he h64 => ?_⟩
  obtain ⟨t, ht, hsort⟩ := h.literals r hr n value bits hn he
  obtain ⟨h₁, h₂, h₃⟩ := const_of_validate hd (hv r hr) hn he
  obtain ⟨u, w, hu, husort, hw, -⟩ := constTerm_spec script.declares h₁ h₂ h₃
  cases ht.symm.trans hu
  cases hsort.symm.trans husort
  exact hw.mp rfl h64

/-- The assertions of a script are terms of the roots, of any kind these have. -/
theorem script_terms {script : Script} (hscript : emitScript query dag = some script)
    {Q : NodeId → Term String → Prop} (hterm : ∀ r ∈ query.roots, ∃ t, dag.term r = some t ∧ Q r t) :
    ∃ ts t, script.bodies = ts ++ [targetTerm query t] ∧
      List.Forall₂ Q query.pathConstraints ts ∧ Q query.targetBranch t := by
  obtain ⟨ts, t, hts, ht, hbodies, -⟩ := emitScript_eq_some hscript
  refine ⟨ts, t, hbodies, ?_, ?_⟩
  · have hmem : ∀ p ∈ query.pathConstraints, p ∈ query.roots :=
      fun p hp => by simp [BranchQuery.roots, hp]
    clear hbodies ht
    generalize query.pathConstraints = l at hts hmem
    induction hts with
    | nil => exact .nil
    | @cons p u l us hpu _ ih =>
      obtain ⟨v, hv, hq⟩ := hterm p (hmem p (by simp))
      cases hpu.symm.trans hv
      exact .cons hq (ih fun q hq => hmem q (by simp [hq]))
  · obtain ⟨v, hv, hq⟩ := hterm query.targetBranch (by simp [BranchQuery.roots])
    cases ht.symm.trans hv
    exact hq

/-- The term of a Boolean node has the node's truth value. -/
theorem Denotes.eval_iff {decl : String → Option SmtSort} {p : NodeId} {t : Term String}
    (hs : dag.HasSort p .bool) (h : Denotes dag decl p .bool t) (ρ : Assignment String) :
    ∃ b, t.eval decl ρ = some (.bool b) ∧ ∀ c, dag.Gives (dag.named ρ) p c ↔ b = c := by
  obtain ⟨b, hb⟩ := hs.gives (dag.named ρ)
  refine ⟨b, h.2 ρ _ hb, fun c => ⟨fun hc => ?_, fun hc => hc ▸ hb⟩⟩
  cases ExprDag.Evaluates.unique hb hc
  rfl

theorem forall₂_eval_iff {decl : String → Option SmtSort} {ρ : Assignment String}
    {ps : List NodeId} {ts : List (Term String)}
    (h : List.Forall₂ (fun p t => dag.HasSort p .bool ∧ Denotes dag decl p .bool t) ps ts) :
    (∀ t ∈ ts, t.eval decl ρ = some (.bool true)) ↔
      ∀ p ∈ ps, dag.Gives (dag.named ρ) p true := by
  induction h with
  | nil => simp
  | cons hpt _ ih =>
    obtain ⟨b, hb, hgives⟩ := hpt.2.eval_iff hpt.1 ρ
    simp [ih, hb, hgives]

/-- For a validated query the emitted script is faithful exactly when the roots are
Boolean, every variable is one of the declared input bytes, and every constant
wider than 64 bits is made of whole hexadecimal digits. -/
theorem emitQuery_faithful_iff (hd : dag.Acyclic)
    (hv : ∀ r ∈ query.roots, dag.validate r = .ok ()) :
    EmitsFaithfully query dag ↔ InputBytesOnly query dag := by
  constructor
  · rintro ⟨script, names, hscript, -, hf⟩
    obtain ⟨-, -, -, -, -, hdecl⟩ := emitScript_eq_some hscript
    have hcov : ∀ r ∈ query.roots, Covered dag script.declares r :=
      fun r hr => Covered.of_faithful hf hv hd hr
    have hin : ∀ r ∈ query.roots, ∀ n v s, dag.Reaches r n → dag.tryGet n = some (.var v s) →
        s = .bv 8 ∧ ∃ i < query.inputBytes, dag.symbolName v = some s!"input_b{i}" := by
      intro r hr n v s hn he
      obtain ⟨name, hname, hs⟩ := (hcov r hr).vars n v s hn he
      rw [hdecl, preamble_declares] at hs
      obtain ⟨rfl, i, hi, rfl⟩ := hs
      exact ⟨rfl, i, hi, hname⟩
    have hterm : ∀ r ∈ query.roots, ∃ t, dag.term r = some t ∧
        ∃ s, dag.HasSort r s ∧ t.sort script.declares = some s := by
      intro r hr
      obtain ⟨s, hs⟩ := hasSort_of_validate hd (hv r hr) fun n v s hn he =>
        byte_valid (hin r hr n v s hn he).1
      obtain ⟨t, ht, hden⟩ := exists_term hd hs (hcov r hr)
      exact ⟨t, ht, s, hs, hden.1⟩
    obtain ⟨ts, t, hbodies, hts, s, hs, hsort⟩ := script_terms hscript hterm
    have hbool : ∀ r ∈ query.roots, dag.HasSort r .bool := by
      intro r hr
      rcases List.mem_append.mp hr with hr | hr
      · obtain ⟨u, hu, s, hs, hsort⟩ := DagFold.forall₂_mem_left hts r hr
        have hu := hf.wellSorted u (by simp [hbodies, hu])
        cases hsort.symm.trans hu
        exact hs
      · cases List.mem_singleton.mp hr
        have ht := targetTerm_sort.mp (hf.wellSorted (targetTerm query t) (by simp [hbodies]))
        cases hsort.symm.trans ht
        exact hs
    refine ⟨fun r hr => ?_, hin, fun r hr => (hcov r hr).literals⟩
    exact (hbool r hr).lax.sortOf_of_validate hd (by simp [Narrow]) (hv r hr)
  · intro h
    have hcov : ∀ r ∈ query.roots, Covered dag (preamble query).declares r :=
      fun r hr => Covered.of_inputBytes h hr
    have hsort : ∀ r ∈ query.roots, dag.HasSort r .bool := by
      intro r hr
      obtain ⟨s, hs⟩ := hasSort_of_validate hd (hv r hr) fun n v s hn he =>
        byte_valid (h.inputs r hr n v s hn he).1
      cases (hs.lax.agrees hd _ (h.boolean r hr)).1
      exact hs
    obtain ⟨script, hscript⟩ := emitScript_isSome fun r hr =>
      (exists_term hd (hsort r hr) (hcov r hr)).imp fun _ h => h.1
    obtain ⟨-, -, -, -, -, hdecl⟩ := emitScript_eq_some hscript
    obtain ⟨ts, t, hbodies, hts, htarget, hden⟩ := script_terms hscript
      (Q := fun r t => dag.HasSort r .bool ∧ Denotes dag script.declares r .bool t) fun r hr => by
        obtain ⟨t, ht, hden⟩ := exists_term hd (hsort r hr) (hcov r hr)
        exact ⟨t, ht, hsort r hr, hdecl ▸ hden⟩
    refine ⟨script, _, hscript, by rw [emitQuery_eq hd, hscript]; rfl, ?_, ?_, ?_, fun ρ => ?_⟩
    · intro u hu
      rw [hbodies] at hu
      rcases List.mem_append.mp hu with hu | hu
      · obtain ⟨p, -, -, hp⟩ := DagFold.forall₂_mem_left hts.flip u hu
        exact hp.1
      · cases List.mem_singleton.mp hu
        exact targetTerm_sort.mpr hden.1
    · exact fun r hr n v s hn he => hdecl ▸ (hcov r hr).vars n v s hn he
    · intro r hr n value bits hn he
      obtain ⟨h₁, h₂, h₃⟩ := const_of_validate hd (hv r hr) hn he
      obtain ⟨u, w, hu, husort, hw, -⟩ := constTerm_spec script.declares h₁ h₂ h₃
      exact ⟨u, hu, hw.mpr ((hcov r hr).literals n value bits hn he) ▸ husort⟩
    · obtain ⟨b, hb, hgives⟩ := hden.eval_iff htarget ρ
      simp only [hbodies, List.forall_mem_append, List.forall_mem_singleton,
        forall₂_eval_iff hts, targetTerm_eval hb, BranchQuery.Holds, hgives]

/-- The input byte zero-extended to 65 bits equals a 65-bit constant. -/
def wideLiteral : ExprDag :=
  let symbol := (ExprDag.new.internSymbol "input_b0").2
  let byte := (symbol.intern (.var 0 (.bv 8))).2
  let ext := (byte.intern (.zeroExt 57 0)).2
  let one := (ext.intern (.bvConst 1 65)).2
  (one.intern (.eq 1 2)).2

def wideLiteralQuery : BranchQuery := ⟨1, [], 3, true, 0, none⟩

theorem wideLiteral_validate : ∀ r ∈ wideLiteralQuery.roots, wideLiteral.validate r = .ok () := by
  decide

theorem wideLiteral_acyclic : wideLiteral.Acyclic :=
  ExprDag.Ordered.acyclic (by decide)

/-- The 65-bit constant is written with 17 hexadecimal digits: the literal has 68
bits and the assertion has no sort. -/
theorem emitQuery_widens_literal :
    wideLiteral.Acyclic ∧ (∀ r ∈ wideLiteralQuery.roots, wideLiteral.validate r = .ok ()) ∧
      (emitScript wideLiteralQuery wideLiteral).map
        (fun script => script.bodies.map fun t => t.sort script.declares) = some [none] ∧
      ¬ EmitsFaithfully wideLiteralQuery wideLiteral := by
  refine ⟨wideLiteral_acyclic, wideLiteral_validate, by decide, ?_⟩
  rintro ⟨script, names, -, -, hf⟩
  have hcov := Covered.of_faithful hf wideLiteral_validate wideLiteral_acyclic (r := 3) (by decide)
  have hreach : wideLiteral.Reaches 3 2 := .of_child (e := .eq 1 2) rfl (by decide) (.refl 2)
  exact absurd (hcov.literals 2 1 65 hreach rfl (by decide)) (by decide)

theorem emitQuery_faithful_iff_wideLiteral :
    EmitsFaithfully wideLiteralQuery wideLiteral ↔ InputBytesOnly wideLiteralQuery wideLiteral :=
  emitQuery_faithful_iff wideLiteral_acyclic wideLiteral_validate

end Faithful

end Axe.Concolic
