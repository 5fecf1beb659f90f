import Axe.Concolic.Lowering

/-!
# The lowered terms and the text

Both translations denote the node where they denote anything. Lowering fails
exactly on an `Ite` between Booleans; the text goes wrong on names used at two
sorts and on wide literals, whose width is rounded up to whole hexadecimal
digits.
-/
namespace Axe.Concolic

open Smt (SmtSort Value Assignment Term)
open Exact (Prog Decides)

variable {dag : ExprDag}

/-- The value of a Z3 constant is that of its name at its sort. -/
def constView (ρ : Assignment String) : Assignment (String × SmtSort) := fun k s => ρ k.1 s

abbrev LowersTo (dag : ExprDag) : NodeId → SmtSort → Ast → Prop :=
  TermDenotes dag constSort constView

/-- No `Ite` below a node has the sort `Bool`. -/
def BoolIteFree (dag : ExprDag) (id : NodeId) : Prop :=
  ∀ n cond thenId elseId, dag.Reaches id n → dag.tryGet n = some (.ite cond thenId elseId) →
    ¬ dag.HasSort n .bool

/-- Neither an array operation nor an array variable. -/
def Expr.MemoryFree : Expr → Prop
  | .load8 _ _ | .store8 _ _ _ | .var _ (.array _ _) => False
  | _ => True

/-- What lowering relies on below a root: checked nodes, no arrays, known names. -/
structure Lowerable (dag : ExprDag) (id : NodeId) : Prop where
  checked : ∀ n, dag.Reaches id n → dag.NodeOk n
  memoryFree : ∀ n e, dag.Reaches id n → dag.tryGet n = some e → e.MemoryFree
  named : ∀ n v s, dag.Reaches id n → dag.tryGet n = some (.var v s) →
    ∃ name, dag.symbolName v = some name

theorem Lowerable.child {id c : NodeId} {e : Expr} (h : Lowerable dag id)
    (he : dag.tryGet id = some e) (hc : c ∈ childrenOf e) : Lowerable dag c :=
  ⟨fun n hn => h.checked n (.of_child he hc hn), fun n f hn => h.memoryFree n f (.of_child he hc hn),
    fun n v s hn => h.named n v s (.of_child he hc hn)⟩

theorem boolIteFree_iff {id : NodeId} {e : Expr} (he : dag.tryGet id = some e) :
    BoolIteFree dag id ↔ (∀ c ∈ childrenOf e, BoolIteFree dag c) ∧
      ∀ cond thenId elseId, e = .ite cond thenId elseId → ¬ dag.HasSort id .bool := by
  constructor
  · intro h
    refine ⟨fun c hc n cond t f hn => h n cond t f (.of_child he hc hn), ?_⟩
    rintro cond t f rfl
    exact h id cond t f (.refl id) he
  · rintro ⟨hchild, hself⟩ n cond t f hn hite
    obtain rfl | ⟨e', c, he', hc, hcn⟩ := hn.cases_child
    · cases he.symm.trans hite
      exact hself cond t f rfl
    · cases he.symm.trans he'
      exact hchild c hc n cond t f hcn hite

/-- The caches hold terms of nodes without Boolean `Ite`s. -/
structure CacheOk (dag : ExprDag) (st : Z3Lowerer) : Prop where
  bool : ∀ n ast, st.boolCache.lookup n = some ast → BoolIteFree dag n ∧ LowersTo dag n .bool ast
  bv : ∀ n ast, st.bvCache.lookup n = some ast →
    BoolIteFree dag n ∧ ∃ w, dag.HasSort n (.bv w) ∧ LowersTo dag n (.bv w) ast

theorem CacheOk.new (dag : ExprDag) : CacheOk dag .new :=
  by constructor <;> exact fun _ _ h => by cases h

theorem CacheOk.keepBool {st : Z3Lowerer} {id : NodeId} {ast : Ast} (h : CacheOk dag st)
    (hfree : BoolIteFree dag id) (hast : LowersTo dag id .bool ast) :
    CacheOk dag { st with boolCache := (id, ast) :: st.boolCache } := by
  refine ⟨fun n a hn => ?_, h.bv⟩
  rw [List.lookup_cons] at hn
  split at hn
  · rename_i hid
    cases beq_iff_eq.mp hid
    cases hn
    exact ⟨hfree, hast⟩
  · exact h.bool n a hn

theorem CacheOk.keepBv {st : Z3Lowerer} {id : NodeId} {ast : Ast} {w : Nat} (h : CacheOk dag st)
    (hfree : BoolIteFree dag id) (hid : dag.HasSort id (.bv w)) (hast : LowersTo dag id (.bv w) ast) :
    CacheOk dag { st with bvCache := (id, ast) :: st.bvCache } := by
  refine ⟨h.bool, fun n a hn => ?_⟩
  rw [List.lookup_cons] at hn
  split at hn
  · rename_i heq
    cases beq_iff_eq.mp heq
    cases hn
    exact ⟨hfree, w, hid, hast⟩
  · exact h.bv n a hn

/-- The specification of both recursions at a node. -/
structure LowersWell (dag : ExprDag) (id : NodeId) : Prop where
  bool : dag.HasSort id .bool →
    Decides (CacheOk dag) (dag.lower id .bool) (BoolIteFree dag id) (LowersTo dag id .bool)
  bv : ∀ w, dag.HasSort id (.bv w) →
    Decides (CacheOk dag) (dag.lower id .bv) (BoolIteFree dag id) (LowersTo dag id (.bv w))

section Leaves

theorem fromU64_sort {value : BitVec 64} {size : Nat} (h : 0 < size) :
    (fromU64 value size).sort constSort = some (.bv size) := by
  rw [fromU64, Term.sort, if_pos ⟨h, Nat.mod_lt _ (Nat.two_pow_pos size)⟩]

theorem fromU64_eval (value : BitVec 64) (size : Nat) (ρ : Assignment (String × SmtSort)) :
    (fromU64 value size).eval constSort ρ = some (.bv size (BitVec.ofNat size value.toNat)) := by
  have : BitVec.ofNat size (value.toNat % 2 ^ size) = BitVec.ofNat size value.toNat := by
    apply BitVec.eq_of_toNat_eq
    simp
  rw [fromU64, Term.eval, this]

/-- The two halves of a wide constant. -/
theorem append_halves {value : BitVec 128} {n : Nat} (h : value.toNat < 2 ^ (n + 64)) :
    BitVec.ofNat n ((value >>> 64).setWidth 64).toNat ++
      BitVec.ofNat 64 (value.setWidth 64).toNat = BitVec.ofNat (n + 64) value.toNat := by
  have hhi : value.toNat / 2 ^ 64 < 2 ^ n := by
    rw [Nat.div_lt_iff_lt_mul (by decide), ← Nat.pow_add]
    exact h
  have hhi' : value.toNat / 2 ^ 64 < 2 ^ 64 := by
    have := value.isLt
    omega
  apply BitVec.eq_of_toNat_eq
  rw [BitVec.toNat_append, BitVec.toNat_ofNat, BitVec.toNat_ofNat, BitVec.toNat_ofNat,
    BitVec.toNat_setWidth, BitVec.toNat_setWidth, BitVec.toNat_ushiftRight,
    Nat.shiftRight_eq_div_pow, Nat.mod_eq_of_lt hhi', Nat.mod_eq_of_lt hhi, Nat.mod_mod,
    Nat.mod_eq_of_lt h, ← Nat.shiftLeft_add_eq_or_of_lt (Nat.mod_lt _ (by decide)),
    Nat.shiftLeft_eq, Nat.div_add_mod']

/-- The numeral of a constant. -/
theorem bvConstAst_spec {value : BitVec 128} {bits : Nat} (h₁ : 1 ≤ bits)
    (h₃ : value.toNat < 2 ^ bits) :
    (bvConstAst value bits).sort constSort = some (.bv bits) ∧
      ∀ ρ, (bvConstAst value bits).eval constSort ρ =
        some (.bv bits (BitVec.ofNat bits value.toNat)) := by
  unfold bvConstAst
  by_cases hb : bits ≤ 64
  · rw [if_pos hb]
    refine ⟨fromU64_sort h₁, fun ρ => ?_⟩
    have hlt : value.toNat < 2 ^ 64 := h₃.trans_le (Nat.pow_le_pow_right (by decide) hb)
    rw [fromU64_eval, BitVec.toNat_setWidth, Nat.mod_eq_of_lt hlt]
  · rw [if_neg hb]
    obtain ⟨n, rfl⟩ : ∃ n, bits = n + 64 := ⟨bits - 64, by omega⟩
    have hn : 0 < n := by omega
    dsimp only
    rw [Nat.add_sub_cancel]
    refine ⟨?_, fun ρ => ?_⟩
    · exact (Term.sort_app (by simp) (.cons (fromU64_sort hn)
        (.cons (fromU64_sort (by decide)) .nil))).trans rfl
    · refine (Term.eval_app (.cons (fromU64_eval _ n ρ) (.cons (fromU64_eval _ 64 ρ) .nil))).trans ?_
      rw [← append_halves h₃]
      rfl

end Leaves

section Nodes
variable {id a b : NodeId} {e : Expr} {s : SmtSort} {w : Nat}

theorem ExprDag.HasSort.children (h : dag.HasSort id s) (he : dag.tryGet id = some e) :
    ∃ ss, List.Forall₂ dag.HasSort (childrenOf e) ss ∧ sortAlg e ss = some s := by
  obtain ⟨f, ss, hf, hss, hs⟩ := DagFold.Folds.iff.mp h
  cases he.symm.trans hf
  exact ⟨ss, hss, hs⟩

theorem getSize_eq {ast : Ast} (h : LowersTo dag id (.bv w) ast) : ast.getSize = w := by
  rw [Ast.getSize, h.1]
  rfl

/-- Below a node that is not an `Ite`, all depends on the children. -/
theorem boolIteFree_children (he : dag.tryGet id = some e)
    (hne : ∀ cond thenId elseId, e ≠ .ite cond thenId elseId) :
    (∀ c ∈ childrenOf e, BoolIteFree dag c) ↔ BoolIteFree dag id := by
  rw [boolIteFree_iff he]
  exact (and_iff_left fun cond t f h => absurd h (hne cond t f)).symm

/-- A unary operator. -/
theorem lowerUn_decides {op : Smt.Op} {t : SmtSort} {m : Lower} (he : dag.tryGet id = some e)
    (ho : e.op = some op) (hc : childrenOf e = [a]) (hs : dag.HasSort id s) (ha : dag.HasSort a t)
    (hm : Decides (CacheOk dag) m (BoolIteFree dag a) (LowersTo dag a t)) :
    Decides (CacheOk dag) (m >>= fun l => pure (.app op [l])) (BoolIteFree dag id)
      (LowersTo dag id s) := by
  have hne : ∀ cond thenId elseId, e ≠ .ite cond thenId elseId := by
    rintro _ _ _ rfl
    simp [childrenOf] at hc
  refine (hm.map fun l hl => ?_).iff ?_
  · exact .app he ho (by simp [hc]) hs (hc ▸ .cons ⟨t, ha, hl⟩ .nil)
  · rw [← boolIteFree_children he hne, hc]
    simp

/-- Two operands, lowered one after the other. -/
theorem lowerBin_decides {op : Smt.Op} {t u : SmtSort} {m k : Lower} (he : dag.tryGet id = some e)
    (ho : e.op = some op) (hc : childrenOf e = [a, b]) (hs : dag.HasSort id s)
    (ha : dag.HasSort a t) (hb : dag.HasSort b u)
    (hm : Decides (CacheOk dag) m (BoolIteFree dag a) (LowersTo dag a t))
    (hk : Decides (CacheOk dag) k (BoolIteFree dag b) (LowersTo dag b u)) :
    Decides (CacheOk dag) (m >>= fun l => k >>= fun r => pure (.app op [l, r]))
      (BoolIteFree dag id) (LowersTo dag id s) := by
  have hne : ∀ cond thenId elseId, e ≠ .ite cond thenId elseId := by
    rintro _ _ _ rfl
    simp [childrenOf] at hc
  refine (hm.bind fun l hl => hk.map fun r hr => ?_).iff ?_
  · exact .app he ho (by simp [hc]) hs (hc ▸ .cons ⟨t, ha, hl⟩ (.cons ⟨u, hb, hr⟩ .nil))
  · rw [← boolIteFree_children he hne, hc]
    simp

theorem binBv_decides {op : Smt.Op} (name : String) (he : dag.tryGet id = some e)
    (ho : e.op = some op) (hc : childrenOf e = [a, b]) (hs : dag.HasSort id s)
    (ha : dag.HasSort a (.bv w)) (hb : dag.HasSort b (.bv w)) (iha : LowersWell dag a)
    (ihb : LowersWell dag b) :
    Decides (CacheOk dag) (binBv dag.lower name op a b) (BoolIteFree dag id)
      (LowersTo dag id s) := by
  have hne : ∀ cond thenId elseId, e ≠ .ite cond thenId elseId := by
    rintro _ _ _ rfl
    simp [childrenOf] at hc
  refine ((iha.bv w ha).bind fun l hl => (ihb.bv w hb).bind fun r hr => ?_).iff
    (D := BoolIteFree dag id) (C := BoolIteFree dag a ∧ BoolIteFree dag b ∧ True) ?_
  · rw [Ast.checkWidths, if_neg (by rw [getSize_eq hl, getSize_eq hr]; simp)]
    exact .pure (.app he ho (by simp [hc]) hs (hc ▸ .cons ⟨_, ha, hl⟩ (.cons ⟨_, hb, hr⟩ .nil)))
  · rw [← boolIteFree_children he hne, hc]
    simp

/-- `lower_dynamic` on a node that has an answered sort. -/
theorem lowerDynamic_decides (ha : dag.HasSort a s) (hsort : dag.sortOf a = .ok s)
    (harr : ∀ i v, s ≠ .array i v) (ih : LowersWell dag a) :
    Decides (CacheOk dag) (lowerDynamic dag dag.lower a) (BoolIteFree dag a) (LowersTo dag a s) := by
  unfold lowerDynamic
  rw [hsort]
  cases s with
  | bool => exact ih.bool ha
  | bv w => exact ih.bv w ha
  | array i v => exact absurd rfl (harr i v)

theorem not_array_of_memoryFree (h : Lowerable dag id) (hs : dag.HasSort id s) :
    ∀ i v, s ≠ .array i v := by
  refine hs.lax.not_array fun n v t hn ht i w harr => ?_
  subst harr
  exact h.memoryFree n _ hn ht

theorem leafValue_of_evaluates {σ : Assignment SymbolId} {v : Value} (he : dag.tryGet id = some e)
    (ho : e.op = none) (hv : dag.Evaluates σ id v) : e.leafValue σ = some v := by
  obtain ⟨f, vs, hf, -, hev⟩ := DagFold.Folds.iff.mp hv
  cases he.symm.trans hf
  simpa only [evalAlg, ho] using hev

/-- A variable of the sort asked for. -/
theorem symbol_decides {name : SymbolId} (he : dag.tryGet id = some (.var name s))
    (hl : Lowerable dag id) :
    Decides (CacheOk dag)
      (Prog.ofOption (dag.symbolName name) >>= fun n => pure (.symbol (n, s)) : Lower)
      (BoolIteFree dag id) (LowersTo dag id s) := by
  obtain ⟨n, hn⟩ := hl.named id name s (.refl id) he
  have hast : LowersTo dag id s (.symbol (n, s)) := by
    refine ⟨rfl, fun ρ v hv => ?_⟩
    have := leafValue_of_evaluates he rfl hv
    rw [Expr.leafValue, ExprDag.named, hn] at this
    exact this
  refine ((Decides.ofOption hn (Q := fun m => m = n) rfl).map fun m hm => hm ▸ hast).iff ?_
  rw [boolIteFree_iff he]
  simp [childrenOf]

theorem forall_bool_of_forall₂ {l : List NodeId} {ss : List SmtSort}
    (h : List.Forall₂ dag.HasSort l ss) (hss : ∀ t ∈ ss, t = .bool) :
    ∀ c ∈ l, dag.HasSort c .bool := by
  intro c hc
  obtain ⟨t, ht, hct⟩ := DagFold.forall₂_mem_left h c hc
  exact hss t ht ▸ hct

/-- `and` or `or` on lowered operands, with its unit for none. -/
theorem lowerNary_decides {op : Smt.Op} {l : List NodeId} {unit : Bool} {build : List Ast → Ast}
    (he : dag.tryGet id = some e) (ho : e.op = some op) (hc : childrenOf e = l)
    (hs : dag.HasSort id .bool) (hunit : op.apply [] = some (.bool unit))
    (hempty : build [] = .lit unit) (hbuild : ∀ asts, asts ≠ [] → build asts = .app op asts)
    (hl : ∀ c ∈ l, dag.HasSort c .bool) (ih : ∀ c ∈ l, LowersWell dag c)
    (hne : ∀ cond thenId elseId, e ≠ .ite cond thenId elseId) :
    Decides (CacheOk dag) ((l.mapM fun c => dag.lower c .bool) >>= fun asts => pure (build asts))
      (BoolIteFree dag id) (LowersTo dag id .bool) := by
  have hall : Decides (CacheOk dag) (l.mapM fun c => dag.lower c .bool)
      (∀ c ∈ l, BoolIteFree dag c)
      (List.Forall₂ (fun c t => ∃ u, dag.HasSort c u ∧ LowersTo dag c u t) l) :=
    Decides.mapM fun c hcl => ((ih c hcl).bool (hl c hcl)).mono fun t ht => ⟨_, hl c hcl, ht⟩
  refine (hall.map fun asts hasts => ?_).iff (hc ▸ boolIteFree_children he hne)
  cases hasts with
  | nil =>
    rw [hempty]
    refine ⟨rfl, fun ρ v hv => ?_⟩
    obtain ⟨f, vs, hf, hvs, hev⟩ := DagFold.Folds.iff.mp hv
    cases he.symm.trans hf
    rw [hc, List.forall₂_nil_left_iff] at hvs
    subst hvs
    rw [evalAlg, ho] at hev
    exact hunit.symm.trans hev
  | cons h hts =>
    rw [hbuild _ (by simp)]
    exact .app he ho (by simp [hc]) hs (hc ▸ .cons h hts)

/-- `lower_bool` at a Boolean node. -/
theorem lowerBoolExpr_decides (hd : dag.Acyclic) (he : dag.tryGet id = some e)
    (hs : dag.HasSort id .bool) (hl : Lowerable dag id)
    (ih : ∀ c ∈ childrenOf e, LowersWell dag c) :
    Decides (CacheOk dag) (lowerBoolExpr dag dag.lower e) (BoolIteFree dag id)
      (LowersTo dag id .bool) := by
  obtain ⟨ss, hss, hes⟩ := hs.children he
  cases e with
  | boolConst b =>
    refine (Decides.pure ⟨rfl, fun ρ v hv => leafValue_of_evaluates he rfl hv⟩).iff ?_
    rw [boolIteFree_iff he]
    simp [childrenOf]
  | var name t =>
    simp only [sortAlg, Expr.op, Expr.leafSort, Option.ite_none_right_eq_some,
      Option.some.injEq] at hes
    obtain ⟨-, rfl⟩ := hes
    exact symbol_decides he hl
  | not a =>
    simp only [sortAlg, Expr.op, Option.filter_eq_some_iff, Smt.Op.sort_not_iff] at hes
    obtain ⟨⟨rfl, -⟩, -⟩ := hes
    simp only [childrenOf, List.forall₂_cons] at hss
    exact lowerUn_decides he rfl rfl hs hss.1 ((ih a (by simp [childrenOf])).bool hss.1)
  | and children =>
    simp only [sortAlg, Expr.op, Option.filter_eq_some_iff, Smt.Op.sort_and_iff] at hes
    exact lowerNary_decides he rfl rfl hs rfl rfl (fun asts h => by simp [boolAnd, h])
      (forall_bool_of_forall₂ hss hes.1.1) ih (by simp)
  | or children =>
    simp only [sortAlg, Expr.op, Option.filter_eq_some_iff, Smt.Op.sort_or_iff] at hes
    exact lowerNary_decides he rfl rfl hs rfl rfl (fun asts h => by simp [boolOr, h])
      (forall_bool_of_forall₂ hss hes.1.1) ih (by simp)
  | eq a b =>
    simp only [sortAlg, Expr.op, Option.filter_eq_some_iff, Smt.Op.sort_eq_iff] at hes
    obtain ⟨⟨⟨t, rfl⟩, -⟩, -⟩ := hes
    simp only [childrenOf, List.forall₂_cons] at hss
    obtain ⟨f, hf, hcheck⟩ := hl.checked id (.refl id)
    cases he.symm.trans hf
    obtain ⟨u, hua, hub⟩ := hcheck
    have hut : u = t := (hss.1.lax.agrees hd u hua).1
    subst hut
    have harr := not_array_of_memoryFree (hl.child he (by simp [childrenOf] : a ∈ _)) hss.1
    exact lowerBin_decides he rfl rfl hs hss.1 hss.2.1
      (lowerDynamic_decides hss.1 hua harr (ih a (by simp [childrenOf])))
      (lowerDynamic_decides hss.2.1 hub harr (ih b (by simp [childrenOf])))
  | ult a b | ule a b | slt a b | sle a b =>
    simp only [sortAlg, Expr.op, Option.filter_eq_some_iff, Smt.Op.sort_cmp_iff] at hes
    obtain ⟨⟨⟨w, rfl⟩, -⟩, -⟩ := hes
    simp only [childrenOf, List.forall₂_cons] at hss
    exact binBv_decides _ he rfl rfl hs hss.1 hss.2.1 (ih a (by simp [childrenOf]))
      (ih b (by simp [childrenOf]))
  | ite cond thenId elseId =>
    refine (Decides.throw _).iff (iff_of_false not_false fun h => ?_)
    exact h id cond thenId elseId (.refl id) he hs
  | load8 mem addr | store8 mem addr value => exact (hl.memoryFree id _ (.refl id) he).elim
  | _ =>
    simp [sortAlg, Expr.op, Expr.leafSort, Option.filter_eq_some_iff] at hes

/-- `lower_bv` at a bit-vector node. -/
theorem lowerBvExpr_decides (he : dag.tryGet id = some e) (hs : dag.HasSort id (.bv w))
    (hl : Lowerable dag id) (ih : ∀ c ∈ childrenOf e, LowersWell dag c) :
    Decides (CacheOk dag) (lowerBvExpr dag dag.lower e) (BoolIteFree dag id)
      (LowersTo dag id (.bv w)) := by
  obtain ⟨ss, hss, hes⟩ := hs.children he
  cases e with
  | bvConst value bits =>
    simp only [sortAlg, Expr.op, Expr.leafSort, Option.ite_none_right_eq_some, Option.some.injEq,
      SmtSort.bv.injEq] at hes
    obtain ⟨⟨h₁, -, h₃⟩, rfl⟩ := hes
    obtain ⟨hsort, heval⟩ := bvConstAst_spec h₁ h₃
    refine (Decides.pure ⟨hsort, fun ρ v hv => ?_⟩).iff ?_
    · rw [boolIteFree_iff he]
      simp [childrenOf]
    · rw [heval]
      exact leafValue_of_evaluates he rfl hv
  | var name t =>
    simp only [sortAlg, Expr.op, Expr.leafSort, Option.ite_none_right_eq_some,
      Option.some.injEq] at hes
    obtain ⟨-, rfl⟩ := hes
    exact symbol_decides he hl
  | bvAdd a b | bvSub a b | bvMul a b | bvAnd a b | bvOr a b | bvXor a b | bvShl a b | bvLShr a b
  | bvAShr a b =>
    simp only [sortAlg, Expr.op, Option.filter_eq_some_iff, Smt.Op.sort_bin_iff] at hes
    obtain ⟨⟨u, rfl, -⟩, -⟩ := hes
    simp only [childrenOf, List.forall₂_cons] at hss
    exact binBv_decides _ he rfl rfl hs hss.1 hss.2.1 (ih a (by simp [childrenOf]))
      (ih b (by simp [childrenOf]))
  | concat a b =>
    simp only [sortAlg, Expr.op, Option.filter_eq_some_iff, Smt.Op.sort_concat_iff] at hes
    obtain ⟨⟨u, v, rfl, -⟩, -⟩ := hes
    simp only [childrenOf, List.forall₂_cons] at hss
    exact lowerBin_decides he rfl rfl hs hss.1 hss.2.1 ((ih a (by simp [childrenOf])).bv u hss.1)
      ((ih b (by simp [childrenOf])).bv v hss.2.1)
  | extract hi lo value =>
    simp only [sortAlg, Expr.op, Option.filter_eq_some_iff, Smt.Op.sort_extract_iff] at hes
    obtain ⟨⟨u, rfl, -⟩, -⟩ := hes
    simp only [childrenOf, List.forall₂_cons] at hss
    exact lowerUn_decides he rfl rfl hs hss.1 ((ih value (by simp [childrenOf])).bv u hss.1)
  | zeroExt extra value =>
    simp only [sortAlg, Expr.op, Option.filter_eq_some_iff, Smt.Op.sort_zeroExtend_iff] at hes
    obtain ⟨⟨u, rfl, -⟩, -⟩ := hes
    simp only [childrenOf, List.forall₂_cons] at hss
    exact lowerUn_decides he rfl rfl hs hss.1 ((ih value (by simp [childrenOf])).bv u hss.1)
  | signExt extra value =>
    simp only [sortAlg, Expr.op, Option.filter_eq_some_iff, Smt.Op.sort_signExtend_iff] at hes
    obtain ⟨⟨u, rfl, -⟩, -⟩ := hes
    simp only [childrenOf, List.forall₂_cons] at hss
    exact lowerUn_decides he rfl rfl hs hss.1 ((ih value (by simp [childrenOf])).bv u hss.1)
  | ite cond thenId elseId =>
    simp only [sortAlg, Expr.op, Option.filter_eq_some_iff, Smt.Op.sort_ite_iff] at hes
    obtain ⟨rfl, -⟩ := hes
    simp only [childrenOf, List.forall₂_cons] at hss
    obtain ⟨hc, ht, hf, -⟩ := hss
    refine (((ih cond (by simp [childrenOf])).bool hc).bind fun c hc' =>
      ((ih thenId (by simp [childrenOf])).bv w ht).bind fun t ht' =>
        ((ih elseId (by simp [childrenOf])).bv w hf).map fun f hf' => ?_).iff ?_
    · exact .app he rfl (by simp [childrenOf]) hs
        (.cons ⟨_, hc, hc'⟩ (.cons ⟨_, ht, ht'⟩ (.cons ⟨_, hf, hf'⟩ .nil)))
    · have hnb : ¬ dag.HasSort id .bool := fun hb => by cases hb.unique hs
      rw [boolIteFree_iff he]
      simp [childrenOf, hnb]
  | load8 mem addr | store8 mem addr value => exact (hl.memoryFree id _ (.refl id) he).elim
  | _ => simp [sortAlg, Expr.op, Expr.leafSort, Option.filter_eq_some_iff] at hes

theorem binBv_congr {f g : NodeId → LowerKind → Lower} (name : String) (op : Smt.Op)
    (h : ∀ c ∈ [a, b], f c = g c) : binBv f name op a b = binBv g name op a b := by
  rw [binBv, h a (by simp), h b (by simp), binBv]

theorem lowerDynamic_congr {f g : NodeId → LowerKind → Lower} (h : f a = g a) :
    lowerDynamic dag f a = lowerDynamic dag g a := by
  rw [lowerDynamic, h, lowerDynamic]

theorem lowerStep_local (dag : ExprDag) : DagFold.Local (lowerStep dag) dag.succ := by
  intro f g id h
  have hexpr : ∀ e, dag.tryGet id = some e → lowerBoolExpr dag f e = lowerBoolExpr dag g e ∧
      lowerBvExpr dag f e = lowerBvExpr dag g e := by
    intro e he
    rw [ExprDag.succ_eq he] at h
    cases e with
    | and children | or children =>
      have hmap : (children.mapM fun c => f c .bool) = children.mapM fun c => g c .bool :=
        DagFold.mapM_congr_mem fun c hc => congrFun (h c hc) .bool
      refine ⟨?_, rfl⟩
      simp only [lowerBoolExpr, hmap]
    | eq a b =>
      have ha : lowerDynamic dag f a = lowerDynamic dag g a :=
        lowerDynamic_congr (h a (by simp [childrenOf]))
      have hb : lowerDynamic dag f b = lowerDynamic dag g b :=
        lowerDynamic_congr (h b (by simp [childrenOf]))
      refine ⟨?_, rfl⟩
      simp only [lowerBoolExpr, ha, hb]
    | ult a b | ule a b | slt a b | sle a b => exact ⟨binBv_congr _ _ h, rfl⟩
    | bvAdd a b | bvSub a b | bvMul a b | bvAnd a b | bvOr a b | bvXor a b | bvShl a b
    | bvLShr a b | bvAShr a b => exact ⟨rfl, binBv_congr _ _ h⟩
    | not a =>
      refine ⟨?_, rfl⟩
      simp only [lowerBoolExpr, h a (by simp [childrenOf])]
    | concat a b =>
      refine ⟨rfl, ?_⟩
      simp only [lowerBvExpr, h a (by simp [childrenOf]), h b (by simp [childrenOf])]
    | extract _ _ a | zeroExt _ a | signExt _ a =>
      refine ⟨rfl, ?_⟩
      simp only [lowerBvExpr, h a (by simp [childrenOf])]
    | ite c t e =>
      refine ⟨rfl, ?_⟩
      simp only [lowerBvExpr, h c (by simp [childrenOf]), h t (by simp [childrenOf]),
        h e (by simp [childrenOf])]
    | var name s => exact ⟨by cases s <;> rfl, by cases s <;> rfl⟩
    | _ => exact ⟨rfl, rfl⟩
  funext k
  have hget : ∀ (F G : Expr → Lower), (∀ e, dag.tryGet id = some e → F e = G e) →
      (Prog.ofOption (dag.tryGet id) >>= F : Lower) = Prog.ofOption (dag.tryGet id) >>= G := by
    intro F G hFG
    cases he : dag.tryGet id with
    | none => rfl
    | some e => exact hFG e he
  cases k with
  | bool => rw [lowerStep, lowerStep, hget _ _ fun e he => (hexpr e he).1]
  | bv => rw [lowerStep, lowerStep, hget _ _ fun e he => (hexpr e he).2]

theorem lower_eq (hd : dag.Acyclic) (id : NodeId) : dag.lower id = lowerStep dag dag.lower id :=
  DagFold.unroll_fix (lowerStep_local dag) ExprDag.lt_of_succ_ne_nil hd id

/-- Both recursions meet their specification at every well-sorted node. -/
theorem lowersWell (hd : dag.Acyclic) (id : NodeId) (hl : Lowerable dag id) : LowersWell dag id := by
  induction id using hd.induct with
  | _ id ih =>
    constructor
    · intro hs
      obtain ⟨e, ss, he, -, -⟩ := DagFold.Folds.iff.mp hs
      rw [ExprDag.succ_eq he] at ih
      rw [lower_eq hd, lowerStep]
      refine Decides.memo (fun st a hst ha => hst.bool id a ha)
        (fun st a hst hfree ha => hst.keepBool hfree ha) ?_
      refine ((Decides.ofOption he (Q := fun f => f = e) rfl).bind fun f hf => ?_).iff
        (and_iff_right trivial)
      subst hf
      exact lowerBoolExpr_decides hd he hs hl fun c hc => ih c hc (hl.child he hc)
    · intro w hs
      obtain ⟨e, ss, he, -, -⟩ := DagFold.Folds.iff.mp hs
      rw [ExprDag.succ_eq he] at ih
      rw [lower_eq hd, lowerStep]
      refine Decides.memo (fun st a hst ha => ?_)
        (fun st a hst hfree ha => hst.keepBv hfree hs ha) ?_
      · obtain ⟨hfree, u, hu, hast⟩ := hst.bv id a ha
        cases hu.unique hs
        exact ⟨hfree, hast⟩
      · refine ((Decides.ofOption he (Q := fun f => f = e) rfl).bind fun f hf => ?_).iff
          (and_iff_right trivial)
        subst hf
        exact lowerBvExpr_decides he hs hl fun c hc => ih c hc (hl.child he hc)

end Nodes

end Axe.Concolic
