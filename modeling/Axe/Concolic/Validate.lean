import Axe.Concolic.Semantics

/-!
# What `validate` accepts

A depth-first walk with a visited set accepts a root exactly when every node it
reaches passes its own check. The checks are compared with the typing rules of
SMT-LIB: they read the sorts of the children from `sort_of`, which overflows on
widths past `u32`, and they leave the sort of an address and of a variable alone.
-/
namespace Axe.Concolic

open Smt (SmtSort)

section Except
variable {ε α β : Type}

theorem bind_eq_ok {x : Except ε α} {f : α → Except ε β} {b : β} :
    x >>= f = .ok b ↔ ∃ a, x = .ok a ∧ f a = .ok b := by
  cases x with
  | error e => exact ⟨fun h => (by cases h), fun ⟨_, h, _⟩ => (by cases h)⟩
  | ok a => exact ⟨fun h => ⟨a, rfl, h⟩, fun ⟨_, h, hf⟩ => (by cases h; exact hf)⟩

theorem pure_eq_ok {a b : α} : (pure a : Except ε α) = .ok b ↔ a = b :=
  ⟨fun h => by cases h; rfl, fun h => h ▸ rfl⟩

theorem ite_error_eq_ok {p : Prop} [Decidable p] {e : ε} {x : Except ε α} {b : α} :
    (if p then .error e else x) = .ok b ↔ ¬ p ∧ x = .ok b := by
  split <;> simp_all

end Except

variable {dag : ExprDag}

theorem sortOrInvalid_eq_ok {id : NodeId} {s : SmtSort} :
    dag.sortOrInvalid id = .ok s ↔ dag.sortOf id = .ok s := by
  unfold ExprDag.sortOrInvalid
  split <;> simp_all

theorem expectSort_eq_ok {id : NodeId} {s : SmtSort} {op : String} {u : Unit} :
    dag.expectSort id s op = .ok u ↔ dag.sortOf id = .ok s := by
  simp only [ExprDag.expectSort, bind_eq_ok, sortOrInvalid_eq_ok]
  constructor
  · rintro ⟨t, ht, h⟩
    split at h
    · simp_all
    · cases h
  · exact fun h => ⟨s, h, by simp⟩

theorem bvWidth_eq_some {s : SmtSort} {w : Nat} : bvWidth s = some w ↔ s = .bv w := by
  cases s <;> simp [bvWidth]

theorem widthOrMismatch_eq_ok {id : NodeId} {op : String} {w : Nat} :
    dag.widthOrMismatch op id = .ok w ↔ dag.sortOf id = .ok (.bv w) := by
  simp only [ExprDag.widthOrMismatch, bind_eq_ok, sortOrInvalid_eq_ok]
  constructor
  · rintro ⟨s, hs, h⟩
    cases s <;> simp_all [bvWidth]
  · exact fun h => ⟨_, h, by simp [bvWidth]⟩

theorem expectSameWidth_eq_ok {a b : NodeId} {op : String} {u : Unit} :
    dag.expectSameWidth op a b = .ok u ↔
      ∃ w, dag.sortOf a = .ok (.bv w) ∧ dag.sortOf b = .ok (.bv w) := by
  simp only [ExprDag.expectSameWidth, bind_eq_ok, widthOrMismatch_eq_ok, ite_error_eq_ok]
  constructor
  · rintro ⟨wa, ha, wb, hb, hne, -⟩
    exact ⟨wa, ha, by simp_all⟩
  · rintro ⟨w, ha, hb⟩
    exact ⟨w, ha, w, hb, by simp⟩

/-- What `validate` asks of one expression, given the sorts of its children. -/
def Expr.Checks (sortOf : NodeId → Except SortFault SmtSort) : Expr → Prop
  | .var _ _ | .boolConst _ => True
  | .bvConst value bits => 1 ≤ bits ∧ bits ≤ 128 ∧ value.toNat < 2 ^ bits
  | .not a => sortOf a = .ok .bool
  | .and children | .or children => ∀ c ∈ children, sortOf c = .ok .bool
  | .eq a b => ∃ s, sortOf a = .ok s ∧ sortOf b = .ok s
  | .bvAdd a b | .bvSub a b | .bvMul a b | .bvAnd a b | .bvOr a b | .bvXor a b
  | .bvShl a b | .bvLShr a b | .bvAShr a b
  | .ult a b | .ule a b | .slt a b | .sle a b =>
    ∃ w, sortOf a = .ok (.bv w) ∧ sortOf b = .ok (.bv w)
  | .extract hi lo value => ∃ w, sortOf value = .ok (.bv w) ∧ lo ≤ hi ∧ hi < w
  | .concat a b => (∃ w, sortOf a = .ok (.bv w)) ∧ ∃ w, sortOf b = .ok (.bv w)
  | .zeroExt _ value | .signExt _ value => ∃ w, sortOf value = .ok (.bv w)
  | .ite cond thenId elseId =>
    sortOf cond = .ok .bool ∧ ∃ s, sortOf thenId = .ok s ∧ sortOf elseId = .ok s
  | .load8 mem _ => ∃ i, sortOf mem = .ok (.array i 8)
  | .store8 mem _ value => (∃ i, sortOf mem = .ok (.array i 8)) ∧ sortOf value = .ok (.bv 8)

theorem foldlM_checked {f : NodeId → Visited → Except ValidateFault Visited}
    {children : List NodeId} {op : String} (V V' : Visited) :
    children.foldlM (fun visited c => do
        let visited ← f c visited
        dag.expectSort c .bool op
        return visited) V = .ok V' ↔
      (∀ c ∈ children, dag.sortOf c = .ok .bool) ∧
        children.foldlM (fun visited c => f c visited) V = .ok V' := by
  induction children generalizing V with
  | nil => simp
  | cons c children ih =>
    simp only [List.foldlM_cons, bind_eq_ok, pure_eq_ok, expectSort_eq_ok, List.forall_mem_cons]
    constructor
    · rintro ⟨W, ⟨W', hf, -, hs, rfl⟩, h⟩
      obtain ⟨hall, hrest⟩ := (ih W').mp h
      exact ⟨⟨hs, hall⟩, W', hf, hrest⟩
    · rintro ⟨⟨hs, hall⟩, W, hf, hrest⟩
      exact ⟨W, ⟨W, hf, (), hs, rfl⟩, (ih W).mpr ⟨hall, hrest⟩⟩

/-- `validate` accepts an expression when its check passes and the children, visited
in order, are accepted. -/
theorem validateExpr_eq_ok
    (f : NodeId → Visited → Except ValidateFault Visited) (e : Expr) (V V' : Visited) :
    dag.validateExpr f e V = .ok V' ↔
      e.Checks dag.sortOf ∧ (childrenOf e).foldlM (fun V c => f c V) V = .ok V' := by
  cases e with
  | and | or => exact foldlM_checked V V'
  | bvConst value bits =>
    have hv : bits = 128 → value.toNat < 2 ^ bits := fun h => h ▸ value.isLt
    simp only [ExprDag.validateExpr, childrenOf, List.foldlM_nil, Expr.Checks, ite_error_eq_ok,
      Except.ok.injEq, pure_eq_ok]
    grind
  | load8 mem addr =>
    simp only [ExprDag.validateExpr, childrenOf, List.foldlM_cons, List.foldlM_nil, bind_eq_ok, pure_eq_ok,
      sortOrInvalid_eq_ok, Expr.Checks]
    constructor
    · rintro ⟨W, hm, W', ha, s, hs, h⟩
      cases s <;> simp only [ite_error_eq_ok, pure_eq_ok, not_not, reduceCtorEq] at h
      obtain ⟨rfl, rfl⟩ := h
      exact ⟨⟨_, hs⟩, W, hm, W', ha, rfl⟩
    · rintro ⟨⟨i, hs⟩, W, hm, W', ha, rfl⟩
      exact ⟨W, hm, W', ha, _, hs, by simp [pure_eq_ok]⟩
  | store8 mem addr value =>
    simp only [ExprDag.validateExpr, childrenOf, List.foldlM_cons, List.foldlM_nil, bind_eq_ok, pure_eq_ok,
      sortOrInvalid_eq_ok, Expr.Checks]
    constructor
    · rintro ⟨W, hm, W', ha, W'', hv, s, hs, h⟩
      cases s <;> simp only [ite_error_eq_ok, pure_eq_ok, not_not, reduceCtorEq, bind_eq_ok,
        sortOrInvalid_eq_ok, bvWidth_eq_some] at h
      obtain ⟨rfl, t, ht, rfl, rfl⟩ := h
      exact ⟨⟨⟨_, hs⟩, ht⟩, W, hm, W', ha, W'', hv, rfl⟩
    · rintro ⟨⟨⟨i, hs⟩, ht⟩, W, hm, W', ha, W'', hv, rfl⟩
      refine ⟨W, hm, W', ha, W'', hv, _, hs, ?_⟩
      simp [ht, bind_eq_ok, sortOrInvalid_eq_ok, bvWidth, pure_eq_ok]
  | _ =>
    simp only [ExprDag.validateExpr, childrenOf, List.foldlM_cons, List.foldlM_nil, bind_eq_ok, pure_eq_ok,
      ite_error_eq_ok, sortOrInvalid_eq_ok, expectSort_eq_ok, widthOrMismatch_eq_ok,
      expectSameWidth_eq_ok, Except.ok.injEq, Expr.Checks, true_and]
    try grind

section Walk

theorem foldlM_congr_mem {m : Type → Type} [Monad m] {σ α : Type} {f g : σ → α → m σ} {l : List α}
    (h : ∀ c ∈ l, ∀ s, f s c = g s c) (s : σ) : l.foldlM f s = l.foldlM g s := by
  induction l generalizing s with
  | nil => rfl
  | cons c l ih =>
    rw [List.foldlM_cons, List.foldlM_cons, h c (by simp)]
    exact congrArg _ (funext fun t => ih (fun d hd => h d (by simp [hd])) t)

theorem validateStep_local (dag : ExprDag) : DagFold.Local dag.validateStep dag.succ := by
  intro f g id h
  funext V
  unfold ExprDag.validateStep
  split
  · rfl
  · cases he : dag.tryGet id with
    | none => rfl
    | some e =>
      rw [ExprDag.succ_eq he] at h
      cases e with
      | and children | or children => exact foldlM_congr_mem (fun c hc s => by rw [h c hc]) _
      | _ => simp_all [ExprDag.validateExpr, childrenOf]

theorem validateNode_eq (hd : dag.Acyclic) (id : NodeId) :
    dag.validateNode id = dag.validateStep dag.validateNode id :=
  DagFold.unroll_fix (validateStep_local dag) ExprDag.lt_of_succ_ne_nil hd id

/-- A stored expression that passes its check. -/
def ExprDag.NodeOk (dag : ExprDag) (id : NodeId) : Prop :=
  ∃ e, dag.tryGet id = some e ∧ e.Checks dag.sortOf

/-- What an accepted walk has added to the visited set: nodes it reaches from
`roots`, each of them checked and with its children visited. -/
def Visits (dag : ExprDag) (roots : List NodeId) (V V' : Visited) : Prop :=
  V ⊆ V' ∧ (∀ r ∈ roots, r ∈ V') ∧
    ∀ n ∈ V', n ∉ V → (∃ r ∈ roots, dag.Reaches r n) ∧ dag.NodeOk n ∧ ∀ c ∈ dag.succ n, c ∈ V'

theorem foldlM_visits {l : List NodeId}
    (h : ∀ c ∈ l, ∀ V V', dag.validateNode c V = .ok V' → Visits dag [c] V V') {V V' : Visited}
    (hf : l.foldlM (fun V c => dag.validateNode c V) V = .ok V') : Visits dag l V V' := by
  induction l generalizing V with
  | nil =>
    cases pure_eq_ok.mp hf
    exact ⟨Finset.Subset.refl _, by simp, fun n hn hnv => absurd hn hnv⟩
  | cons c l ih =>
    rw [List.foldlM_cons, bind_eq_ok] at hf
    obtain ⟨W, hc, hl⟩ := hf
    obtain ⟨hVW, hcW, hnew⟩ := h c (by simp) V W hc
    obtain ⟨hWV', hlV', hnew'⟩ := ih (fun d hd => h d (by simp [hd])) hl
    refine ⟨hVW.trans hWV', ?_, fun n hn hnv => ?_⟩
    · intro r hr
      rcases List.mem_cons.mp hr with rfl | hr
      · exact hWV' (hcW r (by simp))
      · exact hlV' r hr
    · by_cases hnW : n ∈ W
      · obtain ⟨⟨r, hr, hreach⟩, hok, hsucc⟩ := hnew n hnW hnv
        cases List.mem_singleton.mp hr
        exact ⟨⟨_, by simp, hreach⟩, hok, fun d hd => hWV' (hsucc d hd)⟩
      · obtain ⟨⟨r, hr, hreach⟩, hok, hsucc⟩ := hnew' n hn hnW
        exact ⟨⟨r, by simp [hr], hreach⟩, hok, hsucc⟩

theorem validateNode_visits (hd : dag.Acyclic) (id : NodeId) {V V' : Visited}
    (h : dag.validateNode id V = .ok V') : Visits dag [id] V V' := by
  induction id using hd.induct generalizing V V' with
  | _ id ih =>
    rw [validateNode_eq hd, ExprDag.validateStep] at h
    split at h
    · rename_i hid
      cases Except.ok.inj h
      exact ⟨Finset.Subset.refl _, by simpa using hid, fun n hn hnv => absurd hn hnv⟩
    · cases he : dag.tryGet id with
      | none => simp [he] at h
      | some e =>
        simp only [he, validateExpr_eq_ok] at h
        obtain ⟨hcheck, hf⟩ := h
        have hsucc := ExprDag.succ_eq he
        obtain ⟨hsub, hchild, hnew⟩ :=
          foldlM_visits (fun c hc V V' h => ih c (by rwa [hsucc]) h) hf
        have hidV : id ∈ V' := hsub (Finset.mem_insert_self id V)
        refine ⟨(Finset.subset_insert id V).trans hsub, by simpa using hidV, fun n hn hnv => ?_⟩
        by_cases hnid : n = id
        · subst hnid
          exact ⟨⟨n, by simp, .refl n⟩, ⟨e, he, hcheck⟩, fun c hc => hchild c (by rwa [← hsucc])⟩
        · obtain ⟨⟨r, hr, hreach⟩, hok, hsub'⟩ := hnew n hn (by simp [hnid, hnv])
          exact ⟨⟨id, by simp, .of_child he hr hreach⟩, hok, hsub'⟩

theorem validateNode_isOk (hd : dag.Acyclic) (id : NodeId)
    (h : ∀ n, dag.Reaches id n → dag.NodeOk n) (V : Visited) :
    ∃ V', dag.validateNode id V = .ok V' := by
  induction id using hd.induct generalizing V with
  | _ id ih =>
    rw [validateNode_eq hd, ExprDag.validateStep]
    split
    · exact ⟨V, rfl⟩
    · obtain ⟨e, he, hcheck⟩ := h id (.refl id)
      simp only [he, validateExpr_eq_ok]
      have hfold : ∀ (l : List NodeId), (∀ c ∈ l, c ∈ childrenOf e) → ∀ W : Visited,
          ∃ V', l.foldlM (fun V c => dag.validateNode c V) W = .ok V' := by
        intro l
        induction l with
        | nil => exact fun _ W => ⟨W, rfl⟩
        | cons c l ihl =>
          intro hl W
          have hc := hl c (by simp)
          obtain ⟨W', hW'⟩ := ih c (by rwa [ExprDag.succ_eq he])
            (fun n hn => h n (.of_child he hc hn)) W
          obtain ⟨V', hV'⟩ := ihl (fun d hd => hl d (by simp [hd])) W'
          exact ⟨V', by rw [List.foldlM_cons, hW']; exact hV'⟩
      obtain ⟨V', hV'⟩ := hfold (childrenOf e) (fun _ h => h) (insert id V)
      exact ⟨V', hcheck, hV'⟩

/-- `validate` accepts a root exactly when every node it reaches passes its check. -/
theorem validate_eq_ok (hd : dag.Acyclic) {root : NodeId} :
    dag.validate root = .ok () ↔ ∀ n, dag.Reaches root n → dag.NodeOk n := by
  simp only [ExprDag.validate, bind_eq_ok, pure_eq_ok, and_true]
  constructor
  · rintro ⟨V', h⟩ n hn
    obtain ⟨-, hroot, hnew⟩ := validateNode_visits hd root h
    have hmem : n ∈ V' := hn.mem_closed (V := {n | n ∈ V'}) (hroot root (by simp))
      fun p hp c hc => (hnew p hp (by simp)).2.2 c hc
    exact (hnew n hmem (by simp)).2.1
  · exact fun h => validateNode_isOk hd root h ∅

end Walk

section Lax

/-- The rules `validate` applies: the typing rules, except that a variable has
whatever sort it declares and an address may have any sort. -/
def laxAlg (e : Expr) (ss : List SmtSort) : Option SmtSort :=
  match e, ss with
  | .var _ s, _ => some s
  | .load8 _ _, [.array _ v, _] => if v = 8 then some (.bv 8) else none
  | .load8 _ _, _ => none
  | .store8 _ _ _, [.array i v, _, s] => if v = 8 ∧ s = .bv 8 then some (.array i v) else none
  | .store8 _ _ _, _ => none
  | e, ss => sortAlg e ss

theorem laxAlg_load8_iff {mem addr : NodeId} {ss : List SmtSort} {s : SmtSort} :
    laxAlg (.load8 mem addr) ss = some s ↔ ∃ i t, ss = [.array i 8, t] ∧ s = .bv 8 := by
  rcases ss with _ | ⟨_ | _ | _, _ | ⟨b, _ | ⟨c, ss⟩⟩⟩ <;> simp [laxAlg]
  grind

theorem laxAlg_store8_iff {mem addr value : NodeId} {ss : List SmtSort} {s : SmtSort} :
    laxAlg (.store8 mem addr value) ss = some s ↔
      ∃ i t, ss = [.array i 8, t, .bv 8] ∧ s = .array i 8 := by
  rcases ss with _ | ⟨_ | _ | _, _ | ⟨b, _ | ⟨c, _ | ⟨d, ss⟩⟩⟩⟩ <;> simp [laxAlg]
  grind

def ExprDag.LaxSort (dag : ExprDag) (id : NodeId) (s : SmtSort) : Prop :=
  DagFold.Folds dag.tryGet childrenOf laxAlg id s

/-- The children whose sort `validate` asks for. -/
def checkedChildren : Expr → List NodeId
  | .load8 mem _ => [mem]
  | .store8 mem _ value => [mem, value]
  | e => childrenOf e

theorem checkedChildren_subset (e : Expr) : checkedChildren e ⊆ childrenOf e := by
  cases e <;> simp [checkedChildren, childrenOf]

/-- The sort `sort_of` answers, where it answers, is the lax sort. -/
def Agrees (dag : ExprDag) (id : NodeId) (s : SmtSort) : Prop :=
  ∀ t, dag.sortOf id = .ok t → t = s

theorem all_bool_iff {children : List NodeId} {ss : List SmtSort}
    (h : List.Forall₂ (Agrees dag) children ss) :
    (∀ c ∈ children, dag.sortOf c = .ok .bool) ↔
      (∀ t ∈ ss, t = .bool) ∧ ∀ c ∈ children, ∃ t, dag.sortOf c = .ok t := by
  induction h with
  | nil => simp
  | @cons c t children ss hc _ ih =>
    simp only [List.forall_mem_cons, ih]
    constructor
    · rintro ⟨hb, hss, hall⟩
      exact ⟨⟨(hc _ hb).symm, hss⟩, ⟨_, hb⟩, hall⟩
    · rintro ⟨⟨rfl, hss⟩, ⟨u, hu⟩, hall⟩
      exact ⟨hc u hu ▸ hu, hss, hall⟩

/-- The check of an expression passes when the rules give it a sort and every
sort it asks for is answered. -/
theorem checks_iff_lax {e : Expr} {ss : List SmtSort}
    (h : List.Forall₂ (Agrees dag) (childrenOf e) ss) :
    e.Checks dag.sortOf ↔
      (∃ s, laxAlg e ss = some s) ∧ ∀ c ∈ checkedChildren e, ∃ t, dag.sortOf c = .ok t := by
  cases e with
  | and children | or children =>
    refine (all_bool_iff h).trans ?_
    simp [laxAlg, sortAlg, Expr.op, Option.filter_eq_some_iff, Expr.byteWide, checkedChildren]
  | var | bvConst | boolConst =>
    cases h
    simp [Expr.Checks, laxAlg, sortAlg, Expr.op, Expr.leafSort, checkedChildren, childrenOf]
  | load8 mem addr =>
    simp only [childrenOf, List.forall₂_cons_left_iff, List.forall₂_nil_left_iff, Agrees] at h
    obtain ⟨s, _, hm, ⟨t, _, -, rfl, rfl⟩, rfl⟩ := h
    simp only [Expr.Checks, laxAlg_load8_iff, checkedChildren, List.forall_mem_singleton]
    constructor
    · rintro ⟨i, hi⟩
      cases hm _ hi
      exact ⟨⟨_, i, t, rfl, rfl⟩, _, hi⟩
    · rintro ⟨⟨_, i, u, hs, -⟩, v, hv⟩
      cases hs
      cases hm v hv
      exact ⟨i, hv⟩
  | store8 mem addr value =>
    simp only [childrenOf, List.forall₂_cons_left_iff, List.forall₂_nil_left_iff, Agrees] at h
    obtain ⟨s, _, hm, ⟨t, _, -, ⟨u, _, hv, rfl, rfl⟩, rfl⟩, rfl⟩ := h
    simp only [Expr.Checks, laxAlg_store8_iff, checkedChildren, List.forall_mem_cons,
      List.not_mem_nil, false_imp_iff, implies_true, and_true]
    constructor
    · rintro ⟨⟨i, hi⟩, h8⟩
      cases hm _ hi
      cases hv _ h8
      exact ⟨⟨_, i, t, rfl, rfl⟩, ⟨_, hi⟩, _, h8⟩
    · rintro ⟨⟨_, i, u, hs, -⟩, ⟨x, hx⟩, y, hy⟩
      cases hs
      cases hm x hx
      cases hv y hy
      exact ⟨⟨i, hx⟩, hy⟩
  | extract | zeroExt | signExt =>
    simp only [childrenOf, List.forall₂_cons_left_iff, List.forall₂_nil_left_iff, Agrees] at h
    obtain ⟨s, _, hv, rfl, rfl⟩ := h
    simp only [Expr.Checks, laxAlg, sortAlg, Expr.op, checkedChildren, childrenOf]
    cases s <;> simp [Option.filter_eq_some_iff, Expr.byteWide] <;> grind
  | concat a b =>
    simp only [childrenOf, List.forall₂_cons_left_iff, List.forall₂_nil_left_iff, Agrees] at h
    obtain ⟨s, _, ha, ⟨t, _, hb, rfl, rfl⟩, rfl⟩ := h
    simp only [Expr.Checks, laxAlg, sortAlg, Expr.op, checkedChildren, childrenOf]
    cases s <;> cases t <;> simp [Option.filter_eq_some_iff, Expr.byteWide] <;> grind
  | _ =>
    simp only [childrenOf, List.forall₂_cons_left_iff, List.forall₂_nil_left_iff, Agrees] at h
    simp only [Expr.Checks, laxAlg, sortAlg, checkedChildren, childrenOf, Expr.op, Expr.byteWide,
      Option.filter_eq_some_iff, Smt.Op.sort_not_iff, Smt.Op.sort_eq_iff, Smt.Op.sort_bin_iff,
      Smt.Op.sort_cmp_iff, Smt.Op.sort_ite_iff, and_true, List.forall_mem_cons, List.not_mem_nil,
      false_imp_iff, implies_true]
    grind

/-- The sort fits `u32`, as every sort the source stores does. -/
def Narrow (s : SmtSort) : Prop := ∀ w, s = .bv w → w < 2 ^ 32

/-- The declared sorts of the variables fit `u32`. -/
def VarsNarrow (dag : ExprDag) : Prop :=
  ∀ id name s, dag.tryGet id = some (.var name s) → Narrow s

theorem addU32_eq_ok {a b c : Nat} : addU32 a b = .ok c ↔ a + b = c ∧ a + b < 2 ^ 32 := by
  unfold addU32
  split
  · simp_all
  · exact ⟨fun h => (by cases h), fun h => absurd h.2 ‹_›⟩

theorem subU32_eq_ok {a b c : Nat} : subU32 a b = .ok c ↔ b ≤ a ∧ a - b = c := by
  unfold subU32
  split <;> simp_all

theorem orNone_eq_ok {α : Type} {o : Option α} {a : α} : orNone o = .ok a ↔ o = some a := by
  cases o <;> simp [orNone]

/-- `sort_of` answers with the lax sort, if that fits and the sorts it is
computed from are answered. -/
theorem sortOfStep_ok {id : NodeId} {e : Expr} {ss : List SmtSort} {s : SmtSort}
    (he : dag.tryGet id = some e) (hs : laxAlg e ss = some s) (hn : Narrow s)
    (h : List.Forall₂ (fun c t => c ∈ checkedChildren e → dag.sortOf c = .ok t) (childrenOf e) ss) :
    dag.sortOfStep dag.sortOf id = .ok s := by
  cases e with
  | and | or =>
    simp only [laxAlg, sortAlg, Expr.op, Option.filter_eq_some_iff, Smt.Op.sort_and_iff,
      Smt.Op.sort_or_iff] at hs
    simp [ExprDag.sortOfStep, he, hs.1.2]
  | load8 mem addr =>
    obtain ⟨i, t, rfl, rfl⟩ := laxAlg_load8_iff.mp hs
    simp [ExprDag.sortOfStep, he]
  | store8 mem addr value =>
    obtain ⟨i, t, rfl, rfl⟩ := laxAlg_store8_iff.mp hs
    simp only [childrenOf, List.forall₂_cons, checkedChildren, List.mem_cons, true_or,
      true_imp_iff] at h
    simp [ExprDag.sortOfStep, he, h.1]
  | _ =>
    simp only [childrenOf, List.forall₂_cons_left_iff, List.forall₂_nil_left_iff, checkedChildren,
      List.mem_cons, true_or, or_true, true_imp_iff] at h
    simp only [laxAlg, sortAlg, Expr.op, Option.filter_eq_some_iff, Expr.byteWide,
      Smt.Op.sort_not_iff, Smt.Op.sort_eq_iff, Smt.Op.sort_bin_iff, Smt.Op.sort_cmp_iff,
      Smt.Op.sort_ite_iff, Smt.Op.sort_extract_iff, Smt.Op.sort_concat_iff,
      Smt.Op.sort_zeroExtend_iff, Smt.Op.sort_signExtend_iff, Expr.leafSort, and_true] at hs
    simp only [ExprDag.sortOfStep, he, bind_eq_ok, pure_eq_ok, addU32_eq_ok, subU32_eq_ok,
      orNone_eq_ok, bvWidth_eq_some]
    unfold Narrow at hn
    grind

/-- `sort_of` answers with no other sort, and with none that does not fit. -/
theorem sortOfStep_agrees {id : NodeId} {e : Expr} {ss : List SmtSort} {s t : SmtSort}
    (he : dag.tryGet id = some e) (hs : laxAlg e ss = some s)
    (h : List.Forall₂ (fun c t => ∀ u, dag.sortOf c = .ok u → u = t ∧ (VarsNarrow dag → Narrow t))
      (childrenOf e) ss)
    (ht : dag.sortOfStep dag.sortOf id = .ok t) : t = s ∧ (VarsNarrow dag → Narrow s) := by
  cases e with
  | var name s' =>
    cases hs
    simp only [ExprDag.sortOfStep, he, Except.ok.injEq] at ht
    exact ⟨ht.symm, fun hd => hd id name s he⟩
  | and | or =>
    simp only [laxAlg, sortAlg, Expr.op, Option.filter_eq_some_iff, Smt.Op.sort_and_iff,
      Smt.Op.sort_or_iff] at hs
    simp only [ExprDag.sortOfStep, he, Except.ok.injEq] at ht
    simp [← ht, hs.1.2, Narrow]
  | load8 mem addr =>
    obtain ⟨i, u, rfl, rfl⟩ := laxAlg_load8_iff.mp hs
    simp only [ExprDag.sortOfStep, he, Except.ok.injEq] at ht
    simp [← ht, Narrow]
  | store8 mem addr value =>
    obtain ⟨i, t, rfl, rfl⟩ := laxAlg_store8_iff.mp hs
    simp only [childrenOf, List.forall₂_cons] at h
    simp only [ExprDag.sortOfStep, he] at ht
    exact h.1 _ ht
  | _ =>
    simp only [childrenOf, List.forall₂_cons_left_iff, List.forall₂_nil_left_iff] at h
    simp only [laxAlg, sortAlg, Expr.op, Option.filter_eq_some_iff, Expr.byteWide,
      Smt.Op.sort_not_iff, Smt.Op.sort_eq_iff, Smt.Op.sort_bin_iff, Smt.Op.sort_cmp_iff,
      Smt.Op.sort_ite_iff, Smt.Op.sort_extract_iff, Smt.Op.sort_concat_iff,
      Smt.Op.sort_zeroExtend_iff, Smt.Op.sort_signExtend_iff, Expr.leafSort, and_true] at hs
    simp only [ExprDag.sortOfStep, he, bind_eq_ok, pure_eq_ok, addU32_eq_ok, subU32_eq_ok,
      orNone_eq_ok, bvWidth_eq_some] at ht
    simp only [Narrow] at h ⊢
    grind

end Lax

section Accepts

/-- A node whose sort does not fit `u32`. -/
def Wide (dag : ExprDag) (id : NodeId) : Prop := ∃ w, 2 ^ 32 ≤ w ∧ dag.LaxSort id (.bv w)

/-- The nodes below `root` whose sort `validate` asks for. -/
def Asked (dag : ExprDag) (root c : NodeId) : Prop :=
  ∃ p e, dag.Reaches root p ∧ dag.tryGet p = some e ∧ c ∈ checkedChildren e

theorem narrow_of_not_wide {id : NodeId} {s : SmtSort} (h : dag.LaxSort id s)
    (hw : ¬ Wide dag id) : Narrow s := by
  rintro w rfl
  by_contra hlt
  exact hw ⟨w, by omega, h⟩

theorem Asked.of_child {p c d : NodeId} {e : Expr} (he : dag.tryGet p = some e)
    (hc : c ∈ childrenOf e) (h : Asked dag c d) : Asked dag p d := by
  obtain ⟨q, f, hr, hf, hd⟩ := h
  exact ⟨q, f, .of_child he hc hr, hf, hd⟩

theorem ExprDag.LaxSort.agrees (hd : dag.Acyclic) {id : NodeId} {s : SmtSort}
    (h : dag.LaxSort id s) :
    ∀ t, dag.sortOf id = .ok t → t = s ∧ (VarsNarrow dag → Narrow s) := by
  refine DagFold.Folds.induct
    (P := fun id s => ∀ t, dag.sortOf id = .ok t → t = s ∧ (VarsNarrow dag → Narrow s)) ?_ h
  intro id e ss s he hss hs t ht
  rw [ExprDag.sortOf_eq hd] at ht
  exact sortOfStep_agrees he hs (hss.imp fun _ _ h => h.2) ht

theorem ExprDag.LaxSort.sortOf_eq_ok (hd : dag.Acyclic) {id : NodeId} {s : SmtSort}
    (h : dag.LaxSort id s) (hn : Narrow s) (hask : ∀ c, Asked dag id c → ¬ Wide dag c) :
    dag.sortOf id = .ok s := by
  refine DagFold.Folds.induct (P := fun id s => Narrow s → (∀ c, Asked dag id c → ¬ Wide dag c) →
    dag.sortOf id = .ok s) ?_ h hn hask
  intro id e ss s he hss hs hn hask
  rw [ExprDag.sortOf_eq hd]
  refine sortOfStep_ok he hs hn ?_
  have hchild : ∀ c ∈ childrenOf e, ∀ d, Asked dag c d → ¬ Wide dag d :=
    fun c hc d h => hask d (h.of_child he hc)
  have hasked : ∀ c ∈ checkedChildren e, ¬ Wide dag c := fun c hc => hask c ⟨id, e, .refl id, he, hc⟩
  generalize childrenOf e = l at hss hchild
  clear hs
  induction hss with
  | nil => exact .nil
  | @cons c t l ss hct _ ih =>
    refine .cons (fun hc => ?_) (ih fun d hd => hchild d (by simp [hd]))
    exact hct.2 (narrow_of_not_wide hct.1 (hasked c hc)) (hchild c (by simp))

theorem forall₂_agrees (hd : dag.Acyclic) {l : List NodeId} {ss : List SmtSort}
    (h : List.Forall₂ dag.LaxSort l ss) : List.Forall₂ (Agrees dag) l ss :=
  h.imp fun _ _ h t ht => (h.agrees hd t ht).1

/-- Below an accepted root every node has a lax sort. -/
theorem exists_laxSort (hd : dag.Acyclic) {root : NodeId}
    (h : ∀ n, dag.Reaches root n → dag.NodeOk n) (n : NodeId) (hn : dag.Reaches root n) :
    ∃ s, dag.LaxSort n s := by
  induction n using hd.induct with
  | _ n ih =>
    obtain ⟨e, he, hcheck⟩ := h n hn
    obtain ⟨ss, hss⟩ := DagFold.forall₂_of_mem fun c hc =>
      ih c (by rwa [ExprDag.succ_eq he]) (hn.child he hc)
    obtain ⟨⟨s, hs⟩, -⟩ := (checks_iff_lax (forall₂_agrees hd hss)).mp hcheck
    exact ⟨s, DagFold.Folds.iff.mpr ⟨e, ss, he, hss, hs⟩⟩

/-- Below an accepted root every sort that is asked for is answered. -/
theorem Asked.sortOf (hd : dag.Acyclic) {root c : NodeId}
    (h : ∀ n, dag.Reaches root n → dag.NodeOk n) (hc : Asked dag root c) :
    ∃ s, dag.sortOf c = .ok s := by
  obtain ⟨p, e, hp, he, hc⟩ := hc
  obtain ⟨f, hf, hcheck⟩ := h p hp
  cases he.symm.trans hf
  obtain ⟨ss, hss⟩ := DagFold.forall₂_of_mem fun c hc => exists_laxSort hd h c (hp.child he hc)
  exact ((checks_iff_lax (forall₂_agrees hd hss)).mp hcheck).2 c hc

/-- Acceptance in terms of sorts alone: the rules give the root a sort, and every
sort asked for on the way fits `u32`. -/
theorem validate_eq_ok_iff (root : NodeId) (hd : dag.Acyclic) (hv : VarsNarrow dag) :
    dag.validate root = .ok () ↔
      (∃ s, dag.LaxSort root s) ∧ ∀ c, Asked dag root c → ¬ Wide dag c := by
  rw [validate_eq_ok hd]
  constructor
  · intro h
    refine ⟨exists_laxSort hd h root (.refl root), fun c hc ⟨w, hw, hcw⟩ => ?_⟩
    obtain ⟨t, ht⟩ := hc.sortOf hd h
    have := (hcw.agrees hd t ht).2 hv w rfl
    omega
  · rintro ⟨⟨s, hs⟩, hask⟩ n hn
    obtain ⟨t, ht⟩ := DagFold.Folds.of_reaches hs hn
    obtain ⟨e, ss, he, hss, hes⟩ := DagFold.Folds.iff.mp ht
    refine ⟨e, he, (checks_iff_lax (forall₂_agrees hd hss)).mpr ⟨⟨t, hes⟩, fun c hc => ?_⟩⟩
    obtain ⟨u, -, hu⟩ := DagFold.forall₂_mem_left hss c (checkedChildren_subset e hc)
    refine ⟨u, ExprDag.LaxSort.sortOf_eq_ok hd hu
      (narrow_of_not_wide hu (hask c ⟨n, e, hn, he, hc⟩)) fun d hdc => hask d ?_⟩
    obtain ⟨q, f, hr, hf, hdf⟩ := hdc.of_child he (checkedChildren_subset e hc)
    exact ⟨q, f, hn.trans hr, hf, hdf⟩

/-- At an accepted root `sort_of` answers with the lax sort, if that fits `u32`. -/
theorem ExprDag.LaxSort.sortOf_of_validate (hd : dag.Acyclic) {root : NodeId} {s : SmtSort}
    (hs : dag.LaxSort root s) (hn : Narrow s) (hv : dag.validate root = .ok ()) :
    dag.sortOf root = .ok s := by
  have h := (validate_eq_ok hd).mp hv
  obtain ⟨e, ss, he, hss, hes⟩ := DagFold.Folds.iff.mp hs
  obtain ⟨f, hf, hcheck⟩ := h root (.refl root)
  cases he.symm.trans hf
  have hans := ((checks_iff_lax (forall₂_agrees hd hss)).mp hcheck).2
  rw [ExprDag.sortOf_eq hd]
  refine sortOfStep_ok he hes hn (hss.imp fun c t hct hc => ?_)
  obtain ⟨u, hu⟩ := hans c hc
  rw [hu, (ExprDag.LaxSort.agrees hd hct u hu).1]

end Accepts

section Sound

/-- The two rules of SMT-LIB that `validate` does not check: a variable has a
sort that exists, and an address has the index sort of its array. -/
inductive Unchecked (dag : ExprDag) (id : NodeId) : Prop
  | var {name : SymbolId} {s : SmtSort} : dag.tryGet id = some (.var name s) → ¬ s.Valid →
      Unchecked dag id
  | load8 {mem addr : NodeId} {i v : Nat} {t : SmtSort} :
      dag.tryGet id = some (.load8 mem addr) → dag.LaxSort mem (.array i v) →
      dag.LaxSort addr t → t ≠ .bv i → Unchecked dag id
  | store8 {mem addr value : NodeId} {i v : Nat} {t : SmtSort} :
      dag.tryGet id = some (.store8 mem addr value) → dag.LaxSort mem (.array i v) →
      dag.LaxSort addr t → t ≠ .bv i → Unchecked dag id

theorem laxAlg_of_sortAlg {e : Expr} {ss : List SmtSort} {s : SmtSort}
    (h : sortAlg e ss = some s) : laxAlg e ss = some s := by
  cases e with
  | var name s' => simp_all [sortAlg, Expr.op, Expr.leafSort, laxAlg]
  | load8 mem addr =>
    rw [laxAlg_load8_iff]
    simp only [sortAlg, Expr.op, Option.filter_eq_some_iff, Smt.Op.sort_select_iff] at h
    obtain ⟨⟨i, v, rfl, rfl⟩, hb⟩ := h
    simp [Expr.byteWide] at hb
    simp [hb]
  | store8 mem addr value =>
    rw [laxAlg_store8_iff]
    simp only [sortAlg, Expr.op, Option.filter_eq_some_iff, Smt.Op.sort_store_iff] at h
    obtain ⟨⟨i, v, rfl, rfl⟩, hb⟩ := h
    simp [Expr.byteWide] at hb
    simp [hb]
  | _ => exact h

theorem ExprDag.HasSort.lax {id : NodeId} {s : SmtSort} (h : dag.HasSort id s) : dag.LaxSort id s := by
  obtain ⟨t, ht, rfl⟩ := DagFold.Folds.fuse (R := Eq) (fun _ _ ss cs s _ hR hs => by
    cases List.forall₂_eq_eq_eq ▸ hR
    exact ⟨s, laxAlg_of_sortAlg hs, rfl⟩) h
  exact ht

theorem ExprDag.HasSort.not_unchecked {id : NodeId} {s : SmtSort} (h : dag.HasSort id s) :
    ¬ Unchecked dag id := by
  obtain ⟨e, ss, he, hss, hs⟩ := DagFold.Folds.iff.mp h
  have hlax := hss.imp fun _ _ h => ExprDag.HasSort.lax h
  rintro (⟨hn, hv⟩ | ⟨hn, hm, ha, hne⟩ | ⟨hn, hm, ha, hne⟩)
  · cases he.symm.trans hn
    simp only [sortAlg, Expr.op, Expr.leafSort, Option.ite_none_right_eq_some] at hs
    exact hv hs.1
  · cases he.symm.trans hn
    simp only [sortAlg, Expr.op, Option.filter_eq_some_iff, Smt.Op.sort_select_iff] at hs
    obtain ⟨⟨i, v, rfl, -⟩, -⟩ := hs
    simp only [childrenOf, List.forall₂_cons] at hlax
    cases DagFold.Folds.unique hm hlax.1
    exact hne (DagFold.Folds.unique ha hlax.2.1)
  · cases he.symm.trans hn
    simp only [sortAlg, Expr.op, Option.filter_eq_some_iff, Smt.Op.sort_store_iff] at hs
    obtain ⟨⟨i, v, rfl, -⟩, -⟩ := hs
    simp only [childrenOf, List.forall₂_cons] at hlax
    cases DagFold.Folds.unique hm hlax.1
    exact hne (DagFold.Folds.unique ha hlax.2.1)

/-- The lax sort is the sort where no unchecked rule is broken. -/
theorem ExprDag.LaxSort.hasSort {id : NodeId} {s : SmtSort} (h : dag.LaxSort id s)
    (hu : ∀ n, dag.Reaches id n → ¬ Unchecked dag n) : dag.HasSort id s := by
  refine DagFold.Folds.induct (P := fun id s => (∀ n, dag.Reaches id n → ¬ Unchecked dag n) →
    dag.HasSort id s) ?_ h hu
  intro id e ss s he hss hs hu
  have hall : List.Forall₂ dag.HasSort (childrenOf e) ss := by
    have hsub : ∀ c ∈ childrenOf e, ∀ n, dag.Reaches c n → ¬ Unchecked dag n :=
      fun c hc n hn => hu n (.of_child he hc hn)
    generalize childrenOf e = l at hss hsub
    clear hs
    induction hss with
    | nil => exact .nil
    | cons hct _ ih =>
      exact .cons (hct.2 (hsub _ (by simp))) (ih fun d hd => hsub d (by simp [hd]))
  have hid := hu id (.refl id)
  refine DagFold.Folds.iff.mpr ⟨e, ss, he, hall, ?_⟩
  cases e with
  | var name s' =>
    cases hs
    have hv : s.Valid := by_contra fun hv => hid (.var he hv)
    simp [sortAlg, Expr.op, Expr.leafSort, hv]
  | load8 mem addr =>
    obtain ⟨i, t, rfl, rfl⟩ := laxAlg_load8_iff.mp hs
    simp only [childrenOf, List.forall₂_cons] at hss
    have ht : t = .bv i := by_contra fun hne => hid (.load8 he hss.1.1 hss.2.1.1 hne)
    subst ht
    simp [sortAlg, Expr.op, Option.filter_eq_some_iff, Expr.byteWide]
  | store8 mem addr value =>
    obtain ⟨i, t, rfl, rfl⟩ := laxAlg_store8_iff.mp hs
    simp only [childrenOf, List.forall₂_cons] at hss
    have ht : t = .bv i := by_contra fun hne => hid (.store8 he hss.1.1 hss.2.1.1 hne)
    subst ht
    simp [sortAlg, Expr.op, Option.filter_eq_some_iff, Expr.byteWide]
  | _ => exact hs

theorem wellSorted_iff (dag : ExprDag) (root : NodeId) :
    (∀ n, dag.Reaches root n → ∃ s, dag.HasSort n s) ↔
      (∃ s, dag.LaxSort root s) ∧ ∀ n, dag.Reaches root n → ¬ Unchecked dag n := by
  constructor
  · intro h
    obtain ⟨s, hs⟩ := h root (.refl root)
    refine ⟨⟨s, hs.lax⟩, fun n hn => ?_⟩
    obtain ⟨t, ht⟩ := h n hn
    exact ht.not_unchecked
  · rintro ⟨⟨s, hs⟩, hu⟩ n hn
    exact (ExprDag.LaxSort.hasSort hs hu).of_reaches hn

theorem Asked.reaches {root c : NodeId} (h : Asked dag root c) : dag.Reaches root c := by
  obtain ⟨p, e, hp, he, hc⟩ := h
  exact hp.child he (checkedChildren_subset e hc)

theorem ExprDag.Built.varsNarrow (h : dag.Built) : VarsNarrow dag := by
  intro id name s he w hw
  subst hw
  exact h.nodes_induct (P := fun _ e => ∀ name w, e = .var name (.bv w) → w < 2 ^ 32)
    (fun _ e _ hu name w he => by subst he; exact hu.2) id _ he name w rfl

/-- `validate` is a sound and complete sort checker at a root, and `sort_of`
answers with the sorts it has checked. -/
structure ValidateDecidesSorts (dag : ExprDag) (root : NodeId) : Prop where
  accepts_iff : dag.validate root = .ok () ↔ ∀ n, dag.Reaches root n → ∃ s, dag.HasSort n s
  sortOf_eq : dag.validate root = .ok () →
    ∀ n, dag.Reaches root n → ∃ s, dag.HasSort n s ∧ dag.sortOf n = .ok s

/-- Where every checked rule holds, `validate` decides the sorts exactly when no
unchecked rule is broken and every sort fits `u32`, or when a broken rule comes with
an overflow that stops the check. -/
theorem validate_decides_sorts_iff (hd : dag.Built) (root : NodeId) :
    ValidateDecidesSorts dag root ↔
      ((∃ s, dag.LaxSort root s) →
        (∀ n, dag.Reaches root n → ¬ Unchecked dag n ∧ ¬ Wide dag n) ∨
        ((∃ n, dag.Reaches root n ∧ Unchecked dag n) ∧ ∃ c, Asked dag root c ∧ Wide dag c)) := by
  have hacyc := hd.ordered.acyclic
  have hok := validate_eq_ok_iff root hacyc hd.varsNarrow
  have hws := wellSorted_iff dag root
  constructor
  · rintro ⟨haccept, hsortOf⟩ hlax
    by_cases hu : ∀ n, dag.Reaches root n → ¬ Unchecked dag n
    · refine .inl fun n hn => ⟨hu n hn, fun ⟨w, hw, hnw⟩ => ?_⟩
      obtain ⟨s, hs, hss⟩ := hsortOf (haccept.mpr (hws.mpr ⟨hlax, hu⟩)) n hn
      have := (ExprDag.LaxSort.agrees hacyc hnw s hss).2 hd.varsNarrow w rfl
      omega
    · have hbad : ∃ n, dag.Reaches root n ∧ Unchecked dag n := by
        by_contra hnone
        exact hu fun n hn hun => hnone ⟨n, hn, hun⟩
      refine .inr ⟨hbad, ?_⟩
      by_contra hnone
      have hacc := hok.mpr ⟨hlax, fun c hc hw => hnone ⟨c, hc, hw⟩⟩
      exact hu (hws.mp (haccept.mp hacc)).2
  · intro hcond
    have hclean : dag.validate root = .ok () →
        ∀ n, dag.Reaches root n → ¬ Unchecked dag n ∧ ¬ Wide dag n := by
      intro hv
      obtain ⟨hlax, hask⟩ := hok.mp hv
      rcases hcond hlax with h | ⟨-, c, hc, hw⟩
      · exact h
      · exact absurd hw (hask c hc)
    refine ⟨⟨fun hv => ?_, fun h => ?_⟩, fun hv n hn => ?_⟩
    · exact hws.mpr ⟨(hok.mp hv).1, fun n hn => (hclean hv n hn).1⟩
    · obtain ⟨hlax, hu⟩ := hws.mp h
      rcases hcond hlax with h | ⟨⟨n, hn, hun⟩, -⟩
      · exact hok.mpr ⟨hlax, fun c hc => (h c hc.reaches).2⟩
      · exact absurd hun (hu n hn)
    · obtain ⟨s, hs⟩ := hws.mpr ⟨(hok.mp hv).1, fun n hn => (hclean hv n hn).1⟩ n hn
      refine ⟨s, hs, ExprDag.LaxSort.sortOf_eq_ok hacyc hs.lax ?_ fun c hc => ?_⟩
      · exact narrow_of_not_wide hs.lax (hclean hv n hn).2
      · exact (hclean hv c (hn.trans hc.reaches)).2

/-- A byte loaded from a 64-bit addressed array at an 8-bit address. -/
def narrowAddress : ExprDag :=
  let symbol := (ExprDag.new.internSymbol "m").2
  let mem := (symbol.intern (.var 0 (.array 64 8))).2
  let addr := (mem.intern (.bvConst 0 8)).2
  (addr.intern (.load8 0 1)).2

theorem narrowAddress_built : narrowAddress.Built := by
  refine .intern (.intern (.intern (.internSymbol .new) ?_ ?_) ?_ ?_) ?_ trivial
  · simp [childrenOf]
  · exact ⟨by decide, by decide, by decide⟩
  · simp [childrenOf]
  · exact (by decide : 8 < 2 ^ 32)
  · decide

/-- `validate` accepts a load whose address does not have the index sort. -/
theorem validate_accepts_narrowAddress :
    narrowAddress.Built ∧ narrowAddress.validate 2 = .ok () ∧
      (¬ ∃ s, narrowAddress.HasSort 2 s) ∧ ¬ ValidateDecidesSorts narrowAddress 2 := by
  have hok : narrowAddress.validate 2 = .ok () := by decide +kernel
  have hill : ¬ ∃ s, narrowAddress.HasSort 2 s := by
    rintro ⟨s, hs⟩
    exact hs.not_unchecked (@Unchecked.load8 narrowAddress 2 0 1 64 8 (.bv 8)
      rfl ⟨1, rfl⟩ ⟨1, rfl⟩ (by decide))
  exact ⟨narrowAddress_built, hok, hill, fun h => hill (h.accepts_iff.mp hok 2 (.refl 2))⟩

theorem validate_decides_sorts_iff_narrowAddress :
    ValidateDecidesSorts narrowAddress 2 ↔
      ((∃ s, narrowAddress.LaxSort 2 s) →
        (∀ n, narrowAddress.Reaches 2 n → ¬ Unchecked narrowAddress n ∧ ¬ Wide narrowAddress n) ∨
        ((∃ n, narrowAddress.Reaches 2 n ∧ Unchecked narrowAddress n) ∧
          ∃ c, Asked narrowAddress 2 c ∧ Wide narrowAddress c)) :=
  validate_decides_sorts_iff narrowAddress_built 2

end Sound

end Axe.Concolic
