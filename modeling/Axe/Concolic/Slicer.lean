import Mathlib.Algebra.BigOperators.Group.Finset.Basic
import Mathlib.Data.List.Destutter
import Axe.Concolic.Semantics
import Axe.Lib.Sweep

/-!
# Backward slicing

`collect_vars` is a depth-first walk that panics on an id out of range;
`backward_slice` sweeps the path constraints at most sixteen times. What the
capped loop returns is compared with the constraints linked to the target by
shared variables, and dropping the others is shown to preserve solutions
whenever the loop reports its fixpoint.
-/
namespace Axe.Concolic

open Smt (SmtSort Value Assignment)

def maxSliceIterations : Nat := 16

structure ConstraintSlice where
  constraints : List NodeId
  vars : Finset SymbolId
  fixpointReached : Bool
  iterations : Nat
  deriving DecidableEq

/-- The stack loop of `collect_vars`; each round pops one id. -/
def collectLoop (dag : ExprDag) : Nat → List NodeId → Finset NodeId → Finset SymbolId →
    Option (Finset SymbolId)
  | _, [], _, out => some out
  | 0, _ :: _, _, _ => none
  | fuel + 1, id :: stack, visited, out =>
    if id ∈ visited then collectLoop dag fuel stack visited out
    else
      match dag.tryGet id with
      | none => none
      | some e =>
        collectLoop dag fuel ((childrenOf e).reverse ++ stack) (insert id visited)
          (match e with | .var name _ => insert name out | _ => out)

/-- One pop for the root and one for every reference stored in the DAG. -/
def collectFuel (dag : ExprDag) : Nat := 1 + ∑ n ∈ Finset.range dag.len, (dag.succ n).length

def collectVars (dag : ExprDag) (root : NodeId) (out : Finset SymbolId) :
    Option (Finset SymbolId) :=
  collectLoop dag (collectFuel dag) [root] ∅ out

structure SliceState where
  included : Finset NodeId
  reachableVars : Finset SymbolId
  grew : Bool

/-- The body of the loop over the path constraints. -/
def sliceConstraint (dag : ExprDag) (s : SliceState) (c : NodeId) : Option SliceState :=
  if c ∈ s.included then some s
  else do
    let cVars ← collectVars dag c ∅
    if Disjoint cVars s.reachableVars then some s
    else some ⟨insert c s.included, s.reachableVars ∪ cVars, true⟩

/-- The rounds left of the fixpoint loop, with the number of rounds done. -/
def sliceLoop (dag : ExprDag) (pathConstraints : List NodeId) :
    Nat → Nat → SliceState → Option (SliceState × Bool × Nat)
  | 0, iterations, s => some (s, false, iterations)
  | left + 1, iterations, s => do
    let s ← pathConstraints.foldlM (sliceConstraint dag) { s with grew := false }
    if s.grew then sliceLoop dag pathConstraints left (iterations + 1) s
    else some (s, true, iterations + 1)

def backwardSlice (dag : ExprDag) (pathConstraints : List NodeId) (targetBranch : NodeId) :
    Option ConstraintSlice := do
  let reachableVars ← collectVars dag targetBranch ∅
  let (s, fixpointReached, iterations) ←
    sliceLoop dag pathConstraints maxSliceIterations 0 ⟨∅, reachableVars, false⟩
  return {
    constraints := (pathConstraints.filter (· ∈ s.included)).destutter (· ≠ ·)
    vars := s.reachableVars
    fixpointReached := fixpointReached
    iterations := iterations }

section CollectVars
variable {dag : ExprDag}

/-- What the walk has left to pop: the stack and the references of the unvisited nodes. -/
def pending (dag : ExprDag) (stack : List NodeId) (visited : Finset NodeId) : Nat :=
  stack.length + ∑ n ∈ Finset.range dag.len \ visited, (dag.succ n).length

theorem pending_visit {stack : List NodeId} {visited : Finset NodeId} {id : NodeId} {e : Expr}
    (he : dag.tryGet id = some e) (hid : id ∉ visited) :
    pending dag ((childrenOf e).reverse ++ stack) (insert id visited) + 1 =
      pending dag (id :: stack) visited := by
  have hmem : id ∈ Finset.range dag.len \ visited := by
    simpa using ⟨ExprDag.lt_of_tryGet he, hid⟩
  have hsum : (dag.succ id).length +
      ∑ n ∈ Finset.range dag.len \ insert id visited, (dag.succ n).length =
        ∑ n ∈ Finset.range dag.len \ visited, (dag.succ n).length := by
    rw [Finset.sdiff_insert]
    exact Finset.add_sum_erase _ (fun n => (dag.succ n).length) hmem
  rw [ExprDag.succ_eq he] at hsum
  simp only [pending, List.length_append, List.length_reverse, List.length_cons]
  omega

/-- The walk pops no more than its fuel: it fails only on an id out of range. -/
theorem collectLoop_isSome {fuel : Nat} {stack : List NodeId} {visited : Finset NodeId}
    {out : Finset SymbolId} (hs : ∀ n ∈ stack, dag.InRange n)
    (hf : pending dag stack visited ≤ fuel) :
    ∃ S, collectLoop dag fuel stack visited out = some S := by
  induction fuel generalizing stack visited out with
  | zero =>
    cases stack with
    | nil => exact ⟨out, by simp [collectLoop]⟩
    | cons id stack => simp [pending] at hf
  | succ fuel ih =>
    cases stack with
    | nil => exact ⟨out, by simp [collectLoop]⟩
    | cons id stack =>
      have hid := hs id (by simp)
      have hrest : ∀ n ∈ stack, dag.InRange n := fun n hn => hs n (by simp [hn])
      by_cases hv : id ∈ visited
      · simp only [collectLoop, hv, if_true]
        refine ih hrest ?_
        simp only [pending, List.length_cons] at hf ⊢
        omega
      · obtain ⟨e, he⟩ := ExprDag.exists_tryGet hid.lt
        have hp := @pending_visit dag stack visited id e he hv
        simp only [collectLoop, hv, if_false, he]
        refine ih ?_ (by omega)
        intro n hn
        rcases List.mem_append.mp hn with hn | hn
        · exact hid.child he (List.mem_reverse.mp hn)
        · exact hrest n hn

/-- The nodes a finished walk has visited: closed under children, reached from
the stack, and with the variables that were added to the output. -/
theorem collectLoop_visits {fuel : Nat} {stack : List NodeId} {visited : Finset NodeId}
    {out S : Finset SymbolId} (h : collectLoop dag fuel stack visited out = some S) :
    ∃ V : Finset NodeId, visited ⊆ V ∧ (∀ n ∈ stack, n ∈ V) ∧
      (∀ n ∈ V, n ∉ visited → ∀ c ∈ dag.succ n, c ∈ V) ∧
      (∀ n ∈ V, n ∉ visited → ∃ a ∈ stack, dag.Reaches a n) ∧
      ∀ v, v ∈ S ↔ v ∈ out ∨ ∃ n ∈ V, n ∉ visited ∧ ∃ s, dag.tryGet n = some (.var v s) := by
  induction fuel generalizing stack visited out with
  | zero =>
    cases stack with
    | nil =>
      cases Option.some.inj h
      exact ⟨visited, by simp, by simp, by simp_all, by simp_all, by simp_all⟩
    | cons id stack => simp [collectLoop] at h
  | succ fuel ih =>
    cases stack with
    | nil =>
      cases Option.some.inj h
      exact ⟨visited, by simp, by simp, by simp_all, by simp_all, by simp_all⟩
    | cons id stack =>
      by_cases hv : id ∈ visited
      · simp only [collectLoop, hv, if_true] at h
        obtain ⟨V, hsub, hstack, hclosed, hreach, hout⟩ := ih h
        refine ⟨V, hsub, ?_, hclosed, ?_, hout⟩
        · intro n hn
          rcases List.mem_cons.mp hn with rfl | hn
          · exact hsub hv
          · exact hstack n hn
        · intro n hn hnv
          obtain ⟨a, ha, hr⟩ := hreach n hn hnv
          exact ⟨a, by simp [ha], hr⟩
      · cases he : dag.tryGet id with
        | none => simp [collectLoop, hv, he] at h
        | some e =>
          simp only [collectLoop, hv, if_false, he] at h
          obtain ⟨V, hsub, hstack, hclosed, hreach, hout⟩ := ih h
          have hidV : id ∈ V := hsub (Finset.mem_insert_self id visited)
          have hchild : ∀ c ∈ childrenOf e, c ∈ V := fun c hc => hstack c (by simp [hc])
          refine ⟨V, fun n hn => hsub (Finset.mem_insert_of_mem hn), ?_, ?_, ?_, ?_⟩
          · intro n hn
            rcases List.mem_cons.mp hn with rfl | hn
            · exact hidV
            · exact hstack n (by simp [hn])
          · intro n hn hnv c hc
            by_cases hnid : n = id
            · subst hnid
              rw [ExprDag.succ_eq he] at hc
              exact hchild c hc
            · exact hclosed n hn (by simp [hnid, hnv]) c hc
          · intro n hn hnv
            by_cases hnid : n = id
            · subst hnid
              exact ⟨n, by simp, .refl n⟩
            · obtain ⟨a, ha, hr⟩ := hreach n hn (by simp [hnid, hnv])
              rcases List.mem_append.mp ha with ha | ha
              · exact ⟨id, by simp, .of_child he (List.mem_reverse.mp ha) hr⟩
              · exact ⟨a, by simp [ha], hr⟩
          · intro v
            rw [hout v]
            constructor
            · rintro (hv' | ⟨n, hn, hnv, s, hns⟩)
              · have : v ∈ out ∨ ∃ s, e = .var v s := by
                  cases e with
                  | var name s =>
                    rcases Finset.mem_insert.mp hv' with rfl | hv'
                    · exact .inr ⟨s, rfl⟩
                    · exact .inl hv'
                  | _ => exact .inl hv'
                rcases this with hv' | ⟨s, rfl⟩
                · exact .inl hv'
                · exact .inr ⟨id, hidV, hv, s, he⟩
              · exact .inr ⟨n, hn, fun h => hnv (Finset.mem_insert_of_mem h), s, hns⟩
            · rintro (hv' | ⟨n, hn, hnv, s, hns⟩)
              · refine .inl ?_
                cases e <;> first | exact hv' | exact Finset.mem_insert_of_mem hv'
              · by_cases hnid : n = id
                · subst hnid
                  cases he.symm.trans hns
                  exact .inl (Finset.mem_insert_self v out)
                · exact .inr ⟨n, hn, by simp [hnid, hnv], s, hns⟩

/-- `collect_vars` adds exactly the variables of the root. -/
theorem mem_collectVars {root : NodeId} {out S : Finset SymbolId}
    (h : collectVars dag root out = some S) (v : SymbolId) :
    v ∈ S ↔ v ∈ out ∨ v ∈ dag.VarsOf root := by
  obtain ⟨V, -, hroot, hclosed, hreach, hout⟩ := collectLoop_visits h
  have hV : ∀ n, n ∈ V ↔ dag.Reaches root n := by
    intro n
    constructor
    · intro hn
      obtain ⟨a, ha, hr⟩ := hreach n hn (by simp)
      rwa [← List.mem_singleton.mp ha]
    · intro hr
      exact hr.mem_closed (V := {n | n ∈ V}) (hroot root (by simp))
        fun p hp c hc => hclosed p hp (by simp) c hc
  rw [hout v]
  refine or_congr_right ⟨?_, ?_⟩
  · rintro ⟨n, hn, -, s, hs⟩
    exact ⟨n, s, (hV n).mp hn, hs⟩
  · rintro ⟨n, s, hr, hs⟩
    exact ⟨n, (hV n).mpr hr, by simp, s, hs⟩

theorem collectVars_isSome {root : NodeId} (hr : dag.InRange root) (out : Finset SymbolId) :
    ∃ S, collectVars dag root out = some S := by
  refine collectLoop_isSome (by simpa using hr) ?_
  simp [pending, collectFuel]

end CollectVars

section Loop
variable {dag : ExprDag} {pathConstraints : List NodeId} {targetBranch : NodeId}

/-- The variables the walk finds, as the labels of a sweep. -/
def varLabels (dag : ExprDag) (c : NodeId) : Finset SymbolId := (collectVars dag c ∅).getD ∅

theorem coe_varLabels {c : NodeId} {S : Finset SymbolId} (h : collectVars dag c ∅ = some S) :
    (varLabels dag c : Set SymbolId) = dag.VarsOf c := by
  ext v
  simp [varLabels, h, mem_collectVars h]

def SliceState.sweep (s : SliceState) : Sweep.State NodeId SymbolId := ⟨s.included, s.reachableVars⟩

/-- One pass over the constraints is one sweep, and `grew` records a change. -/
theorem foldlM_sliceConstraint {cs : List NodeId} {s s' : SliceState}
    (h : cs.foldlM (sliceConstraint dag) s = some s') :
    s'.sweep = Sweep.sweep (varLabels dag) cs s.sweep ∧
      (s'.grew = true ↔ s.grew = true ∨ s'.included ≠ s.included) := by
  induction cs generalizing s with
  | nil =>
    cases Option.some.inj h
    exact ⟨rfl, by simp⟩
  | cons c cs ih =>
    rw [List.foldlM_cons] at h
    obtain ⟨t, ht, h⟩ := Option.bind_eq_some_iff.mp h
    obtain ⟨hsweep, hgrew⟩ := ih h
    have hmono : t.included ⊆ s'.included := by
      have := @Sweep.included_subset_sweep _ _ _ _ (varLabels dag) cs t.sweep
      rwa [← hsweep] at this
    by_cases hc : c ∈ s.included
    · rw [sliceConstraint, if_pos hc] at ht
      cases Option.some.inj ht
      refine ⟨?_, hgrew⟩
      rw [hsweep]
      simp [Sweep.sweep, Sweep.absorb, SliceState.sweep, hc]
    · rw [sliceConstraint, if_neg hc] at ht
      obtain ⟨cVars, hcv, ht⟩ := Option.bind_eq_some_iff.mp ht
      have hl : varLabels dag c = cVars := by simp [varLabels, hcv]
      by_cases hdis : Disjoint cVars s.reachableVars
      · rw [if_pos hdis] at ht
        cases Option.some.inj ht
        refine ⟨?_, hgrew⟩
        rw [hsweep]
        simp [Sweep.sweep, Sweep.absorb, SliceState.sweep, hl, hdis]
      · rw [if_neg hdis] at ht
        cases Option.some.inj ht
        refine ⟨?_, ?_⟩
        · rw [hsweep]
          simp [Sweep.sweep, Sweep.absorb, SliceState.sweep, hl, hdis, hc]
        · have hne : s'.included ≠ s.included :=
            fun heq => hc (heq ▸ hmono (Finset.mem_insert_self c s.included))
          rw [hgrew]
          exact ⟨fun _ => .inr hne, fun _ => .inl rfl⟩

/-- The capped loop with its early exit ends in the state of `left` plain sweeps,
and its flag says that a further sweep would change nothing. -/
theorem sliceLoop_sweeps {left iterations : Nat} {s s' : SliceState} {b : Bool} {n : Nat}
    (h : sliceLoop dag pathConstraints left iterations s = some (s', b, n)) :
    s'.sweep = Sweep.sweeps (varLabels dag) pathConstraints left s.sweep ∧
      (b = true → Sweep.sweep (varLabels dag) pathConstraints s'.sweep = s'.sweep) := by
  induction left generalizing iterations s with
  | zero =>
    simp only [sliceLoop, Option.some.injEq, Prod.mk.injEq] at h
    obtain ⟨rfl, rfl, -⟩ := h
    exact ⟨rfl, by simp⟩
  | succ left ih =>
    obtain ⟨t, ht, h⟩ := Option.bind_eq_some_iff.mp h
    obtain ⟨hsweep, hgrew⟩ := foldlM_sliceConstraint ht
    have hstep : t.sweep = Sweep.sweep (varLabels dag) pathConstraints s.sweep := hsweep
    by_cases hg : t.grew = true
    · rw [if_pos hg] at h
      obtain ⟨heq, hb⟩ := ih h
      exact ⟨by rw [heq, Sweep.sweeps_succ', hstep], hb⟩
    · rw [if_neg hg] at h
      simp only [Option.some.injEq, Prod.mk.injEq] at h
      obtain ⟨rfl, rfl, -⟩ := h
      -- nothing was absorbed, so the sweep left its state alone
      have hinc : (Sweep.sweep (varLabels dag) pathConstraints s.sweep).included =
          s.sweep.included := by
        by_contra hne
        refine hg (hgrew.mpr (.inr fun heq => hne ?_))
        rw [← hstep]
        exact heq
      have hfix := (Sweep.sweep_stable hinc).1
      have hts : t.sweep = s.sweep := hstep.trans hfix
      rw [hts]
      exact ⟨(Sweep.sweeps_of_stable hfix _).symm, fun _ => hfix⟩

theorem foldlM_sliceConstraint_isSome {cs : List NodeId}
    (hcs : ∀ c ∈ cs, dag.InRange c) (s : SliceState) :
    ∃ s', cs.foldlM (sliceConstraint dag) s = some s' := by
  induction cs generalizing s with
  | nil => exact ⟨s, rfl⟩
  | cons c cs ih =>
    have hstep : ∃ t, sliceConstraint dag s c = some t := by
      obtain ⟨cVars, hcv⟩ := collectVars_isSome (hcs c (by simp)) ∅
      unfold sliceConstraint
      split
      · exact ⟨s, rfl⟩
      · simp only [hcv, Option.bind_eq_bind, Option.bind_some]
        split <;> exact ⟨_, rfl⟩
    obtain ⟨t, ht⟩ := hstep
    obtain ⟨s', hs'⟩ := ih (fun d hd' => hcs d (by simp [hd'])) t
    exact ⟨s', by rw [List.foldlM_cons, ht]; exact hs'⟩

theorem sliceLoop_isSome (hP : ∀ c ∈ pathConstraints, dag.InRange c)
    (left iterations : Nat) (s : SliceState) :
    ∃ r, sliceLoop dag pathConstraints left iterations s = some r := by
  induction left generalizing iterations s with
  | zero => exact ⟨_, rfl⟩
  | succ left ih =>
    obtain ⟨t, ht⟩ := foldlM_sliceConstraint_isSome hP { s with grew := false }
    simp only [sliceLoop, ht, Option.bind_eq_bind, Option.bind_some]
    split
    · exact ih _ t
    · exact ⟨_, rfl⟩

/-- Slicing panics only where the query reaches an id out of range. -/
theorem backwardSlice_isSome (ht : dag.InRange targetBranch)
    (hP : ∀ c ∈ pathConstraints, dag.InRange c) :
    ∃ S, backwardSlice dag pathConstraints targetBranch = some S := by
  obtain ⟨vars, hvars⟩ := collectVars_isSome ht ∅
  obtain ⟨⟨s, b, n⟩, hr⟩ := sliceLoop_isSome hP maxSliceIterations 0 ⟨∅, vars, false⟩
  simp only [backwardSlice, hvars, hr, Option.bind_eq_bind, Option.bind_some]
  exact ⟨_, rfl⟩

/-- What `backward_slice` returns, in terms of sweeps from the target's variables. -/
theorem backwardSlice_sweeps {S : ConstraintSlice}
    (h : backwardSlice dag pathConstraints targetBranch = some S) :
    ∃ s : Sweep.State NodeId SymbolId,
      s = Sweep.sweeps (varLabels dag) pathConstraints maxSliceIterations
        ⟨∅, varLabels dag targetBranch⟩ ∧
      (varLabels dag targetBranch : Set SymbolId) = dag.VarsOf targetBranch ∧
      S.constraints = (pathConstraints.filter (· ∈ s.included)).destutter (· ≠ ·) ∧
      S.vars = s.reached ∧
      (S.fixpointReached = true → Sweep.sweep (varLabels dag) pathConstraints s = s) := by
  obtain ⟨vars, hvars, h⟩ := Option.bind_eq_some_iff.mp h
  obtain ⟨⟨s, b, n⟩, hr, h⟩ := Option.bind_eq_some_iff.mp h
  cases Option.some.inj h
  obtain ⟨hs, hb⟩ := sliceLoop_sweeps hr
  have hl : varLabels dag targetBranch = vars := by simp [varLabels, hvars]
  refine ⟨s.sweep, by rw [hs, hl]; rfl, coe_varLabels hvars, rfl, rfl, hb⟩

end Loop

section Exact
variable (dag : ExprDag) (pathConstraints : List NodeId) (targetBranch : NodeId)

def SharesVar (c d : NodeId) : Prop := (dag.VarsOf c ∩ dag.VarsOf d).Nonempty

/-- The path constraints connected to the target through a chain of shared variables. -/
def InTrueSlice : NodeId → Prop :=
  Sweep.Connected (SharesVar dag targetBranch) (SharesVar dag) pathConstraints

open Classical in
/-- The true slice in its order, adjacent duplicates collapsed, with the
variables of the target and of the true slice. -/
structure SliceExact (S : ConstraintSlice) : Prop where
  constraints : S.constraints =
    (pathConstraints.filter fun c => InTrueSlice dag pathConstraints targetBranch c).destutter
      (· ≠ ·)
  vars : ∀ v, v ∈ S.vars ↔ v ∈ dag.VarsOf targetBranch ∨
    ∃ c, InTrueSlice dag pathConstraints targetBranch c ∧ v ∈ dag.VarsOf c

/-- Every constraint of the true slice ends a chain whose positions in the list
form at most sixteen ascending runs. -/
def WithinCap : Prop :=
  ∀ c, InTrueSlice dag pathConstraints targetBranch c →
    ∃ p k, pathConstraints[p]? = some c ∧ k ≤ maxSliceIterations ∧
      Sweep.Run (SharesVar dag targetBranch) (SharesVar dag) pathConstraints k p

variable {dag pathConstraints targetBranch}

theorem sharesVar_iff {c d : NodeId} (hc : dag.InRange c) (hd : dag.InRange d) :
    SharesVar dag c d ↔ ¬ Disjoint (varLabels dag d) (varLabels dag c) := by
  obtain ⟨C, hC⟩ := collectVars_isSome hc ∅
  obtain ⟨D, hD⟩ := collectVars_isSome hd ∅
  rw [SharesVar, ← coe_varLabels hC, ← coe_varLabels hD, ← Finset.disjoint_coe,
    Set.not_disjoint_iff_nonempty_inter, Set.inter_comm]

theorem run_iff_labelRun (ht : dag.InRange targetBranch)
    (hP : ∀ c ∈ pathConstraints, dag.InRange c) (k p : Nat) :
    Sweep.Run (SharesVar dag targetBranch) (SharesVar dag) pathConstraints k p ↔
      Sweep.LabelRun (varLabels dag) (varLabels dag targetBranch) pathConstraints k p := by
  constructor
  · exact Sweep.Run.mono (fun c hc => (sharesVar_iff ht (hP c hc)).mp)
      fun c hc d hd => (sharesVar_iff (hP c hc) (hP d hd)).mp
  · exact Sweep.Run.mono (fun c hc => (sharesVar_iff ht (hP c hc)).mpr)
      fun c hc d hd => (sharesVar_iff (hP c hc) (hP d hd)).mpr

theorem mem_destutter_ne {l : List NodeId} {c : NodeId} : c ∈ l.destutter (· ≠ ·) ↔ c ∈ l := by
  refine ⟨fun h => (List.destutter_sublist _ l).mem h, ?_⟩
  cases l with
  | nil => exact id
  | cons a l =>
    rw [List.destutter_cons']
    intro h
    induction l generalizing a with
    | nil => simpa using h
    | cons b l ih =>
      rw [List.destutter'_cons]
      split
      · rcases List.mem_cons.mp h with rfl | h
        · simp
        · exact List.mem_cons_of_mem a (ih b h)
      · rename_i hab
        simp only [ne_eq, not_not] at hab
        exact ih a (by simpa [hab] using h)

/-- However many sweeps it takes, only the true slice is included. -/
theorem inTrueSlice_of_sweeps (ht : dag.InRange targetBranch)
    (hP : ∀ c ∈ pathConstraints, dag.InRange c) {n : Nat} {c : NodeId}
    (h : c ∈ (Sweep.sweeps (varLabels dag) pathConstraints n
      ⟨∅, varLabels dag targetBranch⟩).included) :
    InTrueSlice dag pathConstraints targetBranch c := by
  obtain ⟨p, k, hp, -, hr⟩ := (Sweep.mem_sweeps_iff n c).mp h
  obtain ⟨c', hc', hconn⟩ := ((run_iff_labelRun ht hP k p).mpr hr).connected
  cases hp.symm.trans hc'
  exact hconn

/-- The constraints the sixteen sweeps include. -/
theorem mem_slice_iff (ht : dag.InRange targetBranch) (hP : ∀ c ∈ pathConstraints, dag.InRange c)
    {S : ConstraintSlice} (h : backwardSlice dag pathConstraints targetBranch = some S)
    (c : NodeId) :
    c ∈ S.constraints ↔ ∃ p k, pathConstraints[p]? = some c ∧ k ≤ maxSliceIterations ∧
      Sweep.Run (SharesVar dag targetBranch) (SharesVar dag) pathConstraints k p := by
  obtain ⟨s, rfl, -, hcs, -, -⟩ := backwardSlice_sweeps h
  simp only [hcs, mem_destutter_ne, List.mem_filter, decide_eq_true_eq, Sweep.mem_sweeps_iff,
    run_iff_labelRun ht hP]
  exact ⟨And.right, fun ⟨p, k, hp, hk⟩ => ⟨List.mem_of_getElem? hp, p, k, hp, hk⟩⟩

/-- The slice is the true slice exactly when the cap cuts no chain short. -/
theorem backwardSlice_exact_iff (ht : dag.InRange targetBranch)
    (hP : ∀ c ∈ pathConstraints, dag.InRange c) :
    ∃ S, backwardSlice dag pathConstraints targetBranch = some S ∧
      (SliceExact dag pathConstraints targetBranch S ↔
        WithinCap dag pathConstraints targetBranch) := by
  obtain ⟨S, hS⟩ := backwardSlice_isSome ht hP
  refine ⟨S, hS, ?_⟩
  have hmem := mem_slice_iff ht hP hS
  constructor
  · intro hexact c hc
    refine (hmem c).mp ?_
    rw [hexact.constraints, mem_destutter_ne]
    simpa using ⟨hc.mem, hc⟩
  · intro hcap
    obtain ⟨s, rfl, hvt, hcs, hvars, -⟩ := backwardSlice_sweeps hS
    have htrue : ∀ c, c ∈ S.constraints ↔ InTrueSlice dag pathConstraints targetBranch c := by
      intro c
      rw [hmem c]
      refine ⟨?_, hcap c⟩
      rintro ⟨p, k, hp, -, hr⟩
      obtain ⟨c', hc', hconn⟩ := hr.connected
      cases hp.symm.trans hc'
      exact hconn
    have hinc : ∀ c, c ∈ (Sweep.sweeps (varLabels dag) pathConstraints maxSliceIterations
        ⟨∅, varLabels dag targetBranch⟩).included ↔
          InTrueSlice dag pathConstraints targetBranch c := by
      intro c
      rw [← htrue, hcs, mem_destutter_ne, List.mem_filter, decide_eq_true_eq]
      refine ⟨fun hc => ⟨?_, hc⟩, And.right⟩
      obtain ⟨p, k, hp, -⟩ := (Sweep.mem_sweeps_iff _ c).mp hc
      exact List.mem_of_getElem? hp
    refine ⟨?_, fun v => ?_⟩
    · rw [hcs]
      congr 1
      exact List.filter_congr fun c _ => decide_eq_decide.mpr (hinc c)
    · rw [hvars, Sweep.covers_sweeps maxSliceIterations v, ← hvt, Finset.mem_coe]
      refine or_congr_right (exists_congr fun c => ?_)
      rw [hinc]
      refine and_congr_right fun hc => ?_
      obtain ⟨C, hC⟩ := collectVars_isSome (hP c hc.mem) ∅
      rw [← coe_varLabels hC, Finset.mem_coe]

/-- The target `x = 0` with the constraints `x = y` and `z = 0`. -/
def linkedPair : ExprDag :=
  let (x, dag) := ExprDag.new.internSymbol "x"
  let (y, dag) := dag.internSymbol "y"
  let (z, dag) := dag.internSymbol "z"
  let (x, dag) := dag.intern (.var x (.bv 32))
  let (y, dag) := dag.intern (.var y (.bv 32))
  let (z, dag) := dag.intern (.var z (.bv 32))
  let (c0, dag) := dag.intern (.bvConst 0 32)
  let (_, dag) := dag.intern (.eq x c0)
  let (_, dag) := dag.intern (.eq x y)
  (dag.intern (.eq z c0)).2

theorem linkedPair_ordered : linkedPair.Ordered := by decide

theorem backwardSlice_exact_iff_linkedPair :
    ∃ S, backwardSlice linkedPair [5, 6] 4 = some S ∧
      (SliceExact linkedPair [5, 6] 4 S ↔ WithinCap linkedPair [5, 6] 4) :=
  backwardSlice_exact_iff (linkedPair_ordered.inRange (by decide)) fun c hc =>
    linkedPair_ordered.inRange (by
      have : ∀ c ∈ [5, 6], c < linkedPair.len := by decide
      exact this c hc)

/-- `x0 = x1`, …, `x16 = x17` and the target `x0 = 0`. -/
def equalBytes : ExprDag :=
  let vars := (List.range 18).foldl (fun dag i =>
    let (name, dag) := dag.internSymbol s!"x{i}"
    (dag.intern (.var name (.bv 8))).2) ExprDag.new
  let eqs := (List.range 17).foldl (fun dag i => (dag.intern (.eq i (i + 1))).2) vars
  let (c0, dag) := eqs.intern (.bvConst 0 8)
  (dag.intern (.eq 0 c0)).2

/-- The equations of `equalBytes`, the last one first. -/
def lastFirst : List NodeId := (List.range 17).reverse.map (18 + ·)

theorem equalBytes_ordered : equalBytes.Ordered := by decide

/-- Listed last first, seventeen linked equations need a seventeenth sweep: the
slice lacks `x16 = x17`. -/
theorem backwardSlice_drops_linked :
    equalBytes.Acyclic ∧ InTrueSlice equalBytes lastFirst 36 34 ∧
      ∃ S, backwardSlice equalBytes lastFirst 36 = some S ∧ S.fixpointReached = false ∧
        34 ∉ S.constraints ∧ ¬ SliceExact equalBytes lastFirst 36 S := by
  have ht : equalBytes.InRange 36 := equalBytes_ordered.inRange (by decide)
  have hP : ∀ c ∈ lastFirst, equalBytes.InRange c := fun c hc =>
    equalBytes_ordered.inRange (by
      have : ∀ c ∈ lastFirst, c < equalBytes.len := by decide
      exact this c hc)
  have htrue : InTrueSlice equalBytes lastFirst 36 34 :=
    inTrueSlice_of_sweeps (n := 17) ht hP (by decide +kernel)
  obtain ⟨S, hS, hfix, hout⟩ : ∃ S, backwardSlice equalBytes lastFirst 36 = some S ∧
      S.fixpointReached = false ∧ 34 ∉ S.constraints := by
    have h : (backwardSlice equalBytes lastFirst 36).any
        (fun S => S.fixpointReached = false ∧ 34 ∉ S.constraints) = true := by decide
    rw [Option.any_eq_true] at h
    simpa using h
  refine ⟨equalBytes_ordered.acyclic, htrue, S, hS, hfix, hout, fun hexact => hout ?_⟩
  rw [hexact.constraints, mem_destutter_ne]
  simpa using ⟨htrue.mem, htrue⟩

end Exact

section Solutions
variable {dag : ExprDag} {pathConstraints : List NodeId} {targetBranch : NodeId}

/-- The assignment that follows `m` on `vars` and `c` elsewhere. -/
def mergeOn (vars : Finset SymbolId) (m c : Assignment SymbolId) : Assignment SymbolId :=
  fun x => if x ∈ vars then m x else c x

theorem ExprDag.Evaluates.merge_left {vars : Finset SymbolId} {m c : Assignment SymbolId} {id : NodeId}
    {v : Value} (h : dag.Evaluates m id v) (hsub : ∀ x ∈ dag.VarsOf id, x ∈ vars) :
    dag.Evaluates (mergeOn vars m c) id v :=
  h.congr fun x hx => by simp [mergeOn, hsub x hx]

theorem ExprDag.Evaluates.merge_right {vars : Finset SymbolId} {m c : Assignment SymbolId} {id : NodeId}
    {v : Value} (h : dag.Evaluates c id v) (hout : ∀ x ∈ dag.VarsOf id, x ∉ vars) :
    dag.Evaluates (mergeOn vars m c) id v :=
  h.congr fun x hx => by simp [mergeOn, hout x hx]

/-- At the fixpoint a path constraint is in the slice with all of its variables,
or shares none with it. -/
theorem fixpoint_splits (hP : ∀ c ∈ pathConstraints, dag.InRange c) {S : ConstraintSlice}
    (h : backwardSlice dag pathConstraints targetBranch = some S)
    (hfix : S.fixpointReached = true) :
    (∀ x ∈ dag.VarsOf targetBranch, x ∈ S.vars) ∧
      ∀ p ∈ pathConstraints, (p ∈ S.constraints ∧ ∀ x ∈ dag.VarsOf p, x ∈ S.vars) ∨
        ∀ x ∈ dag.VarsOf p, x ∉ S.vars := by
  obtain ⟨s, rfl, hvt, hcs, hvars, hstable⟩ := backwardSlice_sweeps h
  have hcover := @Sweep.covers_sweeps _ _ _ _ (varLabels dag) pathConstraints
    (varLabels dag targetBranch) maxSliceIterations
  refine ⟨fun x hx => ?_, fun p hp => ?_⟩
  · rw [hvars, hcover]
    exact .inl (by rwa [← Finset.mem_coe, hvt])
  · obtain ⟨C, hC⟩ := collectVars_isSome (hP p hp) ∅
    have hlabels : ∀ x, x ∈ dag.VarsOf p ↔ x ∈ varLabels dag p := fun x => by
      rw [← Finset.mem_coe, coe_varLabels hC]
    rcases (Sweep.sweep_stable (congrArg _ (hstable hfix))).2 p hp with hin | hdis
    · refine .inl ⟨?_, fun x hx => ?_⟩
      · rw [hcs, mem_destutter_ne]
        simpa using ⟨hp, hin⟩
      · rw [hvars, hcover]
        exact .inr ⟨p, hin, (hlabels x).mp hx⟩
    · refine .inr fun x hx => ?_
      rw [hvars]
      exact Finset.disjoint_left.mp hdis ((hlabels x).mp hx)

/-- A solution of the slice, completed by any solution of the whole path, solves
the whole path and leaves the target's value as it was. -/
theorem backwardSlice_preserves_solutions (ht : dag.InRange targetBranch)
    (hP : ∀ c ∈ pathConstraints, dag.InRange c) :
    ∃ S, backwardSlice dag pathConstraints targetBranch = some S ∧
      (S.fixpointReached = true → ∀ (m c : Assignment SymbolId) (b : Value),
        (∀ p ∈ S.constraints, dag.Gives m p true) → dag.Evaluates m targetBranch b →
        (∀ p ∈ pathConstraints, dag.Gives c p true) →
          (∀ p ∈ pathConstraints, dag.Gives (mergeOn S.vars m c) p true) ∧
            dag.Evaluates (mergeOn S.vars m c) targetBranch b) := by
  obtain ⟨S, hS⟩ := backwardSlice_isSome ht hP
  refine ⟨S, hS, fun hfix m c b hm hb hc => ?_⟩
  obtain ⟨htarget, hsplit⟩ := fixpoint_splits hP hS hfix
  refine ⟨fun p hp => ?_, hb.merge_left htarget⟩
  rcases hsplit p hp with ⟨hin, hsub⟩ | hout
  · exact (hm p hin).merge_left hsub
  · exact (hc p hp).merge_right hout

theorem backwardSlice_preserves_solutions_linkedPair :
    ∃ S, backwardSlice linkedPair [5, 6] 4 = some S ∧
      (S.fixpointReached = true → ∀ (m c : Assignment SymbolId) (b : Value),
        (∀ p ∈ S.constraints, linkedPair.Gives m p true) → linkedPair.Evaluates m 4 b →
        (∀ p ∈ [5, 6], linkedPair.Gives c p true) →
          (∀ p ∈ [5, 6], linkedPair.Gives (mergeOn S.vars m c) p true) ∧
            linkedPair.Evaluates (mergeOn S.vars m c) 4 b) :=
  backwardSlice_preserves_solutions (linkedPair_ordered.inRange (by decide)) fun c hc =>
    linkedPair_ordered.inRange (by
      have : ∀ c ∈ [5, 6], c < linkedPair.len := by decide
      exact this c hc)

end Solutions

end Axe.Concolic
