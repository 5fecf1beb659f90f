import Axe.Concolic.Ladder

/-!
# The models the ladder returns

Constant folding looks at every path constraint, tier 1 looks at none, and a
sliced tier at a part of them. A ladder is described here by its rungs, each
the tier-1 solver or some solver outside the program that is right about the
models it returns.
-/
namespace Axe.Concolic

open Smt (Assignment)

/-- The input bytes solve the query, whatever its other variables are. -/
def InputSolves (query : BranchQuery) (dag : ExprDag) (model : List (BitVec 8)) : Prop :=
  ∀ base, query.Holds dag (byteAssignment dag model base)

/-- Every model of a `Sat` report solves the query the solver was handed. -/
def SatSound (dag : ExprDag) (solveBranch : SolveBranch) : Prop :=
  ∀ q report model, solveBranch q dag = some report → report.status = .sat →
    report.inputModel = some model → InputSolves q dag model

inductive RungSolver where
  | pureRust | external
  deriving DecidableEq, Repr

structure Rung where
  tier : SolveTier
  solver : RungSolver
  slice : Bool
  timeout : Nat
  deriving DecidableEq, Repr

/-- A backend that can stand on a rung. -/
structure Rung.Fits (dag : ExprDag) (rung : Rung) (b : LadderBackend) : Prop where
  tier : b.tier = rung.tier
  slice : b.slice = rung.slice
  timeout : b.timeout = rung.timeout
  solver : match rung.solver with
    | .pureRust => ∃ ms, b.solveBranch = pureRustSolveBranch ms
    | .external => SatSound dag b.solveBranch

/-- Every model a ladder of these rungs returns with `Sat` solves the query. -/
def LadderSatSound (rungs : List Rung) (query : BranchQuery) (dag : ExprDag) : Prop :=
  ∀ backends totalMs outcome model, List.Forall₂ (Rung.Fits dag) rungs backends →
    solve backends query dag totalMs = some outcome → outcome.finalReport.status = .sat →
    outcome.finalReport.inputModel = some model → InputSolves query dag model

/-- Tier 1 runs without a panic. -/
def PureRustRuns (query : BranchQuery) (dag : ExprDag) : Prop :=
  (emitQuery query dag).isSome = true ∧ (dag.byteComparison (resolvedTarget query)).isSome = true

section Condition
variable (query : BranchQuery) (dag : ExprDag)

/-- A model this rung can return: the boundary input of the target, or any input
that solves the part of the path it is handed. -/
def Rung.Proposes (rung : Rung) (model : List (BitVec 8)) : Prop :=
  ∃ part n, effectiveQuery rung.slice rung.timeout query dag = some (part, n) ∧
    match rung.solver with
    | .pureRust => PureRustRuns part dag ∧ boundaryInput query dag = some model
    | .external => InputSolves part dag model

/-- The run can go on after this rung. -/
def Rung.Passes (rung : Rung) : Prop :=
  ∃ part n, effectiveQuery rung.slice rung.timeout query dag = some (part, n) ∧
    (rung.solver = .pureRust → PureRustRuns part dag ∧ boundaryInput query dag = none)

/-- Whatever the rungs that are reached propose solves the query. -/
def RungsAnswer : List Rung → Prop
  | [] => True
  | rung :: rungs => (∀ model, rung.Proposes query dag model → InputSolves query dag model) ∧
      (rung.Passes query dag → RungsAnswer rungs)

/-- Constant folding leaves the query to the backends. -/
def FoldPasses : Prop :=
  ∃ cf, constantFold query dag = some cf ∧ ∀ report, cf = some report → report.status ≠ .sat

end Condition

section Tier1
variable {query part : BranchQuery} {dag : ExprDag}

theorem pureRustSolveBranch_isSome (ms : Nat) :
    (∃ report, pureRustSolveBranch ms query dag = some report) ↔ PureRustRuns query dag := by
  unfold pureRustSolveBranch PureRustRuns solveTrivial
  cases emitQuery query dag with
  | none => simp
  | some emitted =>
    cases dag.byteComparison (resolvedTarget query) with
    | none => simp
    | some found =>
      simp only [Option.bind_eq_bind, Option.bind_some, Option.isSome_some, and_self, iff_true]
      rcases found >>= flipComparison query.inputBytes with _ | _ | _ <;> exact ⟨_, rfl⟩

/-- Tier 1 only reads the target and the number of input bytes. -/
theorem boundaryInput_congr (ht : part.targetBranch = query.targetBranch)
    (hw : part.wantTaken = query.wantTaken) (hb : part.inputBytes = query.inputBytes) :
    boundaryInput part dag = boundaryInput query dag := by
  rw [boundaryInput, boundaryInput, resolvedTarget, resolvedTarget, ht, hw, hb]

end Tier1

section Tier0
variable {query : BranchQuery} {dag : ExprDag} {report : SolveReport}

theorem gives_boolConst {id : NodeId} {b : Bool} (h : dag.tryGet id = some (.boolConst b))
    (σ : Assignment SymbolId) : dag.Gives σ id b :=
  DagFold.Folds.iff.mpr ⟨_, [], h, .nil, rfl⟩

theorem allTrue_sat {l : List NodeId} (h : constantFold.allTrue query dag l = some (some report))
    (σ : Assignment SymbolId) : ∀ p ∈ l, dag.Gives σ p true := by
  induction l with
  | nil => simp
  | cons pc rest ih =>
    unfold constantFold.allTrue at h
    split at h
    · cases h
    · rename_i hpc
      simpa using ⟨gives_boolConst hpc σ, ih h⟩
    · cases h

/-- A query that is folded to `Sat` holds everywhere. -/
theorem constantFold_sat (h : constantFold query dag = some (some report))
    (hs : report.status = .sat) (σ : Assignment SymbolId) : query.Holds dag σ := by
  obtain ⟨e, he, h⟩ := Option.bind_eq_some_iff.mp h
  cases e with
  | boolConst targetValue =>
    have hasserted : (if query.wantTaken = true then targetValue else !targetValue) =
        (query.wantTaken == targetValue) := by
      cases query.wantTaken <;> cases targetValue <;> rfl
    dsimp only at h
    rw [hasserted] at h
    cases hw : query.wantTaken == targetValue with
    | false =>
      rw [hw] at h
      cases Option.some.inj h
      cases hs
    | true =>
      rw [hw] at h
      refine ⟨allTrue_sat h σ, ?_⟩
      rw [beq_iff_eq.mp hw]
      exact gives_boolConst he σ
  | _ => cases h

end Tier0

section Loop
variable {query : BranchQuery} {dag : ExprDag}

/-- No report that is kept for the end of the run is a `Sat`. -/
def Progress.KeepsNoSat (p : Progress) : Prop :=
  (∀ x, p.lastReport = some x → x.2.1.status ≠ .sat) ∧
    ∀ x, p.bestAuthoritative = some x → x.2.1.status ≠ .sat

theorem Progress.KeepsNoSat.finish {p : Progress} (h : p.KeepsNoSat) (totalMs : Nat) :
    (p.finish totalMs).finalReport.status ≠ .sat := by
  obtain ⟨attempts, last, best⟩ := p
  cases best with
  | some x => exact h.2 x rfl
  | none =>
    cases last with
    | some x => exact h.1 x rfl
    | none => simp [Progress.finish]

/-- A turn on a rung returns what the rung proposes, or passes on with no `Sat` kept. -/
theorem turn_of_fits {rung : Rung} {b : LadderBackend} {totalMs : Nat} {p : Progress}
    {r : LadderOutcome ⊕ Progress} (hb : rung.Fits dag b) (hp : p.KeepsNoSat)
    (h : b.turn query dag totalMs p = some r) :
    (∀ o model, r = .inl o → o.finalReport.inputModel = some model →
      rung.Proposes query dag model) ∧
      ∀ p', r = .inr p' → rung.Passes query dag ∧ p'.KeepsNoSat := by
  obtain ⟨part, n, report, he, hr, hcases⟩ := turn_cases h
  rw [hb.slice, hb.timeout] at he
  obtain ⟨-, ht, hw, hbytes⟩ := effectiveQuery_spec he
  have hsolver := hb.solver
  refine ⟨?_, ?_⟩
  · rintro o model rfl hm
    obtain ⟨hs, ⟨⟩⟩ | ⟨-, ⟨⟩⟩ := hcases
    refine ⟨part, n, he, ?_⟩
    cases hk : rung.solver with
    | pureRust =>
      rw [hk] at hsolver
      obtain ⟨ms, hms⟩ := hsolver
      rw [hms] at hr
      refine ⟨(pureRustSolveBranch_isSome ms).mp ⟨report, hr⟩, ?_⟩
      have hreport := pureRustSolveBranch_eq_some hr
      rw [boundaryInput_congr ht hw hbytes] at hreport
      cases hbi : boundaryInput query dag with
      | none =>
        rw [hbi] at hreport
        exact absurd hs hreport
      | some m =>
        rw [hbi] at hreport
        exact hreport.2.symm.trans hm
    | external =>
      rw [hk] at hsolver
      exact hsolver part report model hr hs hm
  · rintro p' rfl
    obtain ⟨-, ⟨⟩⟩ | ⟨hs, ⟨⟩⟩ := hcases
    refine ⟨⟨part, n, he, fun hk => ?_⟩, ?_, ?_⟩
    · rw [hk] at hsolver
      obtain ⟨ms, hms⟩ := hsolver
      rw [hms] at hr
      refine ⟨(pureRustSolveBranch_isSome ms).mp ⟨report, hr⟩, ?_⟩
      have hreport := pureRustSolveBranch_eq_some hr
      rw [boundaryInput_congr ht hw hbytes] at hreport
      cases hbi : boundaryInput query dag with
      | none => rfl
      | some m =>
        rw [hbi] at hreport
        exact absurd hreport.1 hs
    · rintro x ⟨⟩
      exact hs
    · intro x hx
      dsimp only at hx
      split at hx
      · cases hx
        exact hs
      · exact hp.2 x hx

theorem turn_isSome {b : LadderBackend} {part : BranchQuery} {n : Nat} {report : SolveReport}
    (he : effectiveQuery b.slice b.timeout query dag = some (part, n))
    (hr : b.solveBranch part dag = some report) (totalMs : Nat) (p : Progress) :
    ∃ r, b.turn query dag totalMs p = some r := by
  simp only [LadderBackend.turn, he, hr, Option.bind_eq_bind, Option.bind_some]
  cases report.status with
  | unsat => cases b.authoritative report <;> exact ⟨_, rfl⟩
  | _ => exact ⟨_, rfl⟩

/-- The outcome of a turn, from the report of the backend. -/
theorem turn_of_report {b : LadderBackend} {part : BranchQuery} {n : Nat} {report : SolveReport}
    (he : effectiveQuery b.slice b.timeout query dag = some (part, n))
    (hr : b.solveBranch part dag = some report) (totalMs : Nat) (p : Progress) :
    (report.status = .sat → ∃ o, b.turn query dag totalMs p = some (.inl o) ∧
      o.finalReport = report) ∧
      (report.status ≠ .sat → b.turn query dag totalMs p = some (.inr ⟨
        p.attempts ++ [b.attempt n report], some (b.tier, report, n),
        if b.authoritative report then some (b.tier, report, n) else p.bestAuthoritative⟩)) := by
  obtain ⟨r, hturn⟩ := turn_isSome he hr totalMs p
  obtain ⟨part', n', report', he', hr', hcases⟩ := turn_cases hturn
  cases he.symm.trans he'
  cases hr.symm.trans hr'
  rw [hturn]
  obtain ⟨hs, rfl⟩ | ⟨hs, rfl⟩ := hcases
  · exact ⟨fun _ => ⟨_, rfl, rfl⟩, fun h => absurd hs h⟩
  · exact ⟨fun h => absurd h hs, fun _ => rfl⟩

/-- A solver that answers one query with one model and gives up on every other. -/
def answering (part : BranchQuery) (model : List (BitVec 8)) : SolveBranch := fun q _ =>
  if q = part then some ⟨.sat, 0, some model, "", none, [], false, "external"⟩
  else some ⟨.unknown, 0, none, "", none, [], false, "external"⟩

theorem answering_satSound {part : BranchQuery} {model : List (BitVec 8)}
    (h : InputSolves part dag model) : SatSound dag (answering part model) := by
  intro q report m hr hs hm
  unfold answering at hr
  split at hr
  · rename_i hq
    cases hr
    cases hm
    exact hq ▸ h
  · cases hr
    cases hs

/-- A solver that gives up. -/
def givingUp : SolveBranch := fun _ _ => some ⟨.unknown, 0, none, "", none, [], false, "external"⟩

theorem givingUp_satSound : SatSound dag givingUp := by
  intro q report m hr hs
  cases hr
  cases hs

/-- Some backend on the rung returns what the rung proposes. -/
theorem Rung.Proposes.turn {rung : Rung} {model : List (BitVec 8)}
    (h : rung.Proposes query dag model) :
    ∃ b, rung.Fits dag b ∧ ∀ totalMs p, ∃ o, b.turn query dag totalMs p = some (.inl o) ∧
      o.finalReport.status = .sat ∧ o.finalReport.inputModel = some model := by
  obtain ⟨tier, solver, slice, timeout⟩ := rung
  obtain ⟨part, n, he, h⟩ := h
  cases solver with
  | pureRust =>
    obtain ⟨hruns, hb⟩ := h
    obtain ⟨report, hr⟩ := (pureRustSolveBranch_isSome 0).mpr hruns
    obtain ⟨-, ht, hw, hbytes⟩ := effectiveQuery_spec he
    have hreport := pureRustSolveBranch_eq_some hr
    rw [boundaryInput_congr ht hw hbytes, hb] at hreport
    let b : LadderBackend := ⟨tier, pureRustSolveBranch 0, slice, timeout⟩
    refine ⟨b, ⟨rfl, rfl, rfl, 0, rfl⟩, fun totalMs p => ?_⟩
    obtain ⟨o, ho, rfl⟩ := (turn_of_report (b := b) he hr totalMs p).1 hreport.1
    exact ⟨o, ho, hreport.1, hreport.2⟩
  | external =>
    let b : LadderBackend := ⟨tier, answering part model, slice, timeout⟩
    refine ⟨b, ⟨rfl, rfl, rfl, answering_satSound h⟩, fun totalMs p => ?_⟩
    have hr : b.solveBranch part dag =
        some ⟨.sat, 0, some model, "", none, [], false, "external"⟩ := by simp [b, answering]
    obtain ⟨o, ho, hreport⟩ := (turn_of_report he hr totalMs p).1 rfl
    exact ⟨o, ho, by rw [hreport], by rw [hreport]⟩

/-- Some backend on the rung lets the run go on. -/
theorem Rung.Passes.turn {rung : Rung} (h : rung.Passes query dag) :
    ∃ b, rung.Fits dag b ∧
      ∀ p, ∃ p', ∀ totalMs, b.turn query dag totalMs p = some (.inr p') := by
  obtain ⟨tier, solver, slice, timeout⟩ := rung
  obtain ⟨part, n, he, h⟩ := h
  cases solver with
  | pureRust =>
    obtain ⟨hruns, hb⟩ := h rfl
    obtain ⟨report, hr⟩ := (pureRustSolveBranch_isSome 0).mpr hruns
    obtain ⟨-, ht, hw, hbytes⟩ := effectiveQuery_spec he
    have hreport := pureRustSolveBranch_eq_some hr
    rw [boundaryInput_congr ht hw hbytes, hb] at hreport
    let b : LadderBackend := ⟨tier, pureRustSolveBranch 0, slice, timeout⟩
    exact ⟨b, ⟨rfl, rfl, rfl, 0, rfl⟩,
      fun p => ⟨_, fun totalMs => (turn_of_report (b := b) he hr totalMs p).2 hreport⟩⟩
  | external =>
    let b : LadderBackend := ⟨tier, givingUp, slice, timeout⟩
    exact ⟨b, ⟨rfl, rfl, rfl, givingUp_satSound⟩,
      fun p => ⟨_, fun totalMs => (turn_of_report (b := b) he rfl totalMs p).2 (by decide)⟩⟩

theorem exists_fits (rungs : List Rung) : ∃ backends, List.Forall₂ (Rung.Fits dag) rungs backends := by
  induction rungs with
  | nil => exact ⟨[], .nil⟩
  | cons rung rungs ih =>
    obtain ⟨backends, h⟩ := ih
    obtain ⟨tier, solver, slice, timeout⟩ := rung
    cases solver with
    | pureRust =>
      exact ⟨⟨tier, pureRustSolveBranch 0, slice, timeout⟩ :: backends,
        .cons ⟨rfl, rfl, rfl, 0, rfl⟩ h⟩
    | external =>
      exact ⟨⟨tier, givingUp, slice, timeout⟩ :: backends,
        .cons ⟨rfl, rfl, rfl, givingUp_satSound⟩ h⟩

/-- The loop over the backends only returns inputs that solve the query exactly when
its rungs do. -/
theorem solveLoop_satSound_iff (rungs : List Rung) {p : Progress} (hp : p.KeepsNoSat) :
    (∀ backends totalMs outcome model, List.Forall₂ (Rung.Fits dag) rungs backends →
      solveLoop query dag totalMs backends p = some outcome →
      outcome.finalReport.status = .sat → outcome.finalReport.inputModel = some model →
      InputSolves query dag model) ↔ RungsAnswer query dag rungs := by
  induction rungs generalizing p with
  | nil =>
    refine iff_of_true ?_ trivial
    intro backends totalMs outcome model hfit h hs
    cases hfit
    cases Option.some.inj h
    exact absurd hs (hp.finish totalMs)
  | cons rung rungs ih =>
    constructor
    · intro hsound
      refine ⟨fun model hm => ?_, fun hpass => ?_⟩
      · obtain ⟨b, hb, hturn⟩ := hm.turn
        obtain ⟨backends, hfit⟩ : ∃ backends, List.Forall₂ (Rung.Fits dag) rungs backends :=
          exists_fits rungs
        obtain ⟨o, ho, hs, hmodel⟩ := hturn 0 p
        refine hsound (b :: backends) 0 o model (.cons hb hfit) ?_ hs hmodel
        rw [solveLoop, ho]
        rfl
      · obtain ⟨b, hb, hturn⟩ := hpass.turn
        obtain ⟨p', hp'⟩ := hturn p
        refine (ih ((turn_of_fits hb hp (hp' 0)).2 p' rfl).2).mp ?_
        intro backends totalMs outcome model hfit h hs hm
        refine hsound (b :: backends) totalMs outcome model (.cons hb hfit) ?_ hs hm
        rw [solveLoop, hp']
        exact h
    · rintro ⟨hprop, hrest⟩ backends totalMs outcome model hfit h hs hm
      cases hfit with
      | cons hb hfit =>
        obtain ⟨r, hr, h⟩ := Option.bind_eq_some_iff.mp h
        obtain ⟨hl, hnext⟩ := turn_of_fits hb hp hr
        cases r with
        | inl o =>
          cases Option.some.inj h
          exact hprop model (hl _ model rfl hm)
        | inr p' =>
          obtain ⟨hpass, hp'⟩ := hnext p' rfl
          exact (ih hp').mpr (hrest hpass) _ totalMs outcome model hfit h hs hm

end Loop

/-- The ladder's `Sat` answers solve the query, whatever sound solvers stand on the
external rungs, exactly when the query is folded to `Sat` or every input proposed
by a rung that is reached solves it. -/
theorem solve_sat_sound_iff (rungs : List Rung) (query : BranchQuery) (dag : ExprDag) :
    LadderSatSound rungs query dag ↔ (FoldPasses query dag → RungsAnswer query dag rungs) := by
  have hstart : ∀ attempts last, (∀ x, last = some x → x.2.1.status ≠ .sat) →
      Progress.KeepsNoSat ⟨attempts, last, none⟩ :=
    fun _ _ h => ⟨h, by simp⟩
  unfold LadderSatSound solve FoldPasses
  cases hcf : constantFold query dag with
  | none => simp
  | some cf =>
    cases cf with
    | none =>
      simp only [Option.bind_eq_bind, Option.bind_some, Option.some.injEq, exists_eq_left',
        reduceCtorEq, false_implies, implies_true, true_implies]
      exact solveLoop_satSound_iff rungs (hstart [] none (by simp))
    | some report =>
      by_cases hs : report.status = .sat
      · refine iff_of_true ?_ ?_
        · intro backends totalMs outcome model _ h _ _ base
          exact constantFold_sat hcf hs _
        · rintro ⟨cf, hcf', hne⟩
          cases hcf'
          exact absurd hs (hne report rfl)
      · have hpass : ∃ cf, some (some report) = some cf ∧
            ∀ r, cf = some r → r.status ≠ .sat := ⟨_, rfl, by rintro r ⟨⟩; exact hs⟩
        rw [forall_prop_of_true hpass]
        cases hstatus : report.status with
        | sat => exact absurd hstatus hs
        | unsat =>
          simp only [Option.bind_eq_bind, Option.bind_some, hstatus]
          exact solveLoop_satSound_iff rungs (hstart _ _ (by rintro x ⟨⟩; exact hs))
        | _ =>
          simp only [Option.bind_eq_bind, Option.bind_some, hstatus]
          exact solveLoop_satSound_iff rungs (hstart _ none (by simp))

/-- `input_b1 = 1` on the path and `input_b0 = 5` as the target. -/
def bystander : ExprDag :=
  let symbol := ((ExprDag.new.internSymbol "input_b0").2.internSymbol "input_b1").2
  let b0 := (symbol.intern (.var 0 (.bv 8))).2
  let b1 := (b0.intern (.var 1 (.bv 8))).2
  let five := (b1.intern (.bvConst 5 8)).2
  let one := (five.intern (.bvConst 1 8)).2
  let path := (one.intern (.eq 1 3)).2
  (path.intern (.eq 0 2)).2

def bystanderQuery : BranchQuery := ⟨2, [4], 5, true, 0, none⟩

/-- The rungs of the default ladder. -/
def defaultRungs : List Rung :=
  [⟨.pureFast, .pureRust, false, 0⟩, ⟨.z3External, .external, true, 10000000000⟩]

theorem byteAssignment_bystander (model : List (BitVec 8)) (base : Assignment SymbolId) {v i : Nat}
    (h : (bystander.symbolName v).bind inputByteIndex = some i) :
    byteAssignment bystander model base v (.bv 8) = (model.getD i 0).setWidth 8 := by
  simp only [byteAssignment, h]

/-- Tier 1 answers `[5, 0]`, which violates the path constraint on the second byte
that `[5, 1]` satisfies. -/
theorem solve_ignores_path :
    (∀ r ∈ bystanderQuery.roots, bystander.HasSort r .bool) ∧
      InputSolves bystanderQuery bystander [5, 1] ∧
      (∃ outcome, solve (defaultForFeatures 0 givingUp) bystanderQuery bystander 0 = some outcome ∧
        outcome.finalReport.status = .sat ∧ outcome.finalReport.inputModel = some [5, 0]) ∧
      ¬ InputSolves bystanderQuery bystander [5, 0] ∧
      ¬ LadderSatSound defaultRungs bystanderQuery bystander := by
  have h0 : (bystander.symbolName 0).bind inputByteIndex = some 0 := by decide
  have h1 : (bystander.symbolName 1).bind inputByteIndex = some 1 := by decide
  have e4 : ∀ σ, bystander.Evaluates σ 4 (.bool (σ 1 (.bv 8) == 1#8)) := fun σ => ⟨3, rfl⟩
  have e5 : ∀ σ, bystander.Evaluates σ 5 (.bool (σ 0 (.bv 8) == 5#8)) := fun σ => ⟨3, rfl⟩
  have hsorts : ∀ r ∈ bystanderQuery.roots, bystander.HasSort r .bool := by
    have hr : ∀ r ∈ bystanderQuery.roots, r = 4 ∨ r = 5 := by decide
    intro r hr'
    obtain rfl | rfl := hr r hr' <;> exact ⟨3, rfl⟩
  have hgood : InputSolves bystanderQuery bystander [5, 1] := by
    intro base
    refine ⟨fun p hp => ?_, ?_⟩
    · cases List.mem_singleton.mp hp
      have := e4 (byteAssignment bystander [5, 1] base)
      rwa [byteAssignment_bystander _ _ h1] at this
    · have := e5 (byteAssignment bystander [5, 1] base)
      rwa [byteAssignment_bystander _ _ h0] at this
  have hbad : ¬ InputSolves bystanderQuery bystander [5, 0] := by
    intro h
    have hpath := (e4 _).unique ((h default).1 4 (by decide))
    rw [byteAssignment_bystander _ _ h1] at hpath
    exact absurd hpath (by simp)
  have hrun : (solve (defaultForFeatures 0 givingUp) bystanderQuery bystander 0).any (fun o =>
      o.finalReport.status = .sat && o.finalReport.inputModel = some [5, 0]) = true := by
    decide
  rw [Option.any_eq_true] at hrun
  obtain ⟨outcome, h, hout⟩ := hrun
  simp only [Bool.and_eq_true, decide_eq_true_eq] at hout
  refine ⟨hsorts, hgood, ⟨outcome, h, hout⟩, hbad, fun hsound => hbad ?_⟩
  refine hsound (defaultForFeatures 0 givingUp) 0 outcome [5, 0] ?_ h hout.1 hout.2
  exact .cons ⟨rfl, rfl, rfl, 0, rfl⟩ (.cons ⟨rfl, rfl, rfl, givingUp_satSound⟩ .nil)

end Axe.Concolic
