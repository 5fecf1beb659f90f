import Axe.Concolic.PureRust
import Axe.Concolic.Slicer

/-!
# The solving ladder

Constant folding, then one backend after another. A backend is asked at most
once in a run, so its state is not modelled: it is a function of the query and
the DAG, partial where it panics. The wall clock is a parameter.
-/
namespace Axe.Concolic

open Smt (Assignment)

inductive SolveTier where
  | constantFold | pureFast | z3Quick | z3SlicedAssumptions | z3External | unknown
  deriving DecidableEq, Repr

def SolveTier.canAuthoritativelyUnreachable (tier : SolveTier) : Bool :=
  tier = .z3SlicedAssumptions || tier = .z3External

abbrev SolveBranch := BranchQuery → ExprDag → Option SolveReport

structure LadderBackend where
  tier : SolveTier
  solveBranch : SolveBranch
  slice : Bool
  timeout : Nat

structure LadderAttempt where
  tier : SolveTier
  backendName : String
  sliceSize : Nat
  timeMs : Nat
  status : SolveStatus
  reason : Option String
  isAuthoritativeUnreachable : Bool
  deriving DecidableEq, Repr

structure LadderOutcome where
  attempts : List LadderAttempt
  winningTier : SolveTier
  finalReport : SolveReport
  branchMarkedUnreachable : Bool
  totalTimeMs : Nat
  deriving DecidableEq, Repr

/-- Tier 0. The outer `none` is an id out of range. -/
def constantFold (query : BranchQuery) (dag : ExprDag) : Option (Option SolveReport) := do
  match ← dag.tryGet query.targetBranch with
  | .boolConst targetValue =>
    let assertedTrue := if query.wantTaken then targetValue else !targetValue
    if !assertedTrue then
      return some ⟨.unsat, 0, none, "", some "constant_fold_unsat", [], false, "constant_fold"⟩
    else allTrue query.pathConstraints
  | _ => return none
where
  /-- The loop over the path constraints. -/
  allTrue : List NodeId → Option (Option SolveReport)
    | [] => some (some ⟨.sat, 0, some (List.replicate query.inputBytes 0), "", none, [], false,
        "constant_fold"⟩)
    | pc :: rest =>
      match dag.tryGet pc with
      | none => none
      | some (.boolConst true) => allTrue rest
      | some _ => some none

/-- `if tier_timeout > 0 { q.timeout = tier_timeout; }` -/
def BranchQuery.capTimeout (q : BranchQuery) (tierTimeout : Nat) : BranchQuery :=
  if tierTimeout > 0 then { q with timeout := tierTimeout } else q

def sliceQuery (query : BranchQuery) (dag : ExprDag) (tierTimeout : Nat) :
    Option (BranchQuery × Nat) := do
  let slice ← backwardSlice dag query.pathConstraints query.targetBranch
  let sliced := { query with pathConstraints := slice.constraints }
  return (sliced.capTimeout tierTimeout, slice.constraints.length)

/-- The query a tier is handed, and the number of its path constraints. -/
def effectiveQuery (slice : Bool) (timeout : Nat) (query : BranchQuery) (dag : ExprDag) :
    Option (BranchQuery × Nat) :=
  if slice then sliceQuery query dag timeout
  else some (query.capTimeout timeout, query.pathConstraints.length)

/-- The variables of the loop over the backends. -/
structure Progress where
  attempts : List LadderAttempt
  lastReport : Option (SolveTier × SolveReport × Nat)
  bestAuthoritative : Option (SolveTier × SolveReport × Nat)

/-- The outcome when no backend has answered `Sat`. -/
def Progress.finish (p : Progress) (totalMs : Nat) : LadderOutcome :=
  match p.bestAuthoritative, p.lastReport with
  | some (tier, report, _), _ => ⟨p.attempts, tier, report, true, totalMs⟩
  | none, some (tier, report, _) => ⟨p.attempts, tier, report, false, totalMs⟩
  | none, none => ⟨p.attempts, .unknown,
      ⟨.unknown, 0, none, "", some "ladder_empty", [], false, "ladder"⟩, false, totalMs⟩

def LadderBackend.authoritative (b : LadderBackend) (report : SolveReport) : Bool :=
  b.tier.canAuthoritativelyUnreachable && report.isAuthoritativeUnreachable

def LadderBackend.attempt (b : LadderBackend) (sliceSize : Nat) (report : SolveReport) :
    LadderAttempt :=
  ⟨b.tier, report.backend, sliceSize, report.timeMs, report.status, report.reason,
    b.authoritative report⟩

/-- One round of the loop: an outcome on `Sat`, progress otherwise. -/
def LadderBackend.turn (b : LadderBackend) (query : BranchQuery) (dag : ExprDag) (totalMs : Nat)
    (p : Progress) : Option (LadderOutcome ⊕ Progress) := do
  let (effective, sliceSize) ← effectiveQuery b.slice b.timeout query dag
  let report ← b.solveBranch effective dag
  let attempts := p.attempts ++ [b.attempt sliceSize report]
  let found := some (b.tier, report, sliceSize)
  match report.status with
  | .sat => return .inl ⟨attempts, b.tier, report, false, totalMs⟩
  | .unsat =>
    if b.authoritative report then return .inr ⟨attempts, found, found⟩
    else return .inr ⟨attempts, found, p.bestAuthoritative⟩
  | _ => return .inr ⟨attempts, found, p.bestAuthoritative⟩

def solveLoop (query : BranchQuery) (dag : ExprDag) (totalMs : Nat) :
    List LadderBackend → Progress → Option LadderOutcome
  | [], p => some (p.finish totalMs)
  | b :: backends, p => do
    match ← b.turn query dag totalMs p with
    | .inl outcome => return outcome
    | .inr p => solveLoop query dag totalMs backends p

/-- `SolveLadder::solve`, with the total time the clock shows. -/
def solve (backends : List LadderBackend) (query : BranchQuery) (dag : ExprDag) (totalMs : Nat) :
    Option LadderOutcome := do
  match ← constantFold query dag with
  | some cf =>
    let attempts : List LadderAttempt :=
      [⟨.constantFold, "constant_fold", 0, 0, cf.status, cf.reason, false⟩]
    match cf.status with
    | .sat => return ⟨attempts, .constantFold, cf, false, totalMs⟩
    | .unsat => solveLoop query dag totalMs backends ⟨attempts, some (.constantFold, cf, 0), none⟩
    | _ => solveLoop query dag totalMs backends ⟨attempts, none, none⟩
  | none => solveLoop query dag totalMs backends ⟨[], none, none⟩

/-- Tier 1 unsliced, then the external solver on the slice. -/
def defaultForFeatures (elapsedMs : Nat) (z3External : SolveBranch) : List LadderBackend :=
  [⟨.pureFast, pureRustSolveBranch elapsedMs, false, 0⟩, ⟨.z3External, z3External, true, 10000000000⟩]

section Queries
variable {query effective : BranchQuery} {dag : ExprDag} {slice : Bool} {timeout n : Nat}

@[simp] theorem capTimeout_pathConstraints (q : BranchQuery) (t : Nat) :
    (q.capTimeout t).pathConstraints = q.pathConstraints := by
  unfold BranchQuery.capTimeout
  split <;> rfl

@[simp] theorem capTimeout_targetBranch (q : BranchQuery) (t : Nat) :
    (q.capTimeout t).targetBranch = q.targetBranch := by
  unfold BranchQuery.capTimeout
  split <;> rfl

@[simp] theorem capTimeout_wantTaken (q : BranchQuery) (t : Nat) :
    (q.capTimeout t).wantTaken = q.wantTaken := by
  unfold BranchQuery.capTimeout
  split <;> rfl

@[simp] theorem capTimeout_inputBytes (q : BranchQuery) (t : Nat) :
    (q.capTimeout t).inputBytes = q.inputBytes := by
  unfold BranchQuery.capTimeout
  split <;> rfl

theorem slice_subset {pathConstraints : List NodeId} {target : NodeId} {S : ConstraintSlice}
    (h : backwardSlice dag pathConstraints target = some S) : S.constraints ⊆ pathConstraints := by
  obtain ⟨s, -, -, hcs, -⟩ := backwardSlice_sweeps h
  intro c hc
  rw [hcs, mem_destutter_ne] at hc
  exact List.mem_of_mem_filter hc

/-- What a tier is handed is the query on a part of its path constraints. -/
theorem effectiveQuery_spec (h : effectiveQuery slice timeout query dag = some (effective, n)) :
    effective.pathConstraints ⊆ query.pathConstraints ∧
      effective.targetBranch = query.targetBranch ∧ effective.wantTaken = query.wantTaken ∧
      effective.inputBytes = query.inputBytes := by
  unfold effectiveQuery at h
  split at h
  · obtain ⟨S, hS, h⟩ := Option.bind_eq_some_iff.mp h
    cases Option.some.inj h
    simpa using slice_subset hS
  · cases Option.some.inj h
    simp

/-- An assignment that solves the query solves what a tier is handed. -/
theorem holds_effective (h : effectiveQuery slice timeout query dag = some (effective, n))
    {σ : Assignment SymbolId} (hσ : query.Holds dag σ) : effective.Holds dag σ := by
  obtain ⟨hsub, ht, hw, -⟩ := effectiveQuery_spec h
  refine ⟨fun p hp => hσ.1 p (hsub hp), ?_⟩
  rw [ht, hw]
  exact hσ.2

end Queries

section Turns
variable {b : LadderBackend} {query : BranchQuery} {dag : ExprDag} {totalMs : Nat}
  {p p' : Progress} {outcome : LadderOutcome}

/-- A turn logs one attempt. On `Sat` it ends the run; otherwise the report becomes
the last one, and the best authoritative one if it is authoritative. -/
theorem turn_cases {r : LadderOutcome ⊕ Progress} (h : b.turn query dag totalMs p = some r) :
    ∃ effective n report, effectiveQuery b.slice b.timeout query dag = some (effective, n) ∧
      b.solveBranch effective dag = some report ∧
      ((report.status = .sat ∧
          r = .inl ⟨p.attempts ++ [b.attempt n report], b.tier, report, false, totalMs⟩) ∨
        (report.status ≠ .sat ∧ r = .inr ⟨p.attempts ++ [b.attempt n report],
          some (b.tier, report, n),
          if b.authoritative report then some (b.tier, report, n) else p.bestAuthoritative⟩)) := by
  obtain ⟨⟨effective, n⟩, he, h⟩ := Option.bind_eq_some_iff.mp h
  obtain ⟨report, hr, h⟩ := Option.bind_eq_some_iff.mp h
  refine ⟨effective, n, report, he, hr, ?_⟩
  have hauth : report.status ≠ .unsat → b.authoritative report = false := by
    intro hs
    simp [LadderBackend.authoritative, SolveReport.isAuthoritativeUnreachable, hs]
  cases hs : report.status with
  | sat =>
    rw [hs] at h
    exact .inl ⟨rfl, (Option.some.inj h).symm⟩
  | unsat =>
    rw [hs] at h
    refine .inr ⟨by simp, ?_⟩
    cases ha : b.authoritative report <;> simp only [ha] at h <;> exact (Option.some.inj h).symm
  | _ =>
    rw [hs] at h
    rw [hauth (by simp [hs])]
    exact .inr ⟨by simp, (Option.some.inj h).symm⟩

/-- An authoritative `Unsat` of one of the two tiers that may label a branch. -/
structure LadderAttempt.AuthoritativeUnsat (a : LadderAttempt) : Prop where
  marked : a.isAuthoritativeUnreachable = true
  unsat : a.status = .unsat
  tier : a.tier = .z3SlicedAssumptions ∨ a.tier = .z3External

theorem attempt_authoritative_iff {n : Nat} {report : SolveReport} :
    (b.attempt n report).AuthoritativeUnsat ↔ b.authoritative report = true := by
  refine ⟨fun h => h.marked, fun h => ⟨h, ?_, ?_⟩⟩
  all_goals
    simp only [LadderBackend.authoritative, SolveTier.canAuthoritativelyUnreachable,
      SolveReport.isAuthoritativeUnreachable, Bool.and_eq_true, Bool.or_eq_true,
      decide_eq_true_eq] at h
  · exact h.2.1.1
  · exact h.1

/-- A backend of an authoritative tier is right when it says that no assignment
solves the query it is handed. -/
def LadderBackend.RightAbout (b : LadderBackend) (query : BranchQuery) (dag : ExprDag) : Prop :=
  b.tier = .z3SlicedAssumptions ∨ b.tier = .z3External →
    ∀ effective n report, effectiveQuery b.slice b.timeout query dag = some (effective, n) →
      b.solveBranch effective dag = some report → report.isAuthoritativeUnreachable = true →
      ∀ σ, ¬ effective.Holds dag σ

/-- What the log and the best authoritative report say of each other. -/
structure Progress.Sound (p : Progress) (query : BranchQuery) (dag : ExprDag) : Prop where
  noSat : ∀ a ∈ p.attempts, a.status ≠ .sat
  best_iff : p.bestAuthoritative.isSome = true ↔ ∃ a ∈ p.attempts, a.AuthoritativeUnsat
  unsolvable : p.bestAuthoritative.isSome = true → ∀ σ, ¬ query.Holds dag σ

/-- The same of an outcome. -/
structure LadderOutcome.Sound (o : LadderOutcome) (query : BranchQuery) (dag : ExprDag) : Prop where
  marked_iff : o.branchMarkedUnreachable = true ↔
    (∃ a ∈ o.attempts, a.AuthoritativeUnsat) ∧ ∀ a ∈ o.attempts, a.status ≠ .sat
  unsolvable : o.branchMarkedUnreachable = true → ∀ σ, ¬ query.Holds dag σ

theorem Progress.Sound.finish (h : p.Sound query dag) (totalMs : Nat) :
    (p.finish totalMs).Sound query dag := by
  obtain ⟨attempts, last, best⟩ := p
  have hattempts : (Progress.finish ⟨attempts, last, best⟩ totalMs).attempts = attempts := by
    unfold Progress.finish
    split <;> rfl
  have hmarked : (Progress.finish ⟨attempts, last, best⟩ totalMs).branchMarkedUnreachable =
      best.isSome := by
    cases best <;> cases last <;> rfl
  refine ⟨?_, fun hm => h.unsolvable (hmarked ▸ hm)⟩
  rw [hmarked, hattempts]
  exact ⟨fun hb => ⟨h.best_iff.mp hb, h.noSat⟩, fun hm => h.best_iff.mpr hm.1⟩

/-- One turn keeps the log sound. -/
theorem turn_sound (hb : b.RightAbout query dag) (hp : p.Sound query dag)
    {r : LadderOutcome ⊕ Progress} (h : b.turn query dag totalMs p = some r) :
    (∀ o, r = .inl o → o.Sound query dag) ∧ (∀ p', r = .inr p' → p'.Sound query dag) := by
  obtain ⟨effective, n, report, he, hr, ⟨hs, rfl⟩ | ⟨hs, rfl⟩⟩ := turn_cases h
  · refine ⟨?_, by simp⟩
    rintro o ⟨⟩
    refine ⟨?_, by simp⟩
    simp [LadderBackend.attempt, hs]
  · refine ⟨by simp, ?_⟩
    rintro p' ⟨⟩
    cases ha : b.authoritative report with
    | true =>
      have hattempt := attempt_authoritative_iff (n := n).mpr ha
      refine ⟨?_, ⟨fun _ => ⟨_, by simp, hattempt⟩, fun _ => rfl⟩, fun _ σ hσ => ?_⟩
      · simpa [or_imp, forall_and, LadderBackend.attempt, hs] using hp.noSat
      · have hauth : report.isAuthoritativeUnreachable = true := by
          simp only [LadderBackend.authoritative, Bool.and_eq_true] at ha
          exact ha.2
        exact hb hattempt.tier effective n report he hr hauth σ (holds_effective he hσ)
    | false =>
      have hattempt : ¬ (b.attempt n report).AuthoritativeUnsat := by
        rw [attempt_authoritative_iff, ha]
        simp
      refine ⟨?_, ?_, hp.unsolvable⟩
      · simpa [or_imp, forall_and, LadderBackend.attempt, hs] using hp.noSat
      · simpa [or_and_right, exists_or, hattempt] using hp.best_iff

/-- A whole run keeps it. -/
theorem solveLoop_sound {backends : List LadderBackend} (hb : ∀ b ∈ backends, b.RightAbout query dag)
    (hp : p.Sound query dag) (h : solveLoop query dag totalMs backends p = some outcome) :
    outcome.Sound query dag := by
  induction backends generalizing p with
  | nil =>
    cases Option.some.inj h
    exact hp.finish totalMs
  | cons b backends ih =>
    obtain ⟨r, hr, h⟩ := Option.bind_eq_some_iff.mp h
    obtain ⟨hl, hrest⟩ := turn_sound (hb b (by simp)) hp hr
    cases r with
    | inl o =>
      cases Option.some.inj h
      exact hl _ rfl
    | inr p' => exact ih (fun c hc => hb c (by simp [hc])) (hrest p' rfl) h

theorem Progress.Sound.start {a : List LadderAttempt} (last : Option (SolveTier × SolveReport × Nat))
    (h : ∀ x ∈ a, x.status ≠ .sat ∧ ¬ x.AuthoritativeUnsat) :
    Progress.Sound ⟨a, last, none⟩ query dag :=
  ⟨fun x hx => (h x hx).1, by simpa using fun x hx => (h x hx).2, by simp⟩

theorem solve_sound {backends : List LadderBackend} (hb : ∀ b ∈ backends, b.RightAbout query dag)
    (h : solve backends query dag totalMs = some outcome) : outcome.Sound query dag := by
  obtain ⟨cf, -, h⟩ := Option.bind_eq_some_iff.mp h
  cases cf with
  | none => exact solveLoop_sound hb (.start none (by simp)) h
  | some cf =>
    have hlogged : ¬ LadderAttempt.AuthoritativeUnsat
        ⟨.constantFold, "constant_fold", 0, 0, cf.status, cf.reason, false⟩ :=
      fun h => nomatch h.marked
    cases hs : cf.status with
    | sat =>
      simp only [hs] at h
      cases Option.some.inj h
      exact ⟨by simp, by simp⟩
    | _ =>
      simp only [hs] at h hlogged
      exact solveLoop_sound hb (.start _ (by simp [hlogged])) h

/-- A branch is labelled unreachable only if no assignment solves the query, on an
authoritative `Unsat` and no `Sat` in the log; and it is labelled whenever the log
has the one without the other. -/
theorem solve_unreachable_sound {backends : List LadderBackend}
    (hb : ∀ b ∈ backends, b.RightAbout query dag)
    (h : solve backends query dag totalMs = some outcome) :
    (outcome.branchMarkedUnreachable = true →
      (∀ σ, ¬ query.Holds dag σ) ∧ (∃ a ∈ outcome.attempts, a.AuthoritativeUnsat) ∧
        ∀ a ∈ outcome.attempts, a.status ≠ .sat) ∧
    ((∃ a ∈ outcome.attempts, a.AuthoritativeUnsat) →
      (∀ a ∈ outcome.attempts, a.status ≠ .sat) → outcome.branchMarkedUnreachable = true) := by
  have hsound := solve_sound hb h
  refine ⟨fun hm => ?_, fun ha hn => hsound.marked_iff.mpr ⟨ha, hn⟩⟩
  obtain ⟨ha, hn⟩ := hsound.marked_iff.mp hm
  exact ⟨hsound.unsolvable hm, ha, hn⟩

/-- `input_b0 = 0` on the path and `input_b0 = 1` as the target. -/
def clashing : ExprDag :=
  let symbol := (ExprDag.new.internSymbol "input_b0").2
  let byte := (symbol.intern (.var 0 (.bv 8))).2
  let zero := (byte.intern (.bvConst 0 8)).2
  let one := (zero.intern (.bvConst 1 8)).2
  let eqZero := (one.intern (.eq 0 1)).2
  (eqZero.intern (.eq 0 2)).2

def clashingQuery : BranchQuery := ⟨1, [3], 4, true, 0, none⟩

/-- A solver that refutes whatever it is handed, with a core. -/
def refuter : SolveBranch := fun _ _ => some ⟨.unsat, 0, none, "", none, [3, 4], true, "z3"⟩

theorem clashing_unsolvable (σ : Assignment SymbolId) {q : BranchQuery}
    (hp : q.pathConstraints = [3]) (ht : q.targetBranch = 4) (hw : q.wantTaken = true) :
    ¬ q.Holds clashing σ := by
  rintro ⟨h0, h1⟩
  rw [ht, hw] at h1
  have e0 : clashing.Evaluates σ 3 (.bool (σ 0 (.bv 8) == 0#8)) := ⟨3, rfl⟩
  have e1 : clashing.Evaluates σ 4 (.bool (σ 0 (.bv 8) == 1#8)) := ⟨3, rfl⟩
  have h0 := e0.unique (h0 3 (by simp [hp]))
  have h1 := e1.unique h1
  simp only [Smt.Value.bool.injEq, beq_iff_eq] at h0 h1
  exact absurd (h0.symm.trans h1) (by decide)

theorem clashing_effective : effectiveQuery true 10000000000 clashingQuery clashing =
    some (⟨1, [3], 4, true, 10000000000, none⟩, 1) := by decide

theorem solve_unreachable_sound_clashing :
    ∃ outcome, solve [⟨.z3External, refuter, true, 10000000000⟩] clashingQuery clashing 0 =
        some outcome ∧
      outcome.branchMarkedUnreachable = true ∧
      ((outcome.branchMarkedUnreachable = true →
        (∀ σ, ¬ clashingQuery.Holds clashing σ) ∧
          (∃ a ∈ outcome.attempts, a.AuthoritativeUnsat) ∧
          ∀ a ∈ outcome.attempts, a.status ≠ .sat) ∧
      ((∃ a ∈ outcome.attempts, a.AuthoritativeUnsat) →
        (∀ a ∈ outcome.attempts, a.status ≠ .sat) →
          outcome.branchMarkedUnreachable = true)) := by
  have hrun : (solve [⟨.z3External, refuter, true, 10000000000⟩] clashingQuery clashing 0).any
      (·.branchMarkedUnreachable) = true := by decide
  rw [Option.any_eq_true] at hrun
  obtain ⟨outcome, h, hm⟩ := hrun
  refine ⟨outcome, h, hm, solve_unreachable_sound (fun b hb _ => ?_) h⟩
  cases List.mem_singleton.mp hb
  intro effective n report he _ _ σ
  cases clashing_effective.symm.trans he
  exact clashing_unsolvable σ rfl rfl rfl

end Turns

end Axe.Concolic
