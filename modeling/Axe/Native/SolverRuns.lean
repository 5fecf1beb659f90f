import Axe.Native.Solver

/-!
# The solver against the emulator

Between a compare and its jump the recorded operands and the flags stay, unless an
instruction writes the flags. The emulator lets `not` and `bswap` write them as well.
-/
namespace Axe.Native

section Quiet
variable {row : InstructionRecord} {s : NativeState}

/-- What a branch is decided from. -/
def NativeState.decision (s : NativeState) : Option LastCompare × Bool × Bool × Bool × Bool :=
  (s.lastCompare, s.flagsZf, s.flagsSf, s.flagsCf, s.flagsOf)

/-- The instructions that write a flag of the emulator. -/
def writesFlags (row : InstructionRecord) : Bool :=
  let mnemonic := lowercase row.mnemonic
  let operands := splitOperands row.opStr
  let toRegister := (operands.head?.bind fun op => registerName (normalizeOperand op)).isSome
  if mnemonic ∈ binaryMnemonics then toRegister && decide (2 ≤ operands.length)
  else if mnemonic ∈ unaryMnemonics then toRegister
  else decide (mnemonic = "cmp" ∨ mnemonic = "test") && decide (2 ≤ operands.length)

theorem emulateMov_decision (operands : List (List Char)) :
    (emulateMov operands s).2.decision = s.decision := by
  unfold emulateMov
  split
  · dsimp only
    split
    · split <;> rfl
    · split
      · split <;> rfl
      · rfl
  · rfl

theorem emulateLea_decision (operands : List (List Char)) :
    (emulateLea operands s).2.decision = s.decision := by
  unfold emulateLea
  split
  · split
    · split <;> rfl
    · rfl
  · rfl

theorem emulateSet_decision (mnemonic : String) (operand : List Char) :
    (emulateSet mnemonic operand s).2.decision = s.decision := by
  unfold emulateSet
  split <;> rfl

theorem emulateBinary_decision {mnemonic : String} {operands : List (List Char)}
    (h : ((operands.head?.bind fun op => registerName (normalizeOperand op)).isSome &&
      decide (2 ≤ operands.length)) = false) :
    (emulateBinary mnemonic operands s).2.decision = s.decision := by
  unfold emulateBinary
  split
  · rename_i op₀ op₁ rest
    dsimp only
    split
    · rename_i reg hreg
      simp [hreg] at h
    · rfl
  · rfl

theorem emulateUnary_decision {mnemonic : String} {operands : List (List Char)}
    (h : (operands.head?.bind fun op => registerName (normalizeOperand op)).isSome = false) :
    (emulateUnary mnemonic operands s).2.decision = s.decision := by
  unfold emulateUnary
  split
  · split
    · rename_i reg hreg
      simp [hreg] at h
    · rfl
  · rfl

theorem emulateCompare_decision {isTest : Bool} {operands : List (List Char)}
    (h : ¬2 ≤ operands.length) :
    (emulateCompare isTest operands s).2.decision = s.decision := by
  unfold emulateCompare
  split
  · exact absurd (by simp) h
  · rfl

/-- An instruction that writes no flag leaves what the next branch is decided from. -/
theorem emulateInstruction_decision (hw : writesFlags row = false) :
    (emulateInstruction row s).2.decision = s.decision := by
  unfold writesFlags at hw
  unfold emulateInstruction
  dsimp only at hw ⊢
  split
  · exact emulateMov_decision _
  split
  · exact emulateLea_decision _
  split
  · rename_i hbin
    rw [if_pos hbin] at hw
    exact emulateBinary_decision hw
  rename_i hbin
  rw [if_neg hbin] at hw
  split
  · rename_i hun
    rw [if_pos hun] at hw
    exact emulateUnary_decision hw
  rename_i hun
  rw [if_neg hun] at hw
  split
  · rename_i hcmp
    rw [decide_eq_true hcmp, Bool.true_and, decide_eq_false_iff_not] at hw
    exact emulateCompare_decision hw
  split
  · rfl
  split
  · rfl
  split
  · split
    · exact emulateMov_decision _
    · rfl
  split
  · exact emulateSet_decision _ _
  split <;> rfl

theorem applyApiReturnHeuristic_decision (prototype : String → Option String) (api : String) :
    (applyApiReturnHeuristic prototype api s).decision = s.decision := by
  unfold applyApiReturnHeuristic
  split <;> rfl

theorem after_decision (p : Program) (hw : writesFlags row = false) :
    (p.after row s).decision = s.decision := by
  have hstep := emulateInstruction_decision (s := s) hw
  unfold Program.after
  split
  · rename_i api s' h
    rw [h] at hstep
    rw [applyApiReturnHeuristic_decision, hstep]
  · rename_i s' _ h
    rw [h] at hstep
    exact hstep

end Quiet

section Runs
variable {p : Program} {row : InstructionRecord} {s s₀ : NativeState}

theorem emulateFunction_loop {instructions : List InstructionRecord} {start stop cap : Nat}
    {prototype : String → Option String} {initialRegs : String → Option Word} {e : Emulation}
    (h : emulateFunction instructions start stop prototype initialRegs cap = some e) :
    ∃ (p : Program) (pc : Nat) (s : NativeState), e = p.loop cap pc s [] := by
  unfold emulateFunction at h
  dsimp only at h
  split at h
  · cases h
  · obtain ⟨-, h⟩ := Option.ite_none_left_eq_some.mp h
    exact ⟨_, _, _, (Option.some.inj h).symm⟩

/-- Each visited instruction meets the state that the one before it left. -/
def Linked (p : Program) : NativeState → List (InstructionRecord × NativeState) → Prop
  | _, [] => True
  | s, (row, s') :: rest => s' = s ∧ Linked p (p.after row s) rest

theorem loop_linked (budget pc : Nat) (s : NativeState) (edges : List (Nat × Nat)) :
    Linked p s (p.loop budget pc s edges).visited := by
  induction budget generalizing pc s edges with
  | zero =>
    unfold Program.loop
    split <;> trivial
  | succ budget ih =>
    unfold Program.loop
    split
    · trivial
    · refine ⟨rfl, ?_⟩
      split
      · trivial
      · split
        · trivial
        · exact ih _ _ _

theorem Linked.suffix {before rest : List (InstructionRecord × NativeState)}
    (h : Linked p s (before ++ (row, s₀) :: rest)) : Linked p (p.after row s₀) rest := by
  induction before generalizing s with
  | nil =>
    obtain ⟨rfl, h⟩ := h
    exact h
  | cons x before ih => exact ih h.2

/-- Instructions that write no flag leave what the next branch is decided from. -/
theorem Linked.quiet {between rest : List (InstructionRecord × NativeState)}
    (h : Linked p s (between ++ (row, s₀) :: rest))
    (hquiet : ∀ x ∈ between, writesFlags x.1 = false) : s₀.decision = s.decision := by
  induction between generalizing s with
  | nil => rw [h.1]
  | cons x between ih =>
    rw [ih h.2 fun y hy => hquiet y (List.mem_cons_of_mem _ hy),
      after_decision p (hquiet x List.mem_cons_self)]

theorem visit_predicates {predicate : BranchPredicate} {e : Emulation}
    (h : predicate ∈ e.predicates) : predicate ∈ (Program.visit row s e).predicates := by
  unfold Program.visit
  dsimp only
  split
  · exact List.mem_cons_of_mem _ h
  · exact h

theorem visit_predicate {predicate : BranchPredicate} {e : Emulation}
    (h : (emulateInstruction row s).1 = .branch predicate) :
    predicate ∈ (Program.visit row s e).predicates := by
  unfold Program.visit
  rw [h]
  exact List.mem_cons_self

/-- The predicates are those of the branches that were visited. -/
theorem loop_predicates {predicate : BranchPredicate} (budget pc : Nat) (s : NativeState)
    (edges : List (Nat × Nat)) (hmem : (row, s₀) ∈ (p.loop budget pc s edges).visited)
    (hbranch : (emulateInstruction row s₀).1 = .branch predicate) :
    predicate ∈ (p.loop budget pc s edges).predicates := by
  induction budget generalizing pc s edges with
  | zero =>
    unfold Program.loop at hmem
    split at hmem <;> exact absurd hmem List.not_mem_nil
  | succ budget ih =>
    unfold Program.loop at hmem ⊢
    split
    · rename_i h
      simp [h] at hmem
    · rename_i row' h
      simp only [h] at hmem
      rcases List.mem_cons.mp hmem with hhead | hmem
      · obtain ⟨rfl, rfl⟩ := Prod.mk.inj hhead
        exact visit_predicate hbranch
      · refine visit_predicates ?_
        cases hnext : p.nextPc row' s edges with
        | none =>
          rw [hnext] at hmem
          exact absurd hmem List.not_mem_nil
        | some next =>
          rw [hnext] at hmem
          dsimp only at hmem ⊢
          split at hmem
          · exact absurd hmem List.not_mem_nil
          · rename_i hstop
            rw [if_neg hstop]
            exact ih _ _ _ hmem

section Branch
variable {predicate : BranchPredicate} {mnemonic : String} {operands : List (List Char)}

theorem emulateMov_not_branch : (emulateMov operands s).1 ≠ .branch predicate := by
  unfold emulateMov
  dsimp only
  repeat' split
  all_goals exact nofun

theorem emulateLea_not_branch : (emulateLea operands s).1 ≠ .branch predicate := by
  unfold emulateLea
  repeat' split
  all_goals exact nofun

theorem emulateBinary_not_branch : (emulateBinary mnemonic operands s).1 ≠ .branch predicate := by
  unfold emulateBinary
  dsimp only
  repeat' split
  all_goals exact nofun

theorem emulateUnary_not_branch : (emulateUnary mnemonic operands s).1 ≠ .branch predicate := by
  unfold emulateUnary
  repeat' split
  all_goals exact nofun

theorem emulateCompare_not_branch {isTest : Bool} :
    (emulateCompare isTest operands s).1 ≠ .branch predicate := by
  unfold emulateCompare
  dsimp only
  repeat' split
  all_goals exact nofun

theorem emulateSet_not_branch {operand : List Char} :
    (emulateSet mnemonic operand s).1 ≠ .branch predicate := by
  unfold emulateSet
  split <;> exact nofun

end Branch

/-- The predicate of a branch is read off the last compare. -/
theorem branch_outcome {predicate : BranchPredicate}
    (h : (emulateInstruction row s).1 = .branch predicate) :
    predicate = s.branchPredicate row.address (lowercase row.mnemonic) ∧
      startsWith "j".toList (lowercase row.mnemonic).toList = true := by
  unfold emulateInstruction at h
  dsimp only at h
  split at h
  · exact absurd h emulateMov_not_branch
  split at h
  · exact absurd h emulateLea_not_branch
  split at h
  · exact absurd h emulateBinary_not_branch
  split at h
  · exact absurd h emulateUnary_not_branch
  split at h
  · exact absurd h emulateCompare_not_branch
  split at h
  · cases h
  split at h
  · cases h
  split at h
  · split at h
    · exact absurd h emulateMov_not_branch
    · cases h
  split at h
  · exact absurd h emulateSet_not_branch
  split at h
  · rename_i hj
    exact ⟨(StepOutcome.branch.inj h).symm, hj.1⟩
  · cases h

end Runs

section Compared
variable {cmp : InstructionRecord} {s s₀ : NativeState} {isTest : Bool} {op₀ op₁ : List Char}
variable {l r : Word} {predicate : BranchPredicate} {rel : Relation}

theorem normalizeOperand_ne_unknown {op : List Char} (hv : valueOf op s = some l) :
    normalizeOperand op ≠ "unknown".toList := by
  intro h
  have hnone : valueOf op s = none := by
    unfold valueOf
    rw [h]
    rfl
  exact Option.some_ne_none l (hv.symm.trans hnone)

/-- The state that a compare of two known values leaves. -/
theorem after_compare (p : Program) {rest : List (List Char)}
    (hcmp : lowercase cmp.mnemonic = if isTest then "test" else "cmp")
    (hops : splitOperands cmp.opStr = op₀ :: op₁ :: rest)
    (hl : valueOf op₀ s₀ = some l) (hr : valueOf op₁ s₀ = some r) :
    p.after cmp s₀ = { s₀ with
      lastCompare := some ⟨normalizeOperand op₀, normalizeOperand op₁, some l, some r⟩ }.compare
        isTest l r := by
  have hstep : emulateInstruction cmp s₀ = emulateCompare isTest (op₀ :: op₁ :: rest) s₀ := by
    unfold emulateInstruction
    rw [hcmp, hops]
    cases isTest with
    | false =>
      dsimp only [Bool.false_eq_true, if_false]
      rw [if_neg (by decide), if_neg (by decide), if_neg (by decide), if_neg (by decide),
        if_pos (by decide)]
      rfl
    | true =>
      dsimp only [if_true]
      rw [if_neg (by decide), if_neg (by decide), if_neg (by decide), if_neg (by decide),
        if_pos (by decide)]
      rfl
  rw [Program.after, hstep, emulateCompare, hl, hr]

theorem Orders.of_decision {a b : Word} (h : s.decision = s₀.decision) (ho : s₀.Orders a b) :
    s.Orders a b := by
  simp only [NativeState.decision, Prod.mk.injEq] at h
  obtain ⟨-, hz, hs, hc, hof⟩ := h
  exact ⟨hz ▸ ho.zf, hc ▸ ho.cf, hs ▸ hof ▸ ho.sf⟩

theorem compare_orders (s : NativeState) (isTest : Bool) (l r : Word) :
    (s.compare isTest l r).Orders (if isTest then l &&& r else l) (if isTest then 0 else r) := by
  cases isTest with
  | false => exact compare_cmp
  | true => exact compare_test

/-- With both values recorded, the solver compares them. -/
theorem solvePredicate_known (hrel : relationForBranch predicate.mnemonic = some rel)
    (hl : predicate.leftValue = some l) (hr : predicate.rightValue = some r)
    (hleft : predicate.left ≠ "unknown".toList) (hright : predicate.right ≠ "unknown".toList) :
    (solvePredicate predicate).satisfiability = .satisfiable ↔ rel.holds l r = true := by
  have hknown : ∀ (v : Word) (o : Option Word), (some v <|> o) = some v := fun _ _ => rfl
  unfold solvePredicate
  simp only [hrel, hl, hr, hknown, hleft, hright, or_self, if_false]
  split
  · rename_i h
    exact iff_of_true rfl h
  · rename_i h
    exact iff_of_false nofun h

theorem branchIsSatisfied_compared (hj : startsWith "j".toList predicate.mnemonic.toList = true)
    (hrel : relationForBranch predicate.mnemonic = some rel) (hc : s.lastCompare.isSome = true) :
    branchIsSatisfied predicate s = conditionalHolds (dropText 1 predicate.mnemonic) s := by
  have hjmp : predicate.mnemonic ≠ "jmp" := by
    intro h
    rw [h] at hrel
    exact nomatch hrel
  rw [branchIsSatisfied, if_neg hjmp, if_pos hc, if_pos hj]

/-- A jump of a run that comes after a compare of two known values, with no flag written
in between. -/
def ComparedJump (e : Emulation) (isTest : Bool) (l r : Word) (jump : InstructionRecord)
    (s : NativeState) : Prop :=
  ∃ before between later cmp s₀ op₀ op₁ rest,
    e.visited = before ++ (cmp, s₀) :: (between ++ (jump, s) :: later) ∧
      lowercase cmp.mnemonic = (if isTest then "test" else "cmp") ∧
      splitOperands cmp.opStr = op₀ :: op₁ :: rest ∧
      valueOf op₀ s₀ = some l ∧ valueOf op₁ s₀ = some r ∧
      ∀ x ∈ between, writesFlags x.1 = false

end Compared

/-- The solver calls the predicate of a jump satisfiable just when the emulator takes the jump,
if and only if the recorded values compare as the condition code reads the flags. -/
theorem solver_agrees_iff {instructions : List InstructionRecord} {start stop cap : Nat}
    {prototype : String → Option String} {initialRegs : String → Option Word} {e : Emulation}
    {isTest : Bool} {l r : Word} {jump : InstructionRecord} {s : NativeState}
    {predicate : BranchPredicate} {rel : Relation}
    (hrun : emulateFunction instructions start stop prototype initialRegs cap = some e)
    (hjump : ComparedJump e isTest l r jump s)
    (hbranch : (emulateInstruction jump s).1 = .branch predicate)
    (hrel : relationForBranch predicate.mnemonic = some rel) :
    predicate ∈ e.predicates ∧
      (((solvePredicate predicate).satisfiability = .satisfiable ↔
          branchIsSatisfied predicate s = true) ↔
        Agrees isTest predicate.mnemonic rel l r) := by
  obtain ⟨before, between, later, cmp, s₀, op₀, op₁, rest, hvisited, hcmp, hops, hl, hr, hquiet⟩ :=
    hjump
  obtain ⟨p, pc, s₁, rfl⟩ := emulateFunction_loop hrun
  have hlinked := loop_linked (p := p) cap pc s₁ []
  have hmem : (jump, s) ∈ (p.loop cap pc s₁ []).visited := by
    rw [hvisited]
    simp
  refine ⟨loop_predicates cap pc s₁ [] hmem hbranch, ?_⟩
  rw [hvisited] at hlinked
  have hafter := after_compare p hcmp hops hl hr
  have hdecision := hlinked.suffix.quiet hquiet
  rw [hafter] at hdecision
  have horders := Orders.of_decision hdecision (compare_orders _ isTest l r)
  have hlast : s.lastCompare =
      some ⟨normalizeOperand op₀, normalizeOperand op₁, some l, some r⟩ :=
    congrArg Prod.fst hdecision
  obtain ⟨hpred, hj⟩ := branch_outcome hbranch
  simp only [NativeState.branchPredicate, hlast] at hpred
  have hmnemonic : predicate.mnemonic = lowercase jump.mnemonic := by rw [hpred]
  rw [← hmnemonic] at hj
  have hleft : predicate.left = normalizeOperand op₀ := by rw [hpred]
  have hright : predicate.right = normalizeOperand op₁ := by rw [hpred]
  have hsat := branchIsSatisfied_compared hj hrel (Option.isSome_of_eq_some hlast)
  have hsolved := solvePredicate_known hrel (congrArg BranchPredicate.leftValue hpred)
    (congrArg BranchPredicate.rightValue hpred) (hleft ▸ normalizeOperand_ne_unknown hl)
    (hright ▸ normalizeOperand_ne_unknown hr)
  rw [hsat, hsolved, horders.conditionalHolds hrel, ← holds_eq_decided_iff isTest hrel]
  exact Bool.eq_iff_iff.symm

section Examples

/-- A jump on the compare of a number with one. -/
def compareWithOne (value jump : String) : List InstructionRecord :=
  [⟨0x1000, "mov", "rax, " ++ value, false, none⟩,
    ⟨0x1007, "cmp", "rax, 1", false, none⟩,
    ⟨0x100B, jump, "0x1020", false, some 0x1020⟩,
    ⟨0x100D, "ret", "", true, none⟩]

def emulateCompareWithOne (value jump : String) : Option Emulation :=
  emulateFunction (compareWithOne value jump) 0x1000 0x1010 (fun _ => none) (fun _ => none) 8

/-- The emulator takes a `jl` on `-1` and one, which the solver calls unsatisfiable. -/
theorem jl_unsatisfiable_and_taken :
    ∃ e jump s predicate, emulateCompareWithOne "0xffffffffffffffff" "jl" = some e ∧
      ComparedJump e false 0xffffffffffffffff 1 jump s ∧
      (emulateInstruction jump s).1 = .branch predicate ∧ predicate ∈ e.predicates ∧
      relationForBranch predicate.mnemonic = some .lt ∧
      (solvePredicate predicate).satisfiability = .unsatisfiable ∧
      branchIsSatisfied predicate s = true := by
  refine ⟨_, _, _,
    ⟨0x100B, "jl", "rax".toList, "1".toList, some 0xffffffffffffffff, some 1⟩, rfl,
    ⟨[_], [], _, _, _, "rax".toList, "1".toList, [], rfl, rfl, rfl, rfl, rfl,
      List.forall_mem_nil _⟩, rfl, ?_⟩
  decide +kernel

theorem jg_agrees :
    ∃ e jump s predicate, emulateCompareWithOne "5" "jg" = some e ∧ predicate ∈ e.predicates ∧
      (emulateInstruction jump s).1 = .branch predicate ∧
      ((solvePredicate predicate).satisfiability = .satisfiable ↔
        branchIsSatisfied predicate s = true) := by
  obtain ⟨e, s, hrun, hjump, hbranch⟩ : ∃ e s, emulateCompareWithOne "5" "jg" = some e ∧
      ComparedJump e false 5 1 ⟨0x100B, "jg", "0x1020", false, some 0x1020⟩ s ∧
      (emulateInstruction ⟨0x100B, "jg", "0x1020", false, some 0x1020⟩ s).1 =
        .branch ⟨0x100B, "jg", "rax".toList, "1".toList, some 5, some 1⟩ := by
    refine ⟨_, _, rfl, ⟨[_], [], _, _, _, "rax".toList, "1".toList, [], rfl, rfl, rfl, rfl, rfl,
      List.forall_mem_nil _⟩, ?_⟩
    rfl
  have hagrees : Agrees false "jg" .gt 5 1 := fun _ => by decide
  obtain ⟨hmem, hiff⟩ := solver_agrees_iff hrun hjump hbranch rfl
  exact ⟨e, _, s, _, hrun, hmem, hbranch, hiff.mpr hagrees⟩

end Examples

end Axe.Native
