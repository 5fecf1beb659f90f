import Axe.Lib.Loops
import Axe.Static.Lifting

/-!
# Switches written as chains of comparisons

A chain is a run of adjacent pairs of a comparison with an immediate and a jump on equality. The
pairs belong together when their comparisons read the same register first, which a comparison of
memory does with its base.
-/
namespace Axe.Static.Switches

structure SwitchCase where
  value : Int
  targetVa : Nat
  deriving DecidableEq

inductive Expr
  | reg (name : String)
  | mem (base index : Option String) (scale : Nat) (disp : Int) (width : Nat)
  | unknown
  deriving DecidableEq

inductive SwitchLowering
  | msvcAbsoluteTable (tableVa : Nat)
  | msvcRvaTable (tableVa imageBase : Nat)
  | picOffsetTable (tableVa : Nat)
  | compareTree (compares : List SwitchCase)
  deriving DecidableEq

structure SwitchFact where
  functionVa : Nat
  indirectBranchVa : Nat
  indexExpr : Expr
  low : Option Int
  high : Option Int
  defaultTarget : Option Nat
  tableVa : Option Nat
  entrySize : Nat
  cases : List SwitchCase
  lowering : SwitchLowering
  /-- The addresses of the instructions that the fact rests on. -/
  evidence : List Nat
  deriving DecidableEq

def buildCompareTreeFact (functionVa anchorVa : Nat) (chainReg : String)
    (cases : List SwitchCase) : SwitchFact where
  functionVa := functionVa
  indirectBranchVa := anchorVa
  indexExpr := .reg chainReg
  low := none
  high := none
  defaultTarget := none
  tableVa := none
  entrySize := 0
  cases := cases
  lowering := .compareTree cases
  evidence := anchorVa :: cases.map SwitchCase.targetVa

def isCmpRegImm (ins : LiftedInstruction) : Bool :=
  ins.mnemonic = "cmp" && ins.immediate.isSome && !ins.readRegs.isEmpty

def isEqBranch (ins : LiftedInstruction) : Bool :=
  ["je", "jz"].contains ins.mnemonic && ins.directTarget.isSome

/-- The case of a pair, where the comparison has an immediate and the jump a target. -/
def switchCase (cmp branch : LiftedInstruction) : SwitchCase :=
  ⟨asI64 (cmp.immediate.getD 0), branch.directTarget.getD 0⟩

/-- The cases of the pairs that go on with a register. -/
def chainCases (chainReg : String) : List LiftedInstruction → List SwitchCase
  | cmp :: branch :: rest =>
    if isCmpRegImm cmp && cmp.readRegs.head? = some chainReg && isEqBranch branch then
      switchCase cmp branch :: chainCases chainReg rest
    else []
  | _ => []

section Scan
variable (functionVa : Nat) (slice : List LiftedInstruction)

/-- One round of the scan, with the index and the facts so far. -/
def detectTurn (s : Nat × List SwitchFact) : Loops.Turn (Nat × List SwitchFact) (List SwitchFact) :=
  match slice[s.1]?, slice[s.1 + 1]? with
  | some cmp, some branch =>
    if isCmpRegImm cmp && isEqBranch branch then
      let chainReg := cmp.readRegs.headD ""
      let cases := switchCase cmp branch :: chainCases chainReg (slice.drop (s.1 + 2))
      if 2 ≤ cases.length then
        .next (s.1 + 2 * cases.length,
          s.2 ++ [buildCompareTreeFact functionVa cmp.address chainReg cases])
      else .next (s.1 + 1, s.2)
    else .next (s.1 + 1, s.2)
  | _, _ => .ended s.2

def detectCompareTrees : Option (List SwitchFact) :=
  Loops.run (detectTurn functionVa slice) (slice.length + 1) (0, [])

end Scan

section Chains
variable {slice : List LiftedInstruction} {reg reg' : String} {p q j : Nat}

/-- A comparison that reads a register first, and a jump on equality behind it. -/
def PairAt (slice : List LiftedInstruction) (reg : String) (p : Nat) : Prop :=
  ∃ cmp branch, slice[p]? = some cmp ∧ slice[p + 1]? = some branch ∧ isCmpRegImm cmp = true ∧
    cmp.readRegs.head? = some reg ∧ isEqBranch branch = true

/-- The case of the pair at a position. -/
def caseAt (slice : List LiftedInstruction) (p : Nat) : SwitchCase :=
  ⟨asI64 ((slice[p]?.bind fun cmp => cmp.immediate).getD 0),
    (slice[p + 1]?.bind fun branch => branch.directTarget).getD 0⟩

theorem PairAt.reg_unique (h : PairAt slice reg p) (h' : PairAt slice reg' p) : reg = reg' := by
  obtain ⟨cmp, -, hcmp, -, -, hreg, -⟩ := h
  obtain ⟨cmp', -, hcmp', -, -, hreg', -⟩ := h'
  rw [hcmp] at hcmp'
  cases hcmp'
  rw [hreg] at hreg'
  exact Option.some.inj hreg'

/-- A pair does not start on the jump of another. -/
theorem PairAt.not_next (h : PairAt slice reg p) : ¬ PairAt slice reg' (p + 1) := by
  rintro ⟨cmp', -, hcmp', -, hname', -⟩
  obtain ⟨-, branch, -, hbranch, -, -, hname⟩ := h
  rw [hbranch] at hcmp'
  cases hcmp'
  simp only [isEqBranch, isCmpRegImm, Bool.and_eq_true, decide_eq_true_iff] at hname hname'
  rw [hname'.1.1] at hname
  exact absurd hname.1 (by decide)

theorem PairAt.lt_length (h : PairAt slice reg p) : p + 1 < slice.length := by
  obtain ⟨-, branch, -, hbranch, -⟩ := h
  exact (List.getElem?_eq_some_iff.mp hbranch).1

theorem pairAt_iff {cmp branch : LiftedInstruction} (hcmp : slice[p]? = some cmp)
    (hbranch : slice[p + 1]? = some branch) :
    PairAt slice reg p ↔
      isCmpRegImm cmp = true ∧ cmp.readRegs.head? = some reg ∧ isEqBranch branch = true := by
  constructor
  · rintro ⟨cmp', branch', hcmp', hbranch', h⟩
    rw [hcmp] at hcmp'
    rw [hbranch] at hbranch'
    cases hcmp'
    cases hbranch'
    exact h
  · exact fun h => ⟨cmp, branch, hcmp, hbranch, h⟩

theorem switchCase_eq {cmp branch : LiftedInstruction} (hcmp : slice[p]? = some cmp)
    (hbranch : slice[p + 1]? = some branch) : switchCase cmp branch = caseAt slice p := by
  rw [caseAt, hcmp, hbranch]
  rfl

/-- The cases of the pairs from a position on. -/
def casesFrom (slice : List LiftedInstruction) (j count : Nat) : List SwitchCase :=
  (List.range count).map fun m => caseAt slice (j + 2 * m)

theorem casesFrom_succ (slice : List LiftedInstruction) (j count : Nat) :
    casesFrom slice j (count + 1) = caseAt slice j :: casesFrom slice (j + 2) count := by
  rw [casesFrom, List.range_succ_eq_map, List.map_cons, List.map_map, casesFrom]
  refine congrArg _ (List.map_congr_left fun m _ => ?_)
  simp only [Function.comp_apply]
  congr 1
  omega

/-- Pairs with a register from a position on, up to where there is none. -/
structure PairsFrom (slice : List LiftedInstruction) (reg : String) (j count : Nat) : Prop where
  pair : ∀ m < count, PairAt slice reg (j + 2 * m)
  last : ¬ PairAt slice reg (j + 2 * count)

theorem PairsFrom.cons (h : PairAt slice reg j) {k : Nat} (hrest : PairsFrom slice reg (j + 2) k) :
    PairsFrom slice reg j (k + 1) := by
  refine ⟨fun m hm => ?_, ?_⟩
  · cases m with
    | zero => exact h
    | succ m =>
      have hpair := hrest.pair m (by omega)
      rwa [show j + 2 * (m + 1) = j + 2 + 2 * m by omega]
  · rw [show j + 2 * (k + 1) = j + 2 + 2 * k by omega]
    exact hrest.last

/-- The pairs from a position on are read up to the first that is missing. -/
theorem chainCases_spec (slice : List LiftedInstruction) (reg : String) (j : Nat) :
    ∃ k, chainCases reg (slice.drop j) = casesFrom slice j k ∧ PairsFrom slice reg j k := by
  induction hlen : slice.length - j using Nat.strong_induction_on generalizing j with
  | _ n ih =>
    have hget : ∀ i, slice[j + i]? = (slice.drop j)[i]? := fun i => List.getElem?_drop.symm
    have hnone : (slice.drop j).length < 2 → PairsFrom slice reg j 0 := by
      intro hshort
      refine ⟨fun m hm => absurd hm (Nat.not_lt_zero m), fun h => ?_⟩
      have hlt := h.lt_length
      rw [List.length_drop] at hshort
      omega
    rcases hdrop : slice.drop j with _ | ⟨cmp, _ | ⟨branch, rest⟩⟩
    · exact ⟨0, rfl, hnone (by rw [hdrop, List.length_nil]; decide)⟩
    · exact ⟨0, rfl, hnone (by rw [hdrop, List.length_singleton]; decide)⟩
    · have hcmp : slice[j]? = some cmp := by
        rw [show j = j + 0 from rfl, hget, hdrop]
        rfl
      have hbranch : slice[j + 1]? = some branch := by
        rw [hget, hdrop]
        rfl
      have hrest : slice.drop (j + 2) = rest := by
        rw [← List.drop_drop, hdrop]
        rfl
      have hlong : j + 2 ≤ slice.length := by
        have h := (List.getElem?_eq_some_iff.mp hbranch).1
        omega
      have hiff : PairAt slice reg j ↔ _ := pairAt_iff hcmp hbranch
      rw [chainCases]
      by_cases hpair : PairAt slice reg j
      · obtain ⟨h₁, h₂, h₃⟩ := hiff.mp hpair
        obtain ⟨k, hcases, hpairs⟩ := ih (slice.length - (j + 2)) (by omega) (j + 2) rfl
        refine ⟨k + 1, ?_, .cons hpair hpairs⟩
        rw [if_pos (by simp only [h₁, h₂, h₃, decide_true, Bool.and_self]), ← hrest, hcases,
          casesFrom_succ, switchCase_eq hcmp hbranch]
      · refine ⟨0, ?_, fun m hm => absurd hm (Nat.not_lt_zero m), hpair⟩
        rw [if_neg]
        · rfl
        · rw [Bool.and_eq_true, Bool.and_eq_true, decide_eq_true_iff]
          exact fun h => hpair (hiff.mpr ⟨h.1.1, h.1.2, h.2⟩)

/-- A chain: the register, where it starts and how many pairs it has. -/
structure Chain where
  reg : String
  start : Nat
  count : Nat
  deriving DecidableEq

def Chain.stop (c : Chain) : Nat := c.start + 2 * c.count

/-- A chain of at least two pairs that goes on neither way. -/
structure Maximal (slice : List LiftedInstruction) (c : Chain) : Prop where
  two : 2 ≤ c.count
  pairs : PairsFrom slice c.reg c.start c.count
  first : ∀ p, c.start = p + 2 → ¬ PairAt slice c.reg p

theorem PairsFrom.count_unique {k k' : Nat} (h : PairsFrom slice reg j k)
    (h' : PairsFrom slice reg j k') : k = k' := by
  rcases Nat.lt_trichotomy k k' with hlt | heq | hlt
  · exact absurd (h'.pair k hlt) h.last
  · exact heq
  · exact absurd (h.pair k' hlt) h'.last

/-- A chain that starts inside of another is that one. -/
theorem Maximal.eq_of_start_mem {c c' : Chain} (h : Maximal slice c) (h' : Maximal slice c')
    (hle : c.start ≤ c'.start) (hlt : c'.start < c.stop) : c' = c := by
  have htwo := h'.two
  have hfirst := h'.pairs.pair 0 (by omega)
  rw [Nat.mul_zero, Nat.add_zero] at hfirst
  rw [Chain.stop] at hlt
  obtain ⟨m, hm⟩ : ∃ m, c'.start = c.start + 2 * m ∨ c'.start = c.start + 2 * m + 1 :=
    ⟨(c'.start - c.start) / 2, by omega⟩
  have hpair := h.pairs.pair m (by omega)
  rcases hm with heq | heq
  · rw [heq] at hfirst
    have hreg := hpair.reg_unique hfirst
    cases m with
    | zero =>
      obtain ⟨reg, start, count⟩ := c
      obtain ⟨reg', start', count'⟩ := c'
      rw [Nat.mul_zero, Nat.add_zero] at heq
      dsimp only at heq hreg
      subst heq hreg
      have hcount : count = count' := h.pairs.count_unique h'.pairs
      rw [hcount]
    | succ m =>
      refine absurd (hreg ▸ h.pairs.pair m (by omega)) (h'.first (c.start + 2 * m) (by omega))
  · rw [heq] at hfirst
    exact absurd hfirst hpair.not_next

def factAt (functionVa : Nat) (slice : List LiftedInstruction) (c : Chain) : SwitchFact :=
  buildCompareTreeFact functionVa ((slice[c.start]?.map fun cmp => cmp.address).getD 0) c.reg
    (casesFrom slice c.start c.count)

/-- What the scan has done up to an index: the chains that start before it are found, and no
chain goes over the index. -/
structure Scanned (functionVa : Nat) (slice : List LiftedInstruction) (chains : List Chain)
    (s : Nat × List SwitchFact) : Prop where
  facts : s.2 = chains.map (factAt functionVa slice)
  found : ∀ c, c ∈ chains ↔ Maximal slice c ∧ c.start < s.1
  apart : chains.Pairwise fun c c' => c.stop ≤ c'.start
  before : ∀ c ∈ chains, c.stop ≤ s.1
  cut : ∀ p reg, p < s.1 → s.1 ≤ p + 2 → ¬ (PairAt slice reg p ∧ PairAt slice reg (p + 2))

variable {functionVa : Nat} {chains : List Chain} {s s' : Nat × List SwitchFact}

theorem scanned_start : Scanned functionVa slice [] (0, []) where
  facts := rfl
  found := fun _ => iff_of_false List.not_mem_nil fun h => Nat.not_lt_zero _ h.2
  apart := .nil
  before := fun _ hc => absurd hc List.not_mem_nil
  cut := fun p _ hp => absurd hp (Nat.not_lt_zero p)

/-- A round that finds no chain of two pairs. -/
theorem Scanned.skip (h : Scanned functionVa slice chains s)
    (hnone : ∀ reg, ¬ (PairAt slice reg s.1 ∧ PairAt slice reg (s.1 + 2))) :
    Scanned functionVa slice chains (s.1 + 1, s.2) where
  facts := h.facts
  found := by
    intro c
    rw [h.found]
    refine and_congr_right fun hmax => ⟨fun hlt => Nat.lt_succ_of_lt hlt, fun hlt => ?_⟩
    rcases Nat.lt_succ_iff_lt_or_eq.mp hlt with hlt | heq
    · exact hlt
    · have htwo := hmax.two
      have hfirst := hmax.pairs.pair 0 (by omega)
      have hsecond := hmax.pairs.pair 1 (by omega)
      rw [Nat.mul_zero, Nat.add_zero, heq] at hfirst
      rw [Nat.mul_one, heq] at hsecond
      exact absurd ⟨hfirst, hsecond⟩ (hnone c.reg)
  apart := h.apart
  before := fun c hc => Nat.le_succ_of_le (h.before c hc)
  cut := by
    intro p reg hp hle hboth
    rcases Nat.lt_succ_iff_lt_or_eq.mp hp with hlt | rfl
    · exact h.cut p reg hlt (by omega) hboth
    · exact hnone reg hboth

/-- A round that finds a chain and goes on behind it. -/
theorem Scanned.take {c : Chain} (h : Scanned functionVa slice chains s) (hstart : c.start = s.1)
    (htwo : 2 ≤ c.count) (hpairs : PairsFrom slice c.reg c.start c.count) :
    Scanned functionVa slice (chains ++ [c]) (c.stop, s.2 ++ [factAt functionVa slice c]) := by
  have hmax : Maximal slice c := by
    refine ⟨htwo, hpairs, fun p hp hpair => ?_⟩
    have hfirst := hpairs.pair 0 (by omega)
    rw [Nat.mul_zero, Nat.add_zero, hp] at hfirst
    exact h.cut p c.reg (by omega) (by omega) ⟨hpair, hfirst⟩
  refine ⟨?_, fun c' => ?_, ?_, ?_, ?_⟩
  · rw [h.facts, List.map_append, List.map_singleton]
  · rw [List.mem_append, List.mem_singleton, h.found]
    constructor
    · rintro (⟨hmax', hlt⟩ | rfl)
      · exact ⟨hmax', by rw [Chain.stop]; omega⟩
      · exact ⟨hmax, by rw [Chain.stop]; omega⟩
    · rintro ⟨hmax', hlt⟩
      by_cases hbefore : c'.start < s.1
      · exact .inl ⟨hmax', hbefore⟩
      · refine .inr (hmax.eq_of_start_mem hmax' (by omega) hlt)
  · rw [List.pairwise_append]
    refine ⟨h.apart, List.pairwise_singleton _ _, fun c' hc' d hd => ?_⟩
    rw [List.mem_singleton.mp hd, hstart]
    exact h.before c' hc'
  · intro c' hc'
    rcases List.mem_append.mp hc' with hc' | hc'
    · have hle := h.before c' hc'
      rw [Chain.stop] at hle ⊢
      rw [Chain.stop]
      omega
    · rw [List.mem_singleton.mp hc']
  · intro p reg hp hle hboth
    rw [Chain.stop] at hp hle
    obtain ⟨k, hk⟩ : ∃ k, c.count = k + 1 := ⟨c.count - 1, by omega⟩
    have hlast := hpairs.pair k (by omega)
    rcases (by omega : p = c.start + 2 * k ∨ p = c.start + 2 * k + 1) with rfl | rfl
    · have hgone := hpairs.last
      rw [hlast.reg_unique hboth.1,
        show c.start + 2 * c.count = c.start + 2 * k + 2 by omega] at hgone
      exact hgone hboth.2
    · exact hlast.not_next hboth.1

/-- One round of the scan. -/
theorem Scanned.turn (h : Scanned functionVa slice chains s)
    (hturn : detectTurn functionVa slice s = .next s') :
    s.1 < s'.1 ∧ ∃ chains', Scanned functionVa slice chains' s' := by
  rw [detectTurn] at hturn
  cases hcmp : slice[s.1]? with
  | none =>
    rw [hcmp] at hturn
    cases hturn
  | some cmp =>
    cases hbranch : slice[s.1 + 1]? with
    | none =>
      rw [hcmp, hbranch] at hturn
      cases hturn
    | some branch =>
      have hiff : ∀ reg, PairAt slice reg s.1 ↔ _ := fun reg => pairAt_iff hcmp hbranch
      simp only [hcmp, hbranch] at hturn
      split at hturn
      · rename_i hpair
        rw [Bool.and_eq_true] at hpair
        obtain ⟨reg, hreg, hhead⟩ :
            ∃ reg, cmp.readRegs.headD "" = reg ∧ cmp.readRegs.head? = some reg := by
          have hne := hpair.1
          simp only [isCmpRegImm, Bool.and_eq_true, Bool.not_eq_true',
            List.isEmpty_eq_false_iff] at hne
          obtain ⟨reg, rest, hregs⟩ := List.exists_cons_of_ne_nil hne.2
          rw [hregs]
          exact ⟨reg, rfl, rfl⟩
        have hfirst := (hiff _).mpr ⟨hpair.1, hhead, hpair.2⟩
        obtain ⟨k, hcases, hrest⟩ := chainCases_spec slice reg (s.1 + 2)
        have hpairs := hrest.cons hfirst
        have hall : switchCase cmp branch :: casesFrom slice (s.1 + 2) k =
            casesFrom slice s.1 (k + 1) := by
          rw [casesFrom_succ, switchCase_eq hcmp hbranch]
        rw [hreg, hcases, hall] at hturn
        have hlen : (casesFrom slice s.1 (k + 1)).length = k + 1 := by
          rw [casesFrom, List.length_map, List.length_range]
        rw [hlen] at hturn
        split at hturn
        · rename_i htwo
          have htake := h.take (c := ⟨reg, s.1, k + 1⟩) rfl htwo hpairs
          cases hturn
          refine ⟨by dsimp only; omega, chains ++ [⟨reg, s.1, k + 1⟩], ?_⟩
          rw [factAt, hcmp] at htake
          exact htake
        · rename_i hone
          cases hturn
          refine ⟨Nat.lt_succ_self _, chains, h.skip fun reg hboth => ?_⟩
          obtain rfl : k = 0 := by omega
          rw [hboth.1.reg_unique hfirst] at hboth
          exact hrest.last hboth.2
      · rename_i hpair
        rw [Bool.and_eq_true] at hpair
        cases hturn
        refine ⟨Nat.lt_succ_self _, chains, h.skip fun reg hboth => ?_⟩
        have hsplit := (hiff reg).mp hboth.1
        exact hpair ⟨hsplit.1, hsplit.2.2⟩

/-- When the scan ends every chain is found. -/
theorem Scanned.ended {facts : List SwitchFact} (h : Scanned functionVa slice chains s)
    (hturn : detectTurn functionVa slice s = .ended facts) :
    facts = chains.map (factAt functionVa slice) ∧ ∀ c, c ∈ chains ↔ Maximal slice c := by
  rw [detectTurn] at hturn
  have hend : slice.length ≤ s.1 + 1 ∧ facts = s.2 := by
    cases hcmp : slice[s.1]? with
    | none =>
      rw [hcmp] at hturn
      cases hturn
      exact ⟨Nat.le_succ_of_le (List.getElem?_eq_none_iff.mp hcmp), rfl⟩
    | some cmp =>
      cases hbranch : slice[s.1 + 1]? with
      | none =>
        rw [hcmp, hbranch] at hturn
        cases hturn
        exact ⟨List.getElem?_eq_none_iff.mp hbranch, rfl⟩
      | some branch =>
        simp only [hcmp, hbranch] at hturn
        split at hturn
        · split at hturn <;> cases hturn
        · cases hturn
  refine ⟨hend.2.trans h.facts, fun c => ?_⟩
  rw [h.found, and_iff_left_iff_imp]
  intro hmax
  have htwo := hmax.two
  have hlt := (hmax.pairs.pair 0 (by omega)).lt_length
  omega

/-- The scan ends, and its facts are those of the chains, which do not overlap. -/
theorem detectCompareTrees_spec (functionVa : Nat) (slice : List LiftedInstruction) :
    ∃ (facts : List SwitchFact) (chains : List Chain),
      detectCompareTrees functionVa slice = some facts ∧
      facts = chains.map (factAt functionVa slice) ∧ (∀ c, c ∈ chains ↔ Maximal slice c) ∧
      chains.Pairwise fun c c' => c.stop ≤ c'.start := by
  have hnext : ∀ s s', detectTurn functionVa slice s = .next s' →
      (∃ chains, Scanned functionVa slice chains s) →
      (∃ chains, Scanned functionVa slice chains s') ∧
        slice.length - s'.1 < slice.length - s.1 := by
    rintro s s' hturn ⟨chains, h⟩
    obtain ⟨hlt, hscanned⟩ := h.turn hturn
    have hin : s.1 < slice.length := by
      by_contra hout
      rw [detectTurn, List.getElem?_eq_none_iff.mpr (Nat.not_lt.mp hout)] at hturn
      cases hturn
    exact ⟨hscanned, by omega⟩
  have hstart : ∃ chains, Scanned functionVa slice chains (0, []) := ⟨[], scanned_start⟩
  obtain ⟨facts, hfacts⟩ := Loops.run_ends_of (fun s : Nat × List SwitchFact =>
    slice.length - s.1) hnext hstart (Nat.lt_succ_self slice.length)
  have hend := Loops.run_keeps (Q := fun facts => ∃ chains : List Chain,
      facts = chains.map (factAt functionVa slice) ∧ (∀ c, c ∈ chains ↔ Maximal slice c) ∧
      chains.Pairwise fun c c' => c.stop ≤ c'.start)
    (fun s s' hturn h => (hnext s s' hturn h).1) ?_ hfacts hstart
  · obtain ⟨chains, h⟩ := hend
    exact ⟨facts, chains, hfacts, h⟩
  · rintro s facts hturn ⟨chains, h⟩
    obtain ⟨heq, hfound⟩ := h.ended hturn
    exact ⟨chains, heq, hfound, h.apart⟩

end Chains

end Axe.Static.Switches
