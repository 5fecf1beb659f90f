import Mathlib.Algebra.Order.BigOperators.Group.List
import Axe.Static.Vsa

/-!
# The analysis ends

A turn takes a block from the queue. It either uses up one of the rounds of the block, and then
queues at most one block for each of its edges, or it queues nothing.
-/
namespace Axe.Static.VsaTask

open Loops (Turn)

variable {task : VsaTask} {s s' : Analysis} {block other : Nat} {state state' : AbstractState}
  {rows rows' : List VsaValueRecord}

/-- The rows of an analysis that has reached the cap, with the record that says so. -/
def CapReached (task : VsaTask) (rows : List VsaValueRecord) : Prop :=
  ∃ emitted va, emitted.length = task.perFunctionCap ∧
    rows = emitted ++ [capRecord task.function va (task.rowBase + task.perFunctionCap)]

theorem capReached_append (h : rows.length ≤ task.perFunctionCap)
    (hcap : task.perFunctionCap ≤ rows.length) (va : Nat) :
    task.CapReached (rows ++ [capRecord task.function va (task.rowBase + rows.length)]) :=
  ⟨rows, va, le_antisymm h hcap, by rw [le_antisymm h hcap]⟩

theorem interpret_ok {ins : List IrInstruction}
    (h : task.interpret ins state rows = .ok (state', rows'))
    (hrows : rows.length ≤ task.perFunctionCap) : rows'.length ≤ task.perFunctionCap := by
  induction ins generalizing state rows with
  | nil =>
    cases h
    exact hrows
  | cons head rest ih =>
    rw [interpret] at h
    split at h
    · cases h
    · split at h
      · exact ih h hrows
      · refine ih h ?_
        rw [List.length_append, List.length_singleton]
        omega

theorem interpret_error {ins : List IrInstruction}
    (h : task.interpret ins state rows = .error rows')
    (hrows : rows.length ≤ task.perFunctionCap) : task.CapReached rows' := by
  induction ins generalizing state rows with
  | nil => cases h
  | cons head rest ih =>
    rw [interpret] at h
    split at h
    · rename_i hcap
      cases h
      exact capReached_append hrows hcap _
    · split at h
      · exact ih h hrows
      · refine ih h ?_
        rw [List.length_append, List.length_singleton]
        omega

/-- Edges queue at most one block each and change the incoming states only. -/
theorem propagate_foldl (edges : List EdgeRecord) (s : Analysis) :
    (edges.foldl (task.propagate block state) s).rows = s.rows ∧
      (edges.foldl (task.propagate block state) s).iterations = s.iterations ∧
      (edges.foldl (task.propagate block state) s).worklist.length ≤
        s.worklist.length + edges.length := by
  induction edges generalizing s with
  | nil => exact ⟨rfl, rfl, le_rfl⟩
  | cons edge rest ih =>
    obtain ⟨hrows, hiter, hlen⟩ := ih (task.propagate block state s edge)
    have hstep : (task.propagate block state s edge).rows = s.rows ∧
        (task.propagate block state s edge).iterations = s.iterations ∧
        (task.propagate block state s edge).worklist.length ≤ s.worklist.length + 1 := by
      rw [propagate]
      split
      · exact ⟨rfl, rfl, le_of_eq (List.length_append ..)⟩
      · exact ⟨rfl, rfl, Nat.le_succ _⟩
    rw [List.foldl_cons, List.length_cons]
    exact ⟨hrows.trans hstep.1, hiter.trans hstep.2.1, by omega⟩

theorem count_popped {worklist : List Nat} : count (popped s block worklist) other =
    if other = block then count s block + 1 else count s other := by
  rw [count, popped, OrderedMap.get_insert]
  split
  · rfl
  · rfl

/-- A block that is passed over leaves the queue, and has had its rounds. -/
theorem nextStep_passOver (h : task.nextStep s = .passOver s') :
    ∃ block rest, s.worklist = block :: rest ∧ s.rows.length < task.perFunctionCap ∧
      s'.worklist = rest ∧ s'.iterations = (popped s block rest).iterations ∧
      (s'.rows = s.rows ∨
        s'.rows = s.rows ++ [loopCapRecord task.function block (task.rowBase + s.rows.length)]) := by
  rw [nextStep] at h
  split at h
  · cases h
  · rename_i block rest hwork
    split at h
    · cases h
    · rename_i hcap
      refine ⟨block, rest, hwork, not_le.mp hcap, ?_⟩
      dsimp only at h
      split at h
      · split at h <;> cases h
        · exact ⟨rfl, rfl, Or.inl rfl⟩
        · exact ⟨rfl, rfl, Or.inr rfl⟩
      · cases h

/-- A block that is interpreted has a round left, which it uses up. -/
theorem nextStep_interpret (h : task.nextStep s = .interpret block s') :
    ∃ rest, s.worklist = block :: rest ∧ s.rows.length < task.perFunctionCap ∧
      s' = popped s block rest ∧ count s block + 1 ≤ task.loopLimit := by
  rw [nextStep] at h
  split at h
  · cases h
  · rename_i first rest hwork
    split at h
    · cases h
    · rename_i hcap
      dsimp only at h
      split at h
      · split at h <;> cases h
      · rename_i hlimit
        cases h
        rw [count_popped, if_pos rfl, not_lt] at hlimit
        exact ⟨rest, hwork, not_le.mp hcap, rfl, hlimit⟩

theorem nextStep_finish (h : task.nextStep s = .finish rows) :
    rows = s.rows ∨ task.perFunctionCap ≤ s.rows.length ∧
      ∃ va, rows = s.rows ++ [capRecord task.function va (task.rowBase + s.rows.length)] := by
  rw [nextStep] at h
  split at h
  · cases h
    exact Or.inl rfl
  · split at h
    · rename_i hcap
      cases h
      exact Or.inr ⟨hcap, _, rfl⟩
    · dsimp only at h
      split at h
      · split at h <;> cases h
      · cases h

theorem interprets_iff :
    task.interprets block s = true ↔ ∃ s', task.nextStep s = .interpret block s' := by
  rw [interprets]
  split
  · rename_i hstep
    rw [decide_eq_true_eq, hstep]
    constructor
    · rintro rfl
      exact ⟨_, rfl⟩
    · rintro ⟨_, h⟩
      cases h
      rfl
  · rename_i hstep
    exact ⟨fun h => absurd h Bool.false_ne_true, fun ⟨s', h⟩ => absurd h (hstep block s')⟩

theorem interpretBlock_next (h : task.interpretBlock block s = .next s') :
    s'.iterations = s.iterations ∧
      s'.worklist.length ≤ s.worklist.length + (task.edgesFrom block).length ∧
      (s.rows.length ≤ task.perFunctionCap → s'.rows.length ≤ task.perFunctionCap) := by
  rw [interpretBlock] at h
  split at h
  · cases h
  · rename_i hok
    cases h
    refine ⟨(propagate_foldl _ _).2.1, (propagate_foldl _ _).2.2, fun hrows => ?_⟩
    rw [(propagate_foldl _ _).1]
    exact interpret_ok hok hrows

theorem interpretBlock_ended (h : task.interpretBlock block s = .ended rows)
    (hrows : s.rows.length ≤ task.perFunctionCap) : task.CapReached rows := by
  rw [interpretBlock] at h
  split at h
  · rename_i herror
    cases h
    exact interpret_error herror hrows
  · cases h

/-- A turn that goes on takes the first block from the queue. It queues nothing, or uses up a
round of the block and queues at most its edges. -/
theorem turn_next (h : task.turn s = .next s') :
    ∃ block rest, s.worklist = block :: rest ∧
      (∀ other, count s' other = if other = block then count s block + 1 else count s other) ∧
      s'.rows.length ≤ task.perFunctionCap ∧
      (s'.worklist = rest ∨ count s block + 1 ≤ task.loopLimit ∧
        s'.worklist.length ≤ rest.length + (task.edgesFrom block).length) := by
  rw [turn] at h
  split at h
  · cases h
  · rename_i hstep
    cases h
    obtain ⟨block, rest, hwork, hcap, hrest, hiter, hrows⟩ := nextStep_passOver hstep
    refine ⟨block, rest, hwork, fun other => ?_, ?_, Or.inl hrest⟩
    · rw [count, hiter]
      exact count_popped
    · rcases hrows with hrows | hrows
      · rw [hrows]
        exact hcap.le
      · rw [hrows, List.length_append, List.length_singleton]
        exact hcap
  · rename_i block _ hstep
    obtain ⟨rest, hwork, hcap, rfl, hlimit⟩ := nextStep_interpret hstep
    obtain ⟨hiter, hlen, hrows⟩ := interpretBlock_next h
    refine ⟨block, rest, hwork, fun other => ?_, hrows hcap.le, Or.inr ⟨hlimit, hlen⟩⟩
    rw [count, hiter]
    exact count_popped

theorem turn_ended (h : task.turn s = .ended rows) (hrows : s.rows.length ≤ task.perFunctionCap) :
    rows.length ≤ task.perFunctionCap ∨ task.CapReached rows := by
  rw [turn] at h
  split at h
  · rename_i hstep
    cases h
    rcases nextStep_finish hstep with rfl | ⟨hcap, va, rfl⟩
    · exact Or.inl hrows
    · exact Or.inr (capReached_append hrows hcap va)
  · cases h
  · rename_i hstep
    obtain ⟨rest, -, -, rfl, -⟩ := nextStep_interpret hstep
    exact Or.inr (interpretBlock_ended h hrows)

theorem interpret_ir (ir ins : List IrInstruction) (state : AbstractState)
    (rows : List VsaValueRecord) :
    VsaTask.interpret { task with ir := ir } ins state rows = task.interpret ins state rows := by
  induction ins generalizing state rows with
  | nil => rfl
  | cons head rest ih => simp only [interpret, ih]

theorem interpretBlock_ir {ir : List IrInstruction}
    (hir : VsaTask.blockIns { task with ir := ir } block = task.blockIns block) :
    VsaTask.interpretBlock { task with ir := ir } block s = task.interpretBlock block s := by
  have hpropagate : VsaTask.propagate { task with ir := ir } block = task.propagate block := by
    funext state s edge
    rw [propagate, hir, propagate]
  rw [interpretBlock, interpret_ir, hir, hpropagate]
  rfl

/-- A turn that does not interpret a block never looks at the instructions of the block. -/
theorem turn_ir {ir : List IrInstruction} (h : task.interprets block s = false)
    (hir : ∀ other, other ≠ block →
      VsaTask.blockIns { task with ir := ir } other = task.blockIns other) :
    VsaTask.turn { task with ir := ir } s = task.turn s := by
  have hstep : VsaTask.nextStep { task with ir := ir } s = task.nextStep s := rfl
  rw [turn, turn, hstep]
  split
  · rfl
  · rfl
  · rename_i first s' hfirst
    have hne : first ≠ block := by
      rintro rfl
      rw [interprets_iff.mpr ⟨_, hfirst⟩] at h
      cases h
    exact interpretBlock_ir (hir first hne)

theorem length_addOutgoing_le {cfg : CfgRecord} {m : OrderedMap Nat (List EdgeRecord)}
    {edge : EdgeRecord} :
    (((addOutgoing cfg m edge).get block).getD []).length ≤ ((m.get block).getD []).length + 1 := by
  rw [addOutgoing]
  cases blockForCfg cfg edge.source with
  | none => exact Nat.le_succ _
  | some other =>
    rw [Option.elim_some, OrderedMap.get_insert]
    split
    · rename_i h
      rw [h]
      exact SortedMap.length_insertNew_le
    · exact Nat.le_succ _

theorem length_outgoing_le (cfg : CfgRecord) (edges : List EdgeRecord)
    (m : OrderedMap Nat (List EdgeRecord)) :
    (((edges.foldl (addOutgoing cfg) m).get block).getD []).length ≤
      ((m.get block).getD []).length + edges.length := by
  induction edges generalizing m with
  | nil => exact le_rfl
  | cons edge rest ih =>
    rw [List.foldl_cons, List.length_cons]
    refine (ih (addOutgoing cfg m edge)).trans ?_
    refine (Nat.add_le_add_right length_addOutgoing_le _).trans ?_
    omega

theorem length_edgesFrom : (task.edgesFrom block).length ≤ task.cfg.edges.length := by
  have h : (task.edgesFrom block).length ≤ _ := length_outgoing_le task.cfg task.cfg.edges .empty
  rwa [OrderedMap.get_empty, Option.getD_none, List.length_nil, Nat.zero_add] at h

theorem roundsLeft_le (hcount : ∀ other,
    count s' other = if other = block then count s block + 1 else count s other) :
    task.roundsLeft s' ≤ task.roundsLeft s := by
  refine List.sum_le_sum fun row _ => ?_
  rw [hcount]
  split
  · rename_i h
    rw [h]
    omega
  · exact le_rfl

/-- A round of a block with edges is one of the rounds that are left. -/
theorem roundsLeft_lt (hcount : ∀ other,
    count s' other = if other = block then count s block + 1 else count s other)
    (hlimit : count s block + 1 ≤ task.loopLimit) (hedges : task.edgesFrom block ≠ []) :
    task.roundsLeft s' < task.roundsLeft s := by
  obtain ⟨edges, hget⟩ : ∃ edges, (outgoingEdgesByBlock task.cfg).get block = some edges := by
    cases hget : (outgoingEdgesByBlock task.cfg).get block with
    | none => exact absurd (by rw [edgesFrom, hget, Option.getD_none]) hedges
    | some edges => exact ⟨edges, rfl⟩
  refine List.sum_lt_sum _ _ (fun row _ => ?_)
    ⟨(block, edges), OrderedMap.get_eq_some.mp hget, ?_⟩
  · rw [hcount]
    split
    · rename_i h
      rw [h]
      omega
    · exact le_rfl
  · simp only [hcount, if_true]
    omega

/-- A turn leaves less of the budget. -/
theorem turnBudget_lt (h : task.turn s = .next s') : task.turnBudget s' < task.turnBudget s := by
  obtain ⟨block, rest, hwork, hcount, _, hlen⟩ := turn_next h
  have hle : task.roundsLeft s' * (task.cfg.edges.length + 1) ≤
      task.roundsLeft s * (task.cfg.edges.length + 1) :=
    Nat.mul_le_mul_right _ (roundsLeft_le hcount)
  have hedges := @length_edgesFrom task block
  rw [turnBudget, turnBudget, hwork, List.length_cons]
  rcases hlen with hlen | ⟨hlimit, hlen⟩
  · rw [hlen]
    omega
  · by_cases hnone : task.edgesFrom block = []
    · rw [hnone, List.length_nil] at hlen
      omega
    · have hlt := Nat.mul_le_mul_right (task.cfg.edges.length + 1)
        (Nat.succ_le_of_lt (roundsLeft_lt hcount hlimit hnone))
      rw [Nat.succ_mul] at hlt
      omega

/-- Every turn that interprets a block takes one of its rounds. -/
theorem rounds_le (block turns : Nat) :
    (Loops.trail task.turn turns s).countP (task.interprets block) ≤
      task.loopLimit - count s block := by
  refine Loops.countP_trail_le (fun s => task.loopLimit - count s block) ?_ ?_
  · intro s s' h
    obtain ⟨first, rest, hwork, hcount, -, -⟩ := turn_next h
    have hblock := hcount block
    split
    · rename_i hinterprets
      obtain ⟨_, hstep⟩ := interprets_iff.mp hinterprets
      obtain ⟨_, hwork', -, -, hlimit⟩ := nextStep_interpret hstep
      obtain ⟨rfl, -⟩ := List.cons_eq_cons.mp (hwork'.symm.trans hwork)
      rw [if_pos rfl] at hblock
      omega
    · split at hblock
      · rename_i heq
        rw [heq, ← heq] at hblock
        omega
      · omega
  · intro s rows _ hinterprets
    obtain ⟨_, hstep⟩ := interprets_iff.mp hinterprets
    obtain ⟨_, -, -, -, hlimit⟩ := nextStep_interpret hstep
    omega

/-- The analysis of a function ends, within its rounds and its cap. A turn that does not count as
a round of a block is the same whatever the instructions of the block. -/
theorem analyzeCfgFunction_ends (task : VsaTask) :
    ∃ rows, (∀ turns, task.turnBudget task.start < turns →
        Loops.run task.turn turns task.start = some rows) ∧
      (rows.length ≤ task.perFunctionCap ∨ task.CapReached rows) ∧
      (∀ block turns, (Loops.trail task.turn turns task.start).countP (task.interprets block) ≤
        task.loopLimit) ∧
      ∀ block s ir, task.interprets block s = false →
        (∀ other, other ≠ block →
          VsaTask.blockIns { task with ir := ir } other = task.blockIns other) →
        VsaTask.turn { task with ir := ir } s = task.turn s := by
  obtain ⟨rows, hrun⟩ := Loops.run_ends task.turnBudget (fun _ _ => turnBudget_lt)
    (Nat.lt_succ_self (task.turnBudget task.start))
  refine ⟨rows, fun turns hturns => Loops.run_mono hrun hturns, ?_, fun block turns => ?_,
    fun block s ir h hir => turn_ir h hir⟩
  · refine Loops.run_keeps (I := fun s : Analysis => s.rows.length ≤ task.perFunctionCap)
      (Q := fun rows => rows.length ≤ task.perFunctionCap ∨ task.CapReached rows) ?_ ?_ hrun
      (show task.start.rows.length ≤ _ from Nat.zero_le _)
    · intro s s' h _
      obtain ⟨_, _, _, _, hrows, _⟩ := turn_next h
      exact hrows
    · exact fun s rows h hrows => turn_ended h hrows
  · exact (rounds_le block turns).trans (Nat.sub_le _ _)

end Axe.Static.VsaTask
