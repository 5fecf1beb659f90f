import Axe.Concolic.ShadowEffects

/-!
# Runs of the shadow emulator

One step either builds the predicate of a branch or realizes the effect of an
instruction. What every step keeps holds in every state that is reached.
-/
namespace Axe.Concolic

open Shadow (intern checked)

/-- The comparison behind a relation, and whether the predicate negates it. -/
def BranchRel.compare (lhs rhs : NodeId) : BranchRel → Expr × Bool
  | .eq => (.eq lhs rhs, false)
  | .ne => (.eq lhs rhs, true)
  | .ugt => (.ule lhs rhs, true)
  | .uge => (.ult lhs rhs, true)
  | .ult => (.ult lhs rhs, false)
  | .ule => (.ule lhs rhs, false)
  | .sgt => (.sle lhs rhs, true)
  | .sge => (.slt lhs rhs, true)
  | .slt => (.slt lhs rhs, false)
  | .sle => (.sle lhs rhs, false)

/-- A node that compares two nodes by a relation. -/
def Compares (dag : ExprDag) (rel : BranchRel) (lhs rhs p : NodeId) : Prop :=
  ∃ q, dag.tryGet q = some (rel.compare lhs rhs).1 ∧
    if (rel.compare lhs rhs).2 then dag.tryGet p = some (.not q) else p = q

variable {em em' : ShadowEmulator}

theorem buildPredicate_reads (rel : BranchRel) {lhs rhs : NodeId} (hl : lhs < em.dag.len)
    (hr : rhs < em.dag.len) :
    Reads 2 em (buildPredicate rel lhs rhs) fun dag p => Compares dag rel lhs rhs p := by
  have hplain : ∀ {e : Expr}, childrenOf e = [lhs, rhs] → ExprDag.U32 e →
      Reads 1 em (intern e) fun dag q => dag.tryGet q = some e := fun hc hu =>
    Reads.intern (by simp [hc, hl, hr]) hu fun _ _ _ he => he
  have hnot : ∀ {e : Expr}, childrenOf e = [lhs, rhs] → ExprDag.U32 e →
      Reads 2 em (intern e >>= fun q => intern (.not q)) fun dag p =>
        ∃ q, dag.tryGet q = some e ∧ dag.tryGet p = some (.not q) := by
    intro e hc hu
    refine Reads.bind (k := 1) (l := 1) (hplain hc hu) fun dag q hg hq => ?_
    refine Reads.intern (by simpa [childrenOf] using ExprDag.lt_of_tryGet hq) trivial
      fun dag' p hg' hp => ⟨q, hg'.keeps _ _ hq, hp⟩
  have hpos : ∀ {e : Expr}, childrenOf e = [lhs, rhs] → ExprDag.U32 e →
      Reads 2 em (intern e) fun dag p => ∃ q, dag.tryGet q = some e ∧ p = q := by
    intro e hc hu hroom p em' hp
    obtain ⟨dag, hem, hg, hq⟩ := (hplain hc hu).mono (by decide : 1 ≤ 2) hroom p em' hp
    exact ⟨dag, hem, hg, p, hq, rfl⟩
  cases rel with
  | eq | ult | ule | slt | sle => exact hpos rfl trivial
  | ne | ugt | uge | sgt | sge => exact hnot rfl trivial

/-- What a branch does: with a comparison at hand it emits the event about it. -/
def Branches (em : ShadowEmulator) (ir : InstructionRecord) (rel : BranchRel)
    (event : Option BranchEventWithNodeIds) (em' : ShadowEmulator) : Prop :=
  em' = em.withDag em'.dag ∧ em.dag.Grows 64 em'.dag ∧
    (em.lastCmp = none ∧ event = none ∨
      ∃ c p, em.lastCmp = some c ∧ event = some ⟨ir.address, ir.lowerMnemonic, p, c.width, c⟩ ∧
        Compares em'.dag rel c.lhs c.rhs p)

theorem run_get_bind {α : Type} {f : ShadowEmulator → Shadow α} {r : α × ShadowEmulator}
    (h : (get >>= f : Shadow α) em = some r) : f em em = some r := h

theorem emitBranchEvent_spec (hv : em.Valid) (hroom : em.dag.Room 64) {ir : InstructionRecord}
    {rel : BranchRel} {event : Option BranchEventWithNodeIds}
    (h : emitBranchEvent ir.address ir.lowerMnemonic rel em = some (event, em')) :
    Branches em ir rel event em' := by
  have h := run_get_bind h
  cases hc : em.lastCmp with
  | none =>
    simp only [hc] at h
    cases h
    exact ⟨rfl, (ExprDag.Grows.refl hroom.built).mono (Nat.zero_le _), .inl ⟨hc, rfl⟩⟩
  | some c =>
    simp only [hc] at h
    obtain ⟨⟨p, em₃⟩, hp, h⟩ := Option.bind_eq_some_iff.mp h
    obtain ⟨dag, rfl, hg, hcmp⟩ := buildPredicate_reads rel (hv.lastCmp c hc).1 (hv.lastCmp c hc).2
      (hroom.mono (by decide)) p em₃ hp
    cases h
    exact ⟨rfl, hg.mono (by decide), .inr ⟨c, p, hc, rfl, hcmp⟩⟩

/-- One step. -/
inductive Steps (em : ShadowEmulator) (ir : InstructionRecord) :
    Option BranchEventWithNodeIds → ShadowEmulator → Prop
  | branch {rel : BranchRel} {event : Option BranchEventWithNodeIds} {em' : ShadowEmulator} :
      relationForBranch ir.lowerMnemonic = some rel → Branches em ir rel event em' →
      Steps em ir event em'
  | act {ops : List Operand} {em' : ShadowEmulator} : relationForBranch ir.lowerMnemonic = none →
      parseOperands ir.opStr = some ops →
      Realizes 64 em (em.effect (familyOf ir.lowerMnemonic) ops) em' → Steps em ir none em'

theorem stepInstruction_steps (hv : em.Valid) (hroom : em.dag.Room 64) {ir : InstructionRecord}
    {event : Option BranchEventWithNodeIds} (h : stepInstruction ir em = some (event, em')) :
    Steps em ir event em' := by
  unfold stepInstruction at h
  obtain ⟨⟨ops, em₁⟩, hops, h⟩ := Option.bind_eq_some_iff.mp h
  obtain ⟨ops', hparse, hpair⟩ := Option.map_eq_some_iff.mp hops
  cases hpair
  cases hrel : relationForBranch ir.lowerMnemonic with
  | some rel =>
    simp only [hrel] at h
    exact .branch hrel (emitBranchEvent_spec hv hroom h)
  | none =>
    simp only [hrel] at h
    obtain ⟨⟨u, em₂⟩, hact, h⟩ := Option.bind_eq_some_iff.mp h
    cases h
    exact .act hrel hparse (stepFamily_acts hv _ (parseOperands_wellFormed hparse) hroom u _ hact)

theorem Realizes.valid {k : Nat} {eff : Effect} (hv : em.Valid) (h : Realizes k em eff em') :
    em'.Valid := by
  have hg := h.grows
  have ho := h.outcome
  cases eff with
  | none =>
    obtain ⟨hregs, hmem, hcmp⟩ := ho
    refine ⟨fun r n hr => hg.lt (hv.regs r n (hregs ▸ hr)), fun a n ha => hg.lt (hv.memory a n (hmem ▸ ha)),
      fun c hc => ?_⟩
    have := hv.lastCmp c (hcmp ▸ hc)
    exact ⟨hg.lt this.1, hg.lt this.2⟩
  | setReg c t =>
    obtain ⟨hmem, hcmp, r, hregs, hrep⟩ := ho
    refine ⟨fun r' n hr => ?_, fun a n ha => hg.lt (hv.memory a n (hmem ▸ ha)), fun c hc => ?_⟩
    · rw [hregs, Function.update_apply] at hr
      split at hr
      · cases hrep with
        | none => cases hr
        | some h =>
          cases hr
          exact h.lt
      · exact hg.lt (hv.regs r' n hr)
    · have := hv.lastCmp c (hcmp ▸ hc)
      exact ⟨hg.lt this.1, hg.lt this.2⟩
  | setMem addr count t =>
    obtain ⟨hregs, hcmp, hbytes, hother⟩ := ho
    refine ⟨fun r n hr => hg.lt (hv.regs r n (hregs ▸ hr)), fun a n ha => ?_, fun c hc => ?_⟩
    · by_cases hin : ∃ i < count, a = addr + BitVec.ofNat 64 i
      · obtain ⟨i, hi, rfl⟩ := hin
        have hrep := hbytes i hi
        rw [ha] at hrep
        generalize t.map (fun t => byteTerm t i) = bt at hrep
        cases hrep with
        | some h => exact h.lt
      · rw [hother a fun i hi heq => hin ⟨i, hi, heq⟩] at ha
        exact hg.lt (hv.memory a n ha)
    · have := hv.lastCmp c (hcmp ▸ hc)
      exact ⟨hg.lt this.1, hg.lt this.2⟩
  | setCmp t =>
    obtain ⟨hregs, hmem, hcmp⟩ := ho
    refine ⟨fun r n hr => hg.lt (hv.regs r n (hregs ▸ hr)), fun a n ha => hg.lt (hv.memory a n (hmem ▸ ha)),
      fun c hc => ?_⟩
    rw [hc] at hcmp
    cases hcmp with
    | some hrep => exact ⟨hrep.lhs.lt, hrep.rhs.lt⟩

theorem Steps.grows {ir : InstructionRecord} {event : Option BranchEventWithNodeIds}
    (h : Steps em ir event em') : em.dag.Grows 64 em'.dag := by
  cases h with
  | branch _ h => exact h.2.1
  | act _ _ h => exact h.grows

theorem Steps.valid {ir : InstructionRecord} {event : Option BranchEventWithNodeIds}
    (hv : em.Valid) (h : Steps em ir event em') : em'.Valid := by
  cases h with
  | branch _ h =>
    obtain ⟨hem, hg, -⟩ := h
    rw [hem]
    exact hv.grow hg
  | act _ _ h => exact h.valid hv

/-- The ids a step may hand out fit `u32`. -/
structure ShadowEmulator.HasRoom (em : ShadowEmulator) : Prop where
  nodes : em.dag.len + 64 ≤ 2 ^ 32
  symbols : em.dag.symbols.length + 64 ≤ 2 ^ 32

/-- The states of a run whose steps all meet a condition. -/
inductive Reached (start : ShadowEmulator) (P : ShadowEmulator → InstructionRecord → Prop) :
    ShadowEmulator → Prop
  | start : Reached start P start
  | step {em em' : ShadowEmulator} {ir : InstructionRecord}
      {event : Option BranchEventWithNodeIds} : Reached start P em → P em ir →
      stepInstruction ir em = some (event, em') → Reached start P em'

theorem new_valid (dag : ExprDag) (base : BitVec 64) (len : BitVec 32) :
    (ShadowEmulator.new dag base len).Valid :=
  ⟨fun _ _ h => (by cases h), fun _ _ h => (by cases h), fun _ h => (by cases h)⟩

/-- Every reached state has ids of a built DAG only. -/
theorem Reached.valid {start : ShadowEmulator} {P : ShadowEmulator → InstructionRecord → Prop}
    (hP : ∀ em ir, P em ir → em.HasRoom) (hd : start.dag.Built) (hv : start.Valid)
    (h : Reached start P em) : em.dag.Built ∧ em.Valid := by
  induction h with
  | start => exact ⟨hd, hv⟩
  | @step em em' ir event _ hp hstep ih =>
    have hroom := hP em ir hp
    have hs := stepInstruction_steps ih.2 ⟨ih.1, hroom.nodes, hroom.symbols⟩ hstep
    exact ⟨hs.grows.built, hs.valid ih.2⟩

end Axe.Concolic
