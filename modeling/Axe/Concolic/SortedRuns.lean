import Axe.Concolic.ShadowSorts

/-!
# Well-sorted runs

As long as the sizes that an instruction names agree, only a store of `ah` or of a
narrower region and an immediate that is too wide for a concrete destination make
a term without a sort.
-/
namespace Axe.Concolic

open Smt (SmtSort)
open X86 (Reg)

section Sizes

/-- The width of the size keyword, when one is printed. -/
def printedWidth (raw : List Char) : Option Nat := (stripWidthPrefix (trim raw)).1

/-- Two operands, with their texts, whose sizes agree. -/
def SizesAgree (family : Family) (a b : List Char) (x y : Operand) : Prop :=
  match family, x, y with
  | .movx _, .reg _ w, y => ∀ w' ∈ y.width, w' < w
  | .movx _, _, _ => True
  | _, .reg _ w, .reg _ w' => w = w'
  | _, .reg _ w, .mem _ _ _ => ∀ k ∈ printedWidth b, k = w
  | _, .mem _ _ _, .reg _ w => ∀ k ∈ printedWidth a, k = w
  | _, _, _ => True

def InstructionRecord.SizesAgree (ir : InstructionRecord) : Prop :=
  ∀ a b x y, splitOperands ir.opStr.toList 0 [] = [a, b] → parseSingleOperand a = some x →
    parseSingleOperand b = some y → Concolic.SizesAgree (familyOf ir.lowerMnemonic) a b x y

/-- The operands that make a term without a sort although their sizes agree. -/
def ShadowEmulator.Misreads (em : ShadowEmulator) : Family → List Operand → Prop
  | .mov, [.mem _ _ w, .reg name _] =>
    name = "ah".toList ∧ w ≠ 8 ∧ (em.state.regs .rax).isSome
  | .mov, [.mem _ _ w, .mem base disp w'] => w' < w ∧ (em.regionTerm base disp w').isSome
  | .binop _, [.reg name w, .imm v] =>
    (canonicalReg name).bind em.state.regs = none ∧ 2 ^ w ≤ v.toNat
  | _, _ => False

def ShadowEmulator.MisreadsAt (em : ShadowEmulator) (ir : InstructionRecord) : Prop :=
  ∃ ops, parseOperands ir.opStr = some ops ∧ em.Misreads (familyOf ir.lowerMnemonic) ops

theorem parseSingleOperand_width {raw : List Char} {base : Option (List Char)} {disp : BitVec 64}
    {w : Nat} (h : parseSingleOperand raw = some (.mem base disp w)) :
    w = (printedWidth raw).getD 64 := by
  unfold parseSingleOperand at h
  dsimp only at h
  split at h
  · obtain ⟨⟨b, d⟩, -, h⟩ := Option.bind_eq_some_iff.mp h
    cases h
    rfl
  · split at h
    · cases h
    · obtain ⟨v, -, h⟩ := Option.bind_eq_some_iff.mp h
      cases v <;> cases h

theorem parseOperands_pair {s : String} {x y : Operand} (h : parseOperands s = some [x, y]) :
    ∃ a b, splitOperands s.toList 0 [] = [a, b] ∧ parseSingleOperand a = some x ∧
      parseSingleOperand b = some y := by
  have hpieces := (DagFold.mapM_some_iff _ _ _).mp (Option.ite_none_right_eq_some.mp h).2
  obtain ⟨a, as, ha, hrest, hsplit⟩ := List.forall₂_cons_right_iff.mp hpieces
  obtain ⟨b, bs, hb, hnil, rfl⟩ := List.forall₂_cons_right_iff.mp hrest
  cases hnil
  exact ⟨a, b, hsplit, ha, hb⟩

variable {em : ShadowEmulator} {ir : InstructionRecord}

theorem ReadFits.of_isSome {op : Operand} {w : Nat}
    (h : (em.operandTerm op w).isSome → op.ReadsAt w) : em.ReadFits op w := h

/-- A source of the size of the register it goes with is read at a width it has. -/
theorem readFits_of_sizes {family : Family} {a b name : List Char} {w : Nat} {src : Operand}
    (hfam : ∀ signed, family ≠ .movx signed) (hw : OperandWidth w)
    (hb : parseSingleOperand b = some src) (hwf : src.WellFormed)
    (h : SizesAgree family a b (.reg name w) src) : em.ReadFits src w := by
  have hb64 := hw.bounds
  intro _
  cases src with
  | imm v => trivial
  | reg name' w' =>
    have hww : w = w' := by
      cases family <;> first | exact h | exact absurd rfl (hfam _)
    cases hww
    exact readsAt_self hwf rfl
  | mem base disp w' =>
    have hk : ∀ k ∈ printedWidth b, k = w := by
      cases family <;> first | exact h | exact absurd rfl (hfam _)
    have hw' := parseSingleOperand_width hb
    rw [Operand.ReadsAt, hw']
    cases hp : printedWidth b with
    | none => exact hb64.2
    | some k => exact (hk k hp).ge

/-- The sizes agree and nothing is misread: then the operands fit. -/
theorem operandsFit_of_sizes {ops : List Operand} (hparse : parseOperands ir.opStr = some ops)
    (hs : ir.SizesAgree) (hm : ¬ em.MisreadsAt ir) :
    em.OperandsFit (familyOf ir.lowerMnemonic) ops := by
  have hwf := parseOperands_wellFormed hparse
  have hm : ¬ em.Misreads (familyOf ir.lowerMnemonic) ops := fun h => hm ⟨ops, hparse, h⟩
  match ops, hparse, hwf, hm with
  | [], _, _, _ | [_], _, _, _ | _ :: _ :: _ :: _, _, _, _ =>
    cases familyOf ir.lowerMnemonic <;> simp [ShadowEmulator.OperandsFit]
  | [x, y], hparse, hwf, hm =>
    obtain ⟨a, b, hsplit, ha, hb⟩ := parseOperands_pair hparse
    have hs := hs a b x y hsplit ha hb
    have hx := hwf x (by simp)
    have hy := hwf y (by simp)
    generalize familyOf ir.lowerMnemonic = family at hs hm ⊢
    cases x with
    | imm v => cases family <;> trivial
    | mem base disp w =>
      cases family with
      | mov =>
        refine ReadFits.of_isSome fun hsome => ?_
        cases y with
        | imm v => trivial
        | reg name w' =>
          rintro rfl
          by_contra h8
          refine hm ⟨rfl, h8, ?_⟩
          obtain ⟨t, ht⟩ := Option.isSome_iff_exists.mp hsome
          rw [ShadowEmulator.operandTerm, canonicalReg_ah, Option.bind_some, Option.map_eq_some_iff] at ht
          obtain ⟨n, hn, -⟩ := ht
          exact hn ▸ rfl
        | mem base' disp' w' =>
          refine not_lt.mp fun hlt => hm ⟨hlt, ?_⟩
          rwa [ShadowEmulator.operandTerm, Option.isSome_map, Nat.min_eq_left hlt.le] at hsome
      | movx | binop | shift | cmp | lea | unsupported => trivial
    | reg name w =>
      have hw : OperandWidth w := operandWidth hx rfl
      cases family with
      | mov => exact readFits_of_sizes (by simp) hw hb hy hs
      | movx signed =>
        show y.width.getD 8 ≤ w
        cases hyw : y.width with
        | none => exact hw.bounds.1
        | some w' => exact (hs w' hyw).le
      | binop o =>
        refine ⟨readFits_of_sizes (by simp) hw hb hy hs, ?_⟩
        rintro v rfl hnone
        refine not_le.mp fun hv => hm ⟨?_, hv⟩
        rw [ShadowEmulator.operandTerm] at hnone
        obtain ⟨c, hc⟩ := Option.isSome_iff_exists.mp (canonicalReg_isSome hx)
        rw [hc, Option.bind_some, Option.map_eq_none_iff] at hnone
        rw [hc, Option.bind_some, hnone]
      | shift o =>
        cases y with
        | reg name' w' => exact readFits_of_sizes (by simp) hw hb hy hs
        | imm | mem => trivial
      | cmp | lea | unsupported => trivial

end Sizes

section Invariant

/-- Registers hold 64 bits, bytes of memory 8, and the sides of a comparison its width. -/
structure ShadowEmulator.Sorted (em : ShadowEmulator) : Prop where
  regs : ∀ r n, em.state.regs r = some n → em.dag.FitsSort n (.bv 64)
  memory : ∀ a n, em.state.memory a = some n → em.dag.FitsSort n (.bv 8)
  lastCmp : ∀ c, em.lastCmp = some c →
    em.dag.FitsSort c.lhs (.bv c.width) ∧ em.dag.FitsSort c.rhs (.bv c.width)

variable {em em' : ShadowEmulator} {eff : Effect} {k : Nat}

theorem new_sorted (dag : ExprDag) (base : BitVec 64) (len : BitVec 32) :
    (ShadowEmulator.new dag base len).Sorted :=
  ⟨fun _ _ h => (by cases h), fun _ _ h => (by cases h), fun _ h => (by cases h)⟩

/-- A larger DAG under the same registers, bytes and comparison. -/
theorem ShadowEmulator.Sorted.grow (hs : em.Sorted) (hg : em.dag.Grows k em'.dag) :
    (em.withDag em'.dag).Sorted :=
  ⟨fun r n hr => (hs.regs r n hr).extend hg.keeps, fun a n ha => (hs.memory a n ha).extend hg.keeps,
    fun c hc => ⟨(hs.lastCmp c hc).1.extend hg.keeps, (hs.lastCmp c hc).2.extend hg.keeps⟩⟩

/-- A typed effect keeps the sorts. -/
theorem Realizes.sorted (hs : em.Sorted) (h : Realizes k em eff em') (ht : eff.Typed) :
    em'.Sorted := by
  have hgrow := hs.grow h.grows
  have hfits : ∀ {n t s}, Represents em.state em'.dag n t → Typed t s → em'.dag.FitsSort n s :=
    fun hn ht => hn.fits hgrow.regs hgrow.memory ht
  have ho := h.outcome
  cases eff with
  | none =>
    obtain ⟨hregs, hmem, hcmp⟩ := ho
    exact ⟨fun r n hr => hgrow.regs r n (hregs ▸ hr), fun a n ha => hgrow.memory a n (hmem ▸ ha),
      fun c hc => hgrow.lastCmp c (hcmp ▸ hc)⟩
  | setReg c t =>
    obtain ⟨hmem, hcmp, r, hregs, hrep⟩ := ho
    refine ⟨fun r' n hr => ?_, fun a n ha => hgrow.memory a n (hmem ▸ ha),
      fun c hc => hgrow.lastCmp c (hcmp ▸ hc)⟩
    rw [hregs, Function.update_apply] at hr
    split at hr
    · cases hrep with
      | none => cases hr
      | some hn =>
        cases hr
        exact hfits hn (ht _ rfl)
    · exact hgrow.regs r' n hr
  | setMem addr count t =>
    obtain ⟨hregs, hcmp, hbytes, hother⟩ := ho
    refine ⟨fun r n hr => hgrow.regs r n (hregs ▸ hr), fun a n ha => ?_,
      fun c hc => hgrow.lastCmp c (hcmp ▸ hc)⟩
    by_cases hin : ∃ i < count, a = addr + BitVec.ofNat 64 i
    · obtain ⟨i, hi, rfl⟩ := hin
      have hrep := hbytes i hi
      rw [ha] at hrep
      cases t with
      | none => cases hrep
      | some t =>
        cases hrep with
        | some hn => exact hfits hn (ht t rfl i hi)
    · rw [hother a fun i hi heq => hin ⟨i, hi, heq⟩] at ha
      exact hgrow.memory a n ha
  | setCmp t =>
    obtain ⟨hregs, hmem, hcmp⟩ := ho
    refine ⟨fun r n hr => hgrow.regs r n (hregs ▸ hr), fun a n ha => hgrow.memory a n (hmem ▸ ha),
      fun c hc => ?_⟩
    rw [hc] at hcmp
    cases hcmp with
    | some hrep =>
      have htyped := ht _ rfl
      rw [hrep.width]
      exact ⟨hfits hrep.lhs htyped.1, hfits hrep.rhs htyped.2⟩

/-- A comparison of two nodes of one width is a condition. -/
theorem Compares.fits {dag : ExprDag} {rel : BranchRel} {lhs rhs p : NodeId} {w : Nat}
    (hc : Compares dag rel lhs rhs p) (hl : dag.FitsSort lhs (.bv w))
    (hr : dag.FitsSort rhs (.bv w)) : dag.FitsSort p .bool := by
  have hbool : Narrow .bool := fun w h => (by cases h)
  obtain ⟨q, hq, hp⟩ := hc
  have hqs : dag.FitsSort q .bool := by
    have hch : childrenOf (rel.compare lhs rhs).1 = [lhs, rhs] := by cases rel <;> rfl
    refine DagFold.Folds.iff.mpr ⟨_, [.bv w, .bv w], hq, ?_, ?_⟩
    · rw [hch]
      exact .cons hl (.cons hr .nil)
    · cases rel <;> exact fitsAlg_op rfl (fun _ => rfl) (by simp [Smt.Op.sort]) hbool
  split at hp
  · exact DagFold.Folds.iff.mpr ⟨_, [.bool], hp, .cons hqs .nil,
      fitsAlg_op rfl (fun _ => rfl) rfl hbool⟩
  · exact hp ▸ hqs

theorem Steps.sorted {ir : InstructionRecord} {event : Option BranchEventWithNodeIds}
    (hs : em.Sorted) (h : Steps em ir event em')
    (hfit : ∀ ops, parseOperands ir.opStr = some ops →
      em.OperandsFit (familyOf ir.lowerMnemonic) ops) : em'.Sorted := by
  cases h with
  | branch _ hb =>
    rw [hb.1]
    exact hs.grow hb.2.1
  | act _ hparse h =>
    exact h.sorted hs (effect_typed (parseOperands_wellFormed hparse) (hfit _ hparse))

theorem Steps.predicate_fits {ir : InstructionRecord} {event : BranchEventWithNodeIds}
    (hs : em.Sorted) (h : Steps em ir (some event) em') :
    em'.dag.FitsSort event.predicate .bool := by
  cases h with
  | branch _ hb =>
    obtain ⟨-, hg, ⟨-, hnone⟩ | ⟨c, p, hc, he, hcmp⟩⟩ := hb
    · cases hnone
    · cases he
      have hgrow := (hs.grow hg).lastCmp c hc
      exact hcmp.fits hgrow.1 hgrow.2

end Invariant

section Claim

/-- A node of a sort, which `sort_of` also answers. -/
def ExprDag.HoldsSort (dag : ExprDag) (n : NodeId) (s : SmtSort) : Prop :=
  dag.HasSort n s ∧ dag.sortOf n = .ok s

structure ShadowEmulator.WellSorted (em : ShadowEmulator) : Prop where
  regs : ∀ r n, em.state.regs r = some n → em.dag.HoldsSort n (.bv 64)
  memory : ∀ a n, em.state.memory a = some n → em.dag.HoldsSort n (.bv 8)
  lastCmp : ∀ c, em.lastCmp = some c →
    em.dag.HoldsSort c.lhs (.bv c.width) ∧ em.dag.HoldsSort c.rhs (.bv c.width)

variable {em : ShadowEmulator}

theorem ShadowEmulator.Sorted.wellSorted (hs : em.Sorted) (hd : em.dag.Built) : em.WellSorted :=
  ⟨fun r n hr => ⟨(hs.regs r n hr).hasSort, (hs.regs r n hr).sortOf hd⟩,
    fun a n ha => ⟨(hs.memory a n ha).hasSort, (hs.memory a n ha).sortOf hd⟩,
    fun c hc => ⟨⟨(hs.lastCmp c hc).1.hasSort, (hs.lastCmp c hc).1.sortOf hd⟩,
      (hs.lastCmp c hc).2.hasSort, (hs.lastCmp c hc).2.sortOf hd⟩⟩

/-- What a step must meet: agreeing sizes, none of the misread operands, and ids left. -/
structure ShadowEmulator.StepsSorted (em : ShadowEmulator) (ir : InstructionRecord) : Prop where
  sizes : ir.SizesAgree
  reads : ¬ em.MisreadsAt ir
  room : em.HasRoom

theorem Reached.sorted {start : ShadowEmulator} (hd : start.dag.Built) (hv : start.Valid)
    (hs : start.Sorted) (h : Reached start ShadowEmulator.StepsSorted em) :
    em.dag.Built ∧ em.Valid ∧ em.Sorted := by
  have hval : ∀ {em}, Reached start ShadowEmulator.StepsSorted em → em.dag.Built ∧ em.Valid :=
    fun h => h.valid (fun _ _ hp => hp.room) hd hv
  refine ⟨(hval h).1, (hval h).2, ?_⟩
  induction h with
  | start => exact hs
  | @step em em' ir event hreach hp hstep ih =>
    obtain ⟨hb, hv⟩ := hval hreach
    have hsteps := stepInstruction_steps hv ⟨hb, hp.room.nodes, hp.room.symbols⟩ hstep
    exact hsteps.sorted ih fun ops hparse => operandsFit_of_sizes hparse hp.sizes hp.reads

/-- In a run whose steps meet the condition every stored node has its sort, and every
predicate that is emitted is accepted. -/
theorem run_wellSorted (dag : ExprDag) (hd : dag.Built) (base : BitVec 64) (len : BitVec 32)
    (em : ShadowEmulator)
    (h : Reached (ShadowEmulator.new dag base len) ShadowEmulator.StepsSorted em) :
    em.WellSorted ∧ ∀ ir event em', em.StepsSorted ir →
      stepInstruction ir em = some (some event, em') →
        em'.WellSorted ∧ em'.dag.validate event.predicate = .ok () := by
  obtain ⟨hb, hv, hs⟩ := h.sorted hd (new_valid dag base len) (new_sorted dag base len)
  refine ⟨hs.wellSorted hb, fun ir event em' hp hstep => ?_⟩
  have hsteps := stepInstruction_steps hv ⟨hb, hp.room.nodes, hp.room.symbols⟩ hstep
  obtain ⟨hb', -, hs'⟩ := (Reached.step h hp hstep).sorted hd (new_valid dag base len)
    (new_sorted dag base len)
  exact ⟨hs'.wellSorted hb', (hsteps.predicate_fits hs).validate hb'⟩

theorem InstructionRecord.sizesAgree_of {ir : InstructionRecord} {a b : List Char} {x y : Operand}
    (hsplit : splitOperands ir.opStr.toList 0 [] = [a, b]) (ha : parseSingleOperand a = some x)
    (hb : parseSingleOperand b = some y)
    (h : Concolic.SizesAgree (familyOf ir.lowerMnemonic) a b x y) : ir.SizesAgree := by
  intro a' b' x' y' hsplit' ha' hb'
  cases hsplit.symm.trans hsplit'
  cases ha.symm.trans ha'
  cases hb.symm.trans hb'
  exact h

/-- A load of a register is well-sorted. -/
example : printedWidth "qword ptr [rdi]".toList = some 64 := by decide

theorem run_wellSorted_load : ∃ event em,
    stepInstruction ⟨0, "mov", "rax, qword ptr [rdi]"⟩ (.new .new 0 8) = some (event, em) ∧
      (em.state.regs .rax).isSome ∧ em.WellSorted := by
  have hsome : ((stepInstruction ⟨0, "mov", "rax, qword ptr [rdi]"⟩ (.new .new 0 8)).any
      fun p => (p.2.state.regs .rax).isSome) = true := by decide +kernel
  obtain ⟨⟨event, em⟩, hstep, hrax⟩ := (Option.any_eq_true _ _).mp hsome
  refine ⟨event, em, hstep, hrax, ?_⟩
  have hparse : parseOperands "rax, qword ptr [rdi]" =
      some [.reg "rax".toList 64, .mem (some "rdi".toList) 0 64] := by decide +kernel
  have hmov : familyOf (InstructionRecord.lowerMnemonic ⟨0, "mov", "rax, qword ptr [rdi]"⟩) = .mov := by
    decide +kernel
  refine (run_wellSorted .new .new 0 8 em (.step .start ⟨?_, ?_, ?_⟩ hstep)).1
  · refine InstructionRecord.sizesAgree_of (a := "rax".toList) (b := " qword ptr [rdi]".toList)
      (x := .reg "rax".toList 64) (y := .mem (some "rdi".toList) 0 64) (by decide +kernel)
      (by decide +kernel) (by decide +kernel) ?_
    rw [hmov]
    exact fun k hk => (Option.some.inj (Option.mem_def.mp hk ▸ (by decide +kernel))).symm
  · rintro ⟨ops, hops, h⟩
    cases hparse.symm.trans hops
    rw [hmov] at h
    exact h
  · exact ⟨by decide, by decide⟩

def storesHighByte : List InstructionRecord :=
  [⟨0x1000, "mov", "rax, qword ptr [rdi]"⟩, ⟨0x1003, "mov", "[rdi+0x100], ah"⟩,
    ⟨0x1009, "mov", "rcx, [rdi+0x100]"⟩, ⟨0x1010, "cmp", "rcx, 1"⟩, ⟨0x1014, "je", "0x2000"⟩]

example : storesHighByte.map (fun ir => familyOf ir.lowerMnemonic) =
    [.mov, .mov, .mov, .cmp false, .unsupported] := by decide

theorem storesHighByte_sizesAgree : ∀ ir ∈ storesHighByte, ir.SizesAgree := by
  simp only [storesHighByte, List.forall_mem_cons, List.not_mem_nil, false_imp_iff, implies_true,
    and_true]
  refine ⟨?_, ?_, ?_, ?_, ?_⟩
  · refine InstructionRecord.sizesAgree_of (a := "rax".toList) (b := " qword ptr [rdi]".toList)
      (x := .reg "rax".toList 64) (y := .mem (some "rdi".toList) 0 64) (by decide)
      (by decide) (by decide) ?_
    rw [(by decide : familyOf _ = .mov)]
    exact fun k hk => (Option.some.inj (Option.mem_def.mp hk ▸ (by decide))).symm
  · refine InstructionRecord.sizesAgree_of (a := "[rdi+0x100]".toList) (b := " ah".toList)
      (x := .mem (some "rdi".toList) 0x100 64) (y := .reg "ah".toList 8) (by decide)
      (by decide) (by decide) ?_
    rw [(by decide : familyOf _ = .mov)]
    exact fun k hk => absurd (Option.mem_def.mp hk) (by decide +revert)
  · refine InstructionRecord.sizesAgree_of (a := "rcx".toList) (b := " [rdi+0x100]".toList)
      (x := .reg "rcx".toList 64) (y := .mem (some "rdi".toList) 0x100 64) (by decide)
      (by decide) (by decide) ?_
    rw [(by decide : familyOf _ = .mov)]
    exact fun k hk => absurd (Option.mem_def.mp hk) (by decide +revert)
  · refine InstructionRecord.sizesAgree_of (a := "rcx".toList) (b := " 1".toList) (x := .reg "rcx".toList 64)
      (y := .imm 1) (by decide) (by decide) (by decide) ?_
    rw [(by decide : familyOf _ = .cmp false)]
    trivial
  · intro a b x y hsplit
    have : splitOperands "0x2000".toList 0 [] = ["0x2000".toList] := by decide
    cases this.symm.trans hsplit

/-- The store of `ah` spoils the byte that the comparison reads. -/
theorem run_missorts_highByte : (∀ ir ∈ storesHighByte, ir.SizesAgree) ∧
    ∃ events em event, stepAll storesHighByte (.new .new 0 8) = some (events, em) ∧
      some event ∈ events ∧ em.dag.validate event.predicate ≠ .ok () := by
  refine ⟨storesHighByte_sizesAgree, ?_⟩
  have hrun : ((stepAll storesHighByte (.new .new 0 8)).any fun p => p.1.any fun e =>
      e.any fun e => decide (p.2.dag.validate e.predicate ≠ .ok ())) = true := by decide +kernel
  obtain ⟨⟨events, em⟩, hstep, hbad⟩ := (Option.any_eq_true _ _).mp hrun
  obtain ⟨e, he, hbad⟩ := List.any_eq_true.mp hbad
  obtain ⟨event, rfl, hbad⟩ := (Option.any_eq_true _ _).mp hbad
  exact ⟨events, em, event, hstep, he, of_decide_eq_true hbad⟩

example : printedWidth "[rdi+0x100]".toList = none := by decide

end Claim

end Axe.Concolic
