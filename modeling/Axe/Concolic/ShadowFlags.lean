import Axe.Concolic.ShadowRuns

/-!
# Which comparison a branch is about

Only a comparison of two operands touches the recorded comparison. A branch is
therefore about the last one before it, whatever has been written to the flags
since.
-/
namespace Axe.Concolic

open Shadow (intern internSymbol checked)

section Keeps
variable {α β : Type}

/-- The computation leaves the recorded comparison as it is. -/
def Keeps (m : Shadow α) : Prop :=
  ∀ em a em', m em = some (a, em') → em'.lastCmp = em.lastCmp

theorem Keeps.pure (a : α) : Keeps (pure a) := by
  rintro em a' em' ⟨⟩
  rfl

theorem Keeps.bind {m : Shadow α} {f : α → Shadow β} (hm : Keeps m) (hf : ∀ a, Keeps (f a)) :
    Keeps (m >>= f) := by
  intro em b em'' h
  obtain ⟨⟨a, em'⟩, ha, hb⟩ := Option.bind_eq_some_iff.mp h
  exact (hf a em' b em'' hb).trans (hm em a em' ha)

theorem Keeps.get : Keeps (get : Shadow ShadowEmulator) := by
  rintro em a em' ⟨⟩
  rfl

theorem Keeps.modify {f : ShadowEmulator → ShadowEmulator} (h : ∀ em, (f em).lastCmp = em.lastCmp) :
    Keeps (modify f : Shadow Unit) := by
  rintro em a em' ⟨⟩
  exact h em

theorem Keeps.checked (o : Option α) : Keeps (checked o) := by
  intro em a em' h
  obtain ⟨a', -, hp⟩ := Option.map_eq_some_iff.mp h
  cases hp
  rfl

theorem Keeps.intern (e : Expr) : Keeps (intern e) := by
  rintro em a em' ⟨⟩
  rfl

theorem Keeps.internSymbol (name : String) : Keeps (internSymbol name) := by
  rintro em a em' ⟨⟩
  rfl

theorem Keeps.map {f : α → β} {m : Shadow α} (h : Keeps m) : Keeps (f <$> m) := by
  intro em b em' hm
  obtain ⟨⟨a, em''⟩, ha, hp⟩ := Option.bind_eq_some_iff.mp hm
  cases hp
  exact h em a em' ha

theorem Keeps.forM {f : α → Shadow Unit} (h : ∀ a, Keeps (f a)) (l : List α) :
    Keeps (l.forM f) := by
  induction l with
  | nil => exact .pure ()
  | cons a l ih => exact (h a).bind fun _ => ih

theorem concatBytes_keeps {byte : Nat → Shadow (Option NodeId)} (h : ∀ i, Keeps (byte i))
    (is : List Nat) (acc : Option NodeId) : Keeps (concatBytes byte is acc) := by
  induction is generalizing acc with
  | nil => exact .pure acc
  | cons i is ih =>
    refine (h i).bind fun b => ?_
    cases b with
    | none => exact .pure none
    | some b =>
      cases acc with
      | none => exact ih _
      | some low => exact (Keeps.intern _).bind fun n => ih _

theorem readMemoryRegion_keeps (base : Option (List Char)) (disp : BitVec 64) (w : Nat) :
    Keeps (readMemoryRegion base disp w) := by
  unfold readMemoryRegion
  split
  · exact .pure none
  · refine Keeps.get.bind fun em => ?_
    dsimp only
    split
    · exact .pure none
    · refine (Keeps.checked _).bind fun b => ?_
      cases b with
      | true =>
        refine concatBytes_keeps (fun i => (Keeps.checked _).bind fun index => ?_) _ _
        exact ((Keeps.internSymbol _).bind fun _ => .intern _).map
      | false =>
        exact concatBytes_keeps (fun i => (Keeps.checked _).bind fun _ => Keeps.get.bind fun _ => .pure _) _ _

theorem narrowTo_keeps (full w : Nat) (isAh : Bool) : Keeps (narrowTo full w isAh) := by
  unfold narrowTo
  split
  · exact .intern _
  · split
    · exact .pure full
    · exact .intern _

theorem readOperand_keeps (op : Operand) (w : Nat) : Keeps (readOperand op w) := by
  cases op with
  | imm v => exact (Keeps.intern _).map
  | reg name width =>
    refine Keeps.get.bind fun em => ?_
    split
    · exact .pure none
    · exact (narrowTo_keeps _ _ _).map
  | mem base disp width =>
    refine (readMemoryRegion_keeps _ _ _).bind fun r => ?_
    cases r with
    | none => exact .pure none
    | some load => exact (narrowTo_keeps _ _ _).map

theorem widenTo64_keeps (n : Option NodeId) (w : Nat) : Keeps (widenTo64 n w) := by
  cases n with
  | none => exact .pure none
  | some n =>
    show Keeps (if 64 ≤ w then _ else _)
    split
    · exact .pure _
    · exact (Keeps.intern _).map

theorem writeReg64_keeps (name : List Char) (r : Option NodeId) : Keeps (writeReg64 name r) := by
  unfold writeReg64
  split
  · exact .modify fun _ => rfl
  · exact .pure ()

theorem writeMemoryRegion_keeps (base : Option (List Char)) (disp : BitVec 64) (w : Nat)
    (value : Option NodeId) : Keeps (writeMemoryRegion base disp w value) := by
  unfold writeMemoryRegion
  split
  · exact .pure ()
  · refine Keeps.get.bind fun em => Keeps.forM (fun i => ?_) _
    have hbyte : Keeps (value.mapM fun v => intern (.extract (i * 8 + 7) (i * 8) v)) := by
      cases value with
      | none => exact .pure none
      | some v => exact (Keeps.intern _).map
    exact hbyte.bind fun _ => (Keeps.checked _).bind fun _ => .modify fun _ => rfl

theorem binopResult_keeps (op : Binop) (src : Operand) (w : Nat) (lhs rhs : Option NodeId) :
    Keeps (binopResult op src w lhs rhs) := by
  have himm : ∀ l, Keeps (do
      let cv ← intern (.bvConst (((literalValue src).getD 0).setWidth 128) w)
      some <$> intern (op.toExpr l cv)) := fun l => (Keeps.intern _).bind fun _ => (Keeps.intern _).map
  cases lhs <;> cases rhs <;> cases src <;>
    first | exact .pure none | exact himm _ | exact (Keeps.intern _).map

theorem stepUnsupported_keeps (ops : List Operand) : Keeps (stepUnsupported ops) := by
  unfold stepUnsupported
  split
  · split
    · refine .modify fun em => ?_
      split <;> rfl
    · exact .pure ()
  · exact .pure ()

/-- No other family touches the comparison. -/
theorem stepFamily_keeps {family : Family} (h : ∀ b, family ≠ .cmp b) (ops : List Operand) :
    Keeps (stepFamily family ops) := by
  cases family with
  | mov =>
    show Keeps (stepMov ops)
    unfold stepMov
    split
    · exact (readOperand_keeps _ _).bind fun _ => (widenTo64_keeps _ _).bind fun _ => writeReg64_keeps _ _
    · exact (readOperand_keeps _ _).bind fun _ => writeMemoryRegion_keeps _ _ _ _
    · exact .pure ()
  | movx signed =>
    show Keeps (stepMovzxOrSx ops signed)
    unfold stepMovzxOrSx
    split
    · refine (readOperand_keeps _ _).bind fun n => ?_
      have hext : ∀ extra, Keeps (extendBy extra signed n) := by
        intro extra
        cases n with
        | none => exact .pure none
        | some n =>
          show Keeps (if extra > 0 then _ else _)
          split
          · exact (Keeps.intern _).map
          · exact .pure _
      exact (hext _).bind fun _ => (widenTo64_keeps _ _).bind fun _ => writeReg64_keeps _ _
    · exact .pure ()
  | binop op =>
    show Keeps (stepBinop ops op)
    unfold stepBinop
    split
    · exact (readOperand_keeps _ _).bind fun _ => (readOperand_keeps _ _).bind fun _ =>
        (binopResult_keeps _ _ _ _ _).bind fun _ => (widenTo64_keeps _ _).bind fun _ =>
          writeReg64_keeps _ _
    · exact .pure ()
  | shift shift =>
    show Keeps (stepShift ops shift)
    unfold stepShift
    split
    · rename_i name w src
      have hamount : Keeps (shiftAmount src w) := by
        cases src with
        | imm v => exact (Keeps.intern _).map
        | reg name w' => exact readOperand_keeps (.reg name w') w
        | mem => exact .pure none
      have hresult : ∀ l a, Keeps (shiftResult shift l a) := fun l a => by
        cases l <;> cases a <;> first | exact .pure none | exact (Keeps.intern _).map
      exact (readOperand_keeps _ _).bind fun _ => hamount.bind fun _ =>
        (hresult _ _).bind fun _ => (widenTo64_keeps _ _).bind fun _ => writeReg64_keeps _ _
    · exact .pure ()
  | cmp b => exact absurd rfl (h b)
  | lea =>
    show Keeps (stepLea ops)
    unfold stepLea
    split
    · refine Keeps.get.bind fun em => ?_
      split
      · exact (Keeps.intern _).bind fun _ => (Keeps.intern _).bind fun _ => writeReg64_keeps _ _
      · exact writeReg64_keeps _ _
    · exact .pure ()
  | unsupported => exact stepUnsupported_keeps ops

theorem buildPredicate_keeps (rel : BranchRel) (l r : NodeId) : Keeps (buildPredicate rel l r) := by
  cases rel <;> first | exact .intern _ | exact (Keeps.intern _).bind fun _ => .intern _

theorem emitBranchEvent_keeps (va : BitVec 64) (m : List Char) (rel : BranchRel) :
    Keeps (emitBranchEvent va m rel) := by
  refine Keeps.get.bind fun em => ?_
  split
  · exact .pure none
  · exact (buildPredicate_keeps _ _ _).bind fun _ => .pure _

end Keeps

section History

/-- The arithmetic flags. -/
inductive Flag where
  | cf | zf | sf | of
  deriving DecidableEq, Repr

/-- The flags a jump depends on. -/
def BranchRel.reads : BranchRel → List Flag
  | .eq | .ne => [.zf]
  | .ugt | .ule => [.cf, .zf]
  | .uge | .ult => [.cf]
  | .sgt | .sle => [.zf, .sf, .of]
  | .sge | .slt => [.sf, .of]

/-- A comparison of two operands. -/
def InstructionRecord.IsCompare (ir : InstructionRecord) : Prop :=
  (∃ isTest, familyOf ir.lowerMnemonic = .cmp isTest) ∧
    ∃ a b, parseOperands ir.opStr = some [a, b]

variable {em em' : ShadowEmulator} {ir : InstructionRecord} {irs : List InstructionRecord}
  {event : Option BranchEventWithNodeIds} {writes : InstructionRecord → Flag → Prop}

theorem run_bind {α β : Type} {m : Shadow α} {f : α → Shadow β} {r : β × ShadowEmulator}
    (h : (m >>= f) em = some r) : ∃ a em₁, m em = some (a, em₁) ∧ f a em₁ = some r := by
  obtain ⟨⟨a, em₁⟩, ha, hb⟩ := Option.bind_eq_some_iff.mp h
  exact ⟨a, em₁, ha, hb⟩

theorem bind_run {α β : Type} {m : Shadow α} {f : α → Shadow β} {a : α} {em₁ : ShadowEmulator}
    {r : β × ShadowEmulator} (ha : m em = some (a, em₁)) (hb : f a em₁ = some r) :
    (m >>= f) em = some r :=
  Option.bind_eq_some_iff.mpr ⟨(a, em₁), ha, hb⟩

/-- Every other instruction leaves the comparison as it is. -/
theorem stepInstruction_lastCmp (h : stepInstruction ir em = some (event, em'))
    (hc : ¬ ir.IsCompare) : em'.lastCmp = em.lastCmp := by
  unfold stepInstruction at h
  obtain ⟨ops, em₁, hops, h⟩ := run_bind h
  obtain ⟨ops', hparse, hpair⟩ := Option.map_eq_some_iff.mp hops
  cases hpair
  cases hrel : relationForBranch ir.lowerMnemonic with
  | some rel =>
    simp only [hrel] at h
    exact emitBranchEvent_keeps _ _ _ _ _ _ h
  | none =>
    simp only [hrel] at h
    obtain ⟨u, em₂, hact, h⟩ := run_bind h
    cases h
    by_cases hcmp : ∃ b, familyOf ir.lowerMnemonic = .cmp b
    · obtain ⟨b, hb⟩ := hcmp
      rw [hb] at hact
      change stepCmp ops b em = some (u, em') at hact
      unfold stepCmp at hact
      split at hact
      · exact absurd ⟨⟨b, hb⟩, _, _, hparse⟩ hc
      · cases hact
        rfl
    · exact stepFamily_keeps (fun b hb => hcmp ⟨b, hb⟩) ops em u em' hact

theorem stepAll_append {before after : List InstructionRecord}
    {events : List (Option BranchEventWithNodeIds)}
    (h : stepAll (before ++ after) em = some (events, em')) :
    ∃ e₁ em₁ e₂, stepAll before em = some (e₁, em₁) ∧ stepAll after em₁ = some (e₂, em') := by
  induction before generalizing em events with
  | nil => exact ⟨[], em, events, rfl, h⟩
  | cons ir before ih =>
    obtain ⟨e, em₁, hstep, h⟩ := run_bind h
    obtain ⟨es, em₂, hrest, h⟩ := run_bind h
    cases h
    obtain ⟨e₁, em₃, e₂, hbefore, hafter⟩ := ih hrest
    refine ⟨e :: e₁, em₃, e₂, ?_, hafter⟩
    rw [stepAll]
    exact bind_run hstep (bind_run hbefore rfl)

theorem stepAll_lastCmp {events : List (Option BranchEventWithNodeIds)}
    (h : stepAll irs em = some (events, em')) (hc : ∀ ir ∈ irs, ¬ ir.IsCompare) :
    em'.lastCmp = em.lastCmp := by
  induction irs generalizing em events with
  | nil =>
    cases h
    rfl
  | cons ir irs ih =>
    obtain ⟨e, em₁, hstep, h⟩ := run_bind h
    obtain ⟨es, em₂, hrest, h⟩ := run_bind h
    cases h
    exact (ih hrest fun ir h => hc ir (by simp [h])).trans
      (stepInstruction_lastCmp hstep (hc ir (by simp)))

/-- A run up to its last comparison, the comparison, and the rest. -/
structure LastCompareAt (irs before : List InstructionRecord) (ir : InstructionRecord)
    (after : List InstructionRecord) : Prop where
  split : irs = before ++ ir :: after
  compare : ir.IsCompare
  last : ∀ ir' ∈ after, ¬ ir'.IsCompare

theorem exists_lastCompareAt (h : ∃ ir ∈ irs, ir.IsCompare) :
    ∃ before ir after, LastCompareAt irs before ir after := by
  induction irs with
  | nil =>
    obtain ⟨ir, hir, -⟩ := h
    cases hir
  | cons ir irs ih =>
    by_cases hrest : ∃ ir ∈ irs, ir.IsCompare
    · obtain ⟨before, ir', after, hsplit, hcmp, hlast⟩ := ih hrest
      exact ⟨ir :: before, ir', after, by rw [hsplit]; rfl, hcmp, hlast⟩
    · obtain ⟨ir', hir', hcmp⟩ := h
      obtain rfl | hmem := List.mem_cons.mp hir'
      · exact ⟨[], ir', irs, rfl, hcmp, fun ir h hc => hrest ⟨ir, h, hc⟩⟩
      · exact absurd ⟨ir', hmem, hcmp⟩ hrest

/-- A list has one last element with a property. -/
theorem split_unique {α : Type} {P : α → Prop} {b b' s s' : List α} {x x' : α}
    (h : b ++ x :: s = b' ++ x' :: s') (hx : P x) (hs : ∀ y ∈ s, ¬ P y) (hx' : P x')
    (hs' : ∀ y ∈ s', ¬ P y) : b = b' ∧ x = x' ∧ s = s' := by
  obtain ⟨m, hb, hm⟩ | ⟨m, hb, hm⟩ := List.append_eq_append_iff.mp h
  · cases m with
    | nil =>
      cases hm
      exact ⟨by simp [hb], rfl, rfl⟩
    | cons z m =>
      cases hm
      exact absurd hx' (hs x' (by simp))
  · cases m with
    | nil =>
      cases hm
      exact ⟨by simp [hb], rfl, rfl⟩
    | cons z m =>
      cases hm
      exact absurd hx (hs' x (by simp))

/-- The comparison `ir` after `before` records is the one that is at hand in `em`. -/
def Records (start : ShadowEmulator) (before : List InstructionRecord) (ir : InstructionRecord)
    (c : LastCompare) : Prop :=
  ∃ events em₁ e em₂, stepAll before start = some (events, em₁) ∧
    stepInstruction ir em₁ = some (e, em₂) ∧ em₂.lastCmp = some c

/-- The comparison at hand is the one the last comparison of the run has recorded. -/
theorem records_of_lastCompareAt {start : ShadowEmulator} {before after : List InstructionRecord}
    {events : List (Option BranchEventWithNodeIds)} {c : LastCompare}
    (hrun : stepAll irs start = some (events, em)) (hc : em.lastCmp = some c)
    (h : LastCompareAt irs before ir after) : Records start before ir c := by
  rw [h.split] at hrun
  obtain ⟨e₁, em₁, e₂, hbefore, hrest⟩ := stepAll_append hrun
  obtain ⟨e, em₂, hstep, hrest⟩ := run_bind hrest
  obtain ⟨es, em₃, hafter, hrest⟩ := run_bind hrest
  cases hrest
  exact ⟨e₁, em₁, e, em₂, hbefore, hstep, (stepAll_lastCmp hafter h.last).symm.trans hc⟩

/-- The comparison of an event is one the run has recorded, and nothing after it writes a
flag that the jump reads. -/
def Live (writes : InstructionRecord → Flag → Prop) (start : ShadowEmulator)
    (irs : List InstructionRecord) (rel : BranchRel) (event : BranchEventWithNodeIds) : Prop :=
  ∃ before ir after, irs = before ++ ir :: after ∧ Records start before ir event.lastCmp ∧
    ir.IsCompare ∧ (∀ f ∈ rel.reads, writes ir f) ∧ ∀ ir' ∈ after, ∀ f ∈ rel.reads, ¬ writes ir' f

/-- No instruction after the last comparison writes a flag that the jump reads. -/
def FlagsKept (writes : InstructionRecord → Flag → Prop) (irs : List InstructionRecord)
    (rel : BranchRel) : Prop :=
  ∀ before ir after, LastCompareAt irs before ir after →
    ∀ ir' ∈ after, ∀ f ∈ rel.reads, ¬ writes ir' f

theorem BranchRel.reads_ne_nil (rel : BranchRel) : ∃ f, f ∈ rel.reads := by
  cases rel <;> exact ⟨_, List.mem_cons_self⟩

/-- With a comparison at hand a jump emits an event about it. -/
theorem stepInstruction_emits {rel : BranchRel} {c : LastCompare} {ops : List Operand}
    (hops : parseOperands ir.opStr = some ops) (hrel : relationForBranch ir.lowerMnemonic = some rel)
    (hc : em.lastCmp = some c) :
    ∃ event em', stepInstruction ir em = some (some event, em') ∧ event.lastCmp = c := by
  obtain ⟨p, em', hp⟩ : ∃ p em', buildPredicate rel c.lhs c.rhs em = some (p, em') := by
    cases rel <;> exact ⟨_, _, rfl⟩
  refine ⟨⟨ir.address, ir.lowerMnemonic, p, c.width, c⟩, em', ?_, rfl⟩
  unfold stepInstruction emitBranchEvent
  refine bind_run (a := ops) (by rw [hops]; rfl) ?_
  simp only [hrel]
  refine bind_run (a := em) rfl ?_
  simp only [hc]
  exact bind_run hp rfl

theorem stepInstruction_event {rel : BranchRel} {event : BranchEventWithNodeIds}
    (hrel : relationForBranch ir.lowerMnemonic = some rel)
    (h : stepInstruction ir em = some (some event, em')) :
    (∃ ops, parseOperands ir.opStr = some ops) ∧ em.lastCmp = some event.lastCmp := by
  unfold stepInstruction at h
  obtain ⟨ops, em₁, hops, h⟩ := run_bind h
  obtain ⟨ops', hparse, hpair⟩ := Option.map_eq_some_iff.mp hops
  cases hpair
  refine ⟨⟨_, hparse⟩, ?_⟩
  simp only [hrel] at h
  have h := run_get_bind h
  cases hc : em.lastCmp with
  | none =>
    simp only [hc] at h
    cases h
  | some c =>
    simp only [hc] at h
    obtain ⟨p, em₁, hp, h⟩ := run_bind h
    cases h
    rfl

/-- A jump is about live flags exactly when nothing after the last comparison writes a flag
it reads, unless it emits nothing. -/
theorem branch_flags_live_iff (hcmp : ∀ ir, ir.IsCompare → ∀ f, writes ir f) (dag : ExprDag)
    (base : BitVec 64) (len : BitVec 32) (irs : List InstructionRecord)
    (events : List (Option BranchEventWithNodeIds)) (em : ShadowEmulator)
    (hrun : stepAll irs (.new dag base len) = some (events, em)) (ir : InstructionRecord)
    (rel : BranchRel) (hrel : relationForBranch ir.lowerMnemonic = some rel) :
    (∀ event em', stepInstruction ir em = some (some event, em') →
        Live writes (.new dag base len) irs rel event) ↔
      em.lastCmp = none ∨ parseOperands ir.opStr = none ∨ FlagsKept writes irs rel := by
  have hcompared : ∀ c, em.lastCmp = some c → ∃ ir ∈ irs, ir.IsCompare := by
    intro c hc
    by_contra hno
    have hkeep := stepAll_lastCmp hrun fun ir hir h => hno ⟨ir, hir, h⟩
    cases hc.symm.trans hkeep
  constructor
  · intro h
    cases hc : em.lastCmp with
    | none => exact .inl rfl
    | some c =>
      cases hops : parseOperands ir.opStr with
      | none => exact .inr (.inl rfl)
      | some ops =>
        refine .inr (.inr ?_)
        obtain ⟨event, em', hstep, -⟩ := stepInstruction_emits hops hrel hc
        obtain ⟨before, cmp, after, hsplit, -, hcompare, -, hkept⟩ := h event em' hstep
        have hlast : ∀ ir' ∈ after, ¬ ir'.IsCompare := fun ir' hir' h' => by
          obtain ⟨f, hf⟩ := rel.reads_ne_nil
          exact hkept ir' hir' f hf (hcmp ir' h' f)
        intro before' cmp' after' hat
        obtain ⟨-, -, rfl⟩ := split_unique (hsplit.symm.trans hat.split) hcompare hlast hat.compare
          hat.last
        exact hkept
  · intro h event em' hstep
    obtain ⟨⟨ops, hops⟩, hc⟩ := stepInstruction_event hrel hstep
    obtain h | h | h := h
    · cases h.symm.trans hc
    · cases h.symm.trans hops
    · obtain ⟨before, cmp, after, hat⟩ := exists_lastCompareAt (hcompared _ hc)
      exact ⟨before, cmp, after, hat.split, records_of_lastCompareAt hrun hc hat, hat.compare,
        fun f _ => hcmp cmp hat.compare f, h before cmp after hat⟩

end History

section Table

/-- The flags that the common arithmetic instructions write. -/
def writesFlag (ir : InstructionRecord) (f : Flag) : Prop :=
  String.ofList ir.lowerMnemonic ∈ ["cmp", "test", "add", "sub", "and", "or", "xor", "imul", "shl",
    "sal", "shr", "sar", "neg", "adc", "sbb"] ∨
  String.ofList ir.lowerMnemonic ∈ ["inc", "dec"] ∧ f ≠ .cf

theorem writesFlag_compare (ir : InstructionRecord) (h : ir.IsCompare) (f : Flag) :
    writesFlag ir f := by
  obtain ⟨⟨isTest, hfam⟩, -⟩ := h
  unfold familyOf at hfam
  left
  split at hfam <;> try cases hfam
  all_goals simp [*]

def loadAndCompare : List InstructionRecord :=
  [⟨0x1000, "mov", "eax, dword ptr [rdi]"⟩, ⟨0x1002, "cmp", "eax, 5"⟩]

example : loadAndCompare.map (fun ir => familyOf ir.lowerMnemonic) = [.mov, .cmp false] := by
  decide

/-- A jump right after a comparison. -/
theorem branch_flags_live_je : ∃ events em event em',
    stepAll loadAndCompare (.new .new 0 8) = some (events, em) ∧
      stepInstruction ⟨0x1005, "je", "0x2000"⟩ em = some (some event, em') ∧
      Live writesFlag (.new .new 0 8) loadAndCompare .eq event := by
  have hrun : ((stepAll loadAndCompare (.new .new 0 8)).any fun p =>
      (stepInstruction ⟨0x1005, "je", "0x2000"⟩ p.2).any fun q => q.1.isSome) = true := by
    decide +kernel
  obtain ⟨⟨events, em⟩, hrun, hjump⟩ := (Option.any_eq_true _ _).mp hrun
  obtain ⟨⟨e, em'⟩, hstep, he⟩ := (Option.any_eq_true _ _).mp hjump
  obtain ⟨event, rfl⟩ := Option.isSome_iff_exists.mp he
  refine ⟨events, em, event, em', hrun, hstep, ?_⟩
  refine (branch_flags_live_iff writesFlag_compare .new 0 8 loadAndCompare events em hrun
    ⟨0x1005, "je", "0x2000"⟩ .eq (by decide +kernel)).mpr (.inr (.inr ?_)) event em' hstep
  intro before ir after hat
  have hcmp : InstructionRecord.IsCompare ⟨0x1002, "cmp", "eax, 5"⟩ :=
    ⟨⟨false, by decide +kernel⟩, .reg "eax".toList 32, .imm 5, by decide +kernel⟩
  have hsplit : [⟨0x1000, "mov", "eax, dword ptr [rdi]"⟩] ++ ⟨0x1002, "cmp", "eax, 5"⟩ :: [] =
      before ++ ir :: after := hat.split
  obtain ⟨-, -, rfl⟩ := split_unique hsplit hcmp (by simp) hat.compare hat.last
  exact fun _ h => (by cases h)

/-- An addition after the comparison writes the flag that the jump reads. -/
theorem branch_event_stale : ∃ events em event em',
    stepAll (loadAndCompare ++ [⟨0x1005, "add", "eax, 1"⟩]) (.new .new 0 8) = some (events, em) ∧
      stepInstruction ⟨0x1008, "je", "0x2000"⟩ em = some (some event, em') ∧
      ¬ Live writesFlag (.new .new 0 8) (loadAndCompare ++ [⟨0x1005, "add", "eax, 1"⟩]) .eq event := by
  have hrun : ((stepAll (loadAndCompare ++ [⟨0x1005, "add", "eax, 1"⟩]) (.new .new 0 8)).any fun p =>
      (stepInstruction ⟨0x1008, "je", "0x2000"⟩ p.2).any fun q => q.1.isSome) = true := by
    decide +kernel
  obtain ⟨⟨events, em⟩, hrun, hjump⟩ := (Option.any_eq_true _ _).mp hrun
  obtain ⟨⟨e, em'⟩, hstep, he⟩ := (Option.any_eq_true _ _).mp hjump
  obtain ⟨event, rfl⟩ := Option.isSome_iff_exists.mp he
  refine ⟨events, em, event, em', hrun, hstep, ?_⟩
  rintro ⟨before, ir, after, hsplit, -, ⟨⟨isTest, hfam⟩, -⟩, -, hkept⟩
  have hadd : familyOf (InstructionRecord.lowerMnemonic ⟨0x1005, "add", "eax, 1"⟩) = .binop .add := by
    decide +kernel
  have hwrites : writesFlag ⟨0x1005, "add", "eax, 1"⟩ .zf := .inl (by decide +kernel)
  obtain rfl | ⟨rest, last, rfl⟩ := List.eq_nil_or_concat after
  · have := (List.append_inj' hsplit rfl).2
    cases this
    cases hadd.symm.trans hfam
  · rw [List.concat_eq_append, ← List.cons_append, ← List.append_assoc] at hsplit
    have := (List.append_inj' hsplit rfl).2
    cases this
    exact hkept _ (by simp) .zf (by simp [BranchRel.reads]) hwrites

/-- The carry is kept by `inc`. -/
example : ¬ writesFlag ⟨0x1000, "inc", "eax"⟩ .cf := by
  unfold writesFlag
  decide

end Table

end Axe.Concolic
