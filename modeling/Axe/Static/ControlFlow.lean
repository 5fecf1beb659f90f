import Mathlib.Data.List.Nodup
import Axe.Static.Blocks

/-!
# What the control flow graph says of a function

The edges of the graph against the transfers of control, and its blocks against the notion
of a basic block.
-/
namespace Axe.Static

variable {instructions insns : List InstructionRecord} {function : FunctionRecord}
  {ins i j k : InstructionRecord} {b : BasicBlockRecord} {r : CfgRecord} {s stop va : Nat}
  {starts : List Nat}

/-- Control can pass directly from one instruction to another. -/
def TransfersTo (i j : InstructionRecord) : Prop :=
  i.branchTarget = some j.address ∨
    (j.address = i.nextAddr ∧ i.isRet = false ∧ ¬(i.isJump = true ∧ i.isJmp = true))

def SameBlock (r : CfgRecord) (i k : InstructionRecord) : Prop :=
  ∃ b ∈ r.blocks, b.Holds i ∧ b.Holds k

def LastOfBlock (instructions : List InstructionRecord) (function : FunctionRecord)
    (r : CfgRecord) (ins : InstructionRecord) : Prop :=
  ∀ k, InFunction instructions function k → SameBlock r ins k → k.address ≤ ins.address

/-- Each transfer that leaves a block, or leaves it from its last instruction, has an edge. -/
def CoversTransfers (instructions : List InstructionRecord) (function : FunctionRecord)
    (r : CfgRecord) : Prop :=
  ∀ i j, InFunction instructions function i → InFunction instructions function j →
    TransfersTo i j → (¬ SameBlock r i j ∨ LastOfBlock instructions function r i) →
    ∃ e ∈ r.edges, e.target = j.address ∧
      ∃ k, InFunction instructions function k ∧ e.source = k.address ∧ SameBlock r k i

def Plain (ins : InstructionRecord) : Prop :=
  ins.isCall = false ∧ ins.isJump = false ∧ ins.isRet = false

/-- Wherever a branch target separates a plain instruction from the next one, the run of
instructions up to the plain one also branches to the next one. -/
def SplitsAreBranchedTo (instructions : List InstructionRecord) (function : FunctionRecord) :
    Prop :=
  ∀ i j, InFunction instructions function i → InFunction instructions function j →
    Plain i → j.address = i.nextAddr →
    (∃ m target, InFunction instructions function m ∧ m.branchTarget = some target ∧
      i.address < target ∧ target ≤ j.address) →
    ∃ k, InFunction instructions function k ∧ k.branchTarget = some j.address ∧
      ∀ t, Leader instructions function t → (t ≤ k.address ↔ t ≤ i.address)

theorem exists_record (hno : NonOverlapping instructions)
    (hins : InFunction instructions function ins) :
    ∃ r, functionCfg instructions function = some r :=
  ⟨_, functionCfg_eq_some.mpr
    ⟨List.ne_nil_of_mem ((mem_functionInsns hno).mpr hins), rfl⟩⟩

/-- The edges out of an instruction. -/
theorem exists_edge_from (hno : NonOverlapping instructions)
    (hr : functionCfg instructions function = some r) (hi : InFunction instructions function i) :
    (∃ e ∈ r.edges, e.source = i.address ∧ e.target = va) ↔
      (i.branchTarget = some va ∧ function.Covers va) ∨
        ((i.isCall = true ∨ (i.isJump = true ∧ i.isJmp = false)) ∧ va = i.nextAddr ∧
          ∃ j, InFunction instructions function j ∧ j.address = va) := by
  obtain ⟨_, rfl⟩ := functionCfg_eq_some.mp hr
  have hout : (∃ e ∈ insEdges function (functionInsns instructions function) i, e.target = va) ↔ _ :=
    exists_insEdges
  simp only [mem_functionInsns hno] at hout
  rw [← hout]
  constructor
  · rintro ⟨e, he, hsource, htarget⟩
    obtain ⟨m, hm, hem⟩ := List.mem_flatMap.mp he
    have haddr : m.address = i.address := (mem_insEdges_source hem).symm.trans hsource
    rw [hno.eq_of_address ((mem_functionInsns hno).mp hm).1 hi.1 haddr] at hem
    exact ⟨e, hem, htarget⟩
  · rintro ⟨e, he, htarget⟩
    exact ⟨e, List.mem_flatMap.mpr ⟨i, (mem_functionInsns hno).mpr hi, he⟩,
      mem_insEdges_source he, htarget⟩

/-- Only a branch target separates a plain instruction from the next one. -/
theorem branch_between (hno : NonOverlapping instructions) (hi : InFunction instructions function i)
    (hplain : Plain i) (hnext : j.address = i.nextAddr) {t : Nat}
    (ht : Leader instructions function t) (hit : i.address < t) (htj : t ≤ j.address) :
    ∃ m target, InFunction instructions function m ∧ m.branchTarget = some target ∧
      i.address < target ∧ target ≤ j.address := by
  cases ht with
  | entry =>
    have := hi.2.1
    omega
  | branch hm htarget _ => exact ⟨_, t, hm, htarget, hit, htj⟩
  | @next m n hm hkind hn haddr =>
    have hends := hno.ends_before hi.1 hn.1 hit
    have hsame : m = i := hno.eq_of_nextAddr hm.1 hi.1 (by omega)
    rw [hsame, hplain.1, hplain.2.1] at hkind
    simp at hkind

theorem edges_cover_transfers_iff (hno : NonOverlapping instructions) :
    (∀ r ∈ buildCfg [function] instructions, CoversTransfers instructions function r) ↔
      SplitsAreBranchedTo instructions function := by
  simp only [mem_buildCfg_single]
  constructor
  · rintro h i j hi hj hplain hnext ⟨m, target, hm, htarget, hlo, hhi⟩
    obtain ⟨r, hr⟩ := exists_record hno hi
    have hleader : Leader instructions function target :=
      .branch hm htarget ⟨by have := hi.2.1; omega, by have := hj.2.2; omega⟩
    have hapart : ¬ SameBlock r i j := by
      intro hsame
      have hsep := (sameBlock_iff hno hr hi hj).mp hsame target hleader
      omega
    have htransfer : TransfersTo i j :=
      Or.inr ⟨hnext, hplain.2.2, fun hjump => by simp [hplain.2.1] at hjump⟩
    obtain ⟨e, he, hetarget, k, hk, hsource, hki⟩ := h r hr i j hi hj htransfer (Or.inl hapart)
    refine ⟨k, hk, ?_, (sameBlock_iff hno hr hk hi).mp hki⟩
    rcases (exists_edge_from hno hr hk).mp ⟨e, he, hsource, hetarget⟩ with hbranch | hfall
    · exact hbranch.1
    · obtain ⟨hkind, haddr, _⟩ := hfall
      have hsame : k = i := hno.eq_of_nextAddr hk.1 hi.1 (by omega)
      rw [hsame, hplain.1, hplain.2.1] at hkind
      simp at hkind
  · intro h r hr i j hi hj htransfer hleave
    obtain ⟨b, hb, hbi⟩ := exists_block hno hr hi
    have hown : (∃ e ∈ r.edges, e.source = i.address ∧ e.target = j.address) →
        ∃ e ∈ r.edges, e.target = j.address ∧
          ∃ k, InFunction instructions function k ∧ e.source = k.address ∧ SameBlock r k i := by
      rintro ⟨e, he, hsource, htarget⟩
      exact ⟨e, he, htarget, i, hi, hsource, b, hb, hbi, hbi⟩
    rcases htransfer with hbranch | ⟨hnext, hret, hjmp⟩
    · exact hown ((exists_edge_from hno hr hi).mpr (Or.inl ⟨hbranch, hj.2⟩))
    · by_cases hkind : i.isCall = true ∨ (i.isJump = true ∧ i.isJmp = false)
      · exact hown ((exists_edge_from hno hr hi).mpr (Or.inr ⟨hkind, hnext, j, hj, rfl⟩))
      · have hplain : Plain i := by
          refine ⟨?_, ?_, hret⟩
          · exact Bool.eq_false_iff.mpr fun hcall => hkind (Or.inl hcall)
          · refine Bool.eq_false_iff.mpr fun hjump => hkind (Or.inr ⟨hjump, ?_⟩)
            exact Bool.eq_false_iff.mpr fun hj => hjmp ⟨hjump, hj⟩
        have hij : i.address < j.address := by
          have := i.sizePos
          rw [hnext, InstructionRecord.nextAddr]
          omega
        have hapart : ¬ SameBlock r i j := by
          rcases hleave with hapart | hlast
          · exact hapart
          · intro hsame
            have := hlast j hj hsame
            omega
        -- a leader stands between the two, and only a branch can have put it there
        rw [SameBlock, sameBlock_iff hno hr hi hj] at hapart
        push Not at hapart
        obtain ⟨t, ht, hsep⟩ := hapart
        have hbetween : i.address < t ∧ t ≤ j.address := by
          rcases hsep with ⟨h1, h2⟩ | ⟨h1, h2⟩
          · omega
          · exact ⟨by omega, h2⟩
        obtain ⟨k, hk, hktarget, hksame⟩ := h i j hi hj hplain hnext
          (branch_between hno hi hplain hnext ht hbetween.1 hbetween.2)
        obtain ⟨e, he, hsource, htarget⟩ :=
          (exists_edge_from hno hr hk).mpr (Or.inl ⟨hktarget, hj.2⟩)
        exact ⟨e, he, htarget, k, hk, hsource, (sameBlock_iff hno hr hk hi).mpr hksame⟩

/-- A loop with a jump over two bytes that are not decoded and a `nop`. -/
def skipLoop : List InstructionRecord :=
  [⟨0x5000, 2, "dec", false, false, false, none, by decide, by decide⟩,
    ⟨0x5002, 2, "je", false, true, false, some 0x5007, by decide, by decide⟩,
    ⟨0x5006, 1, "nop", false, false, false, none, by decide, by decide⟩,
    ⟨0x5007, 2, "jne", false, true, false, some 0x5000, by decide, by decide⟩,
    ⟨0x5009, 1, "ret", false, false, true, none, by decide, by decide⟩]

def skipLoopFunction : FunctionRecord := ⟨0x5000, 0x500A, 10, "entry", [], by decide⟩

theorem skipLoop_leader {t : Nat} (h : Leader skipLoop skipLoopFunction t) :
    t ∈ [0x5000, 0x5007, 0x5009] := by
  have htargets : ∀ ins ∈ skipLoop, ∀ target ∈ ins.branchTarget,
      target ∈ [0x5000, 0x5007, 0x5009] := by decide
  have hnext : ∀ ins ∈ skipLoop, (ins.isJump = true ∨ ins.isCall = true) →
      ∀ j ∈ skipLoop, j.address = ins.nextAddr → j.address ∈ [0x5000, 0x5007, 0x5009] := by decide
  cases h with
  | entry => exact List.mem_cons_self
  | branch hins htarget _ => exact htargets _ hins.1 _ htarget
  | next hins hkind hj haddr => exact hnext _ hins.1 hkind _ hj.1 haddr

/-- The branch target after the `nop` is that of the jump in the block of the `nop`. -/
theorem edges_cover_transfers_skipLoop :
    NonOverlapping skipLoop ∧ ∀ r ∈ buildCfg [skipLoopFunction] skipLoop,
      CoversTransfers skipLoop skipLoopFunction r := by
  have hno : NonOverlapping skipLoop := by decide
  have hsplits : ∀ i ∈ skipLoop, i.isJump = false → ∀ m ∈ skipLoop, ∀ target ∈ m.branchTarget,
      i.address < target → target ≤ i.nextAddr → i.address = 0x5006 ∧ i.nextAddr = 0x5007 := by
    decide
  refine ⟨hno, (edges_cover_transfers_iff hno).mpr ?_⟩
  rintro i j hi - ⟨-, hjump, -⟩ hnext ⟨m, target, hm, htarget, hlo, hhi⟩
  obtain ⟨haddr, hstop⟩ := hsplits i hi.1 hjump m hm.1 target htarget hlo (hnext ▸ hhi)
  refine ⟨⟨0x5002, 2, "je", false, true, false, some 0x5007, by decide, by decide⟩,
    ⟨List.mem_cons_of_mem _ List.mem_cons_self, by decide⟩, by rw [hnext, hstop], fun t ht => ?_⟩
  have hleader := skipLoop_leader ht
  rw [haddr]
  simp only [List.mem_cons, List.not_mem_nil, or_false] at hleader ⊢
  omega

/-- `xor`, then the loop of a `dec` and a `jne` back to it, then a `ret`. -/
def countdown : List InstructionRecord :=
  [⟨0x1000, 2, "xor", false, false, false, none, by decide, by decide⟩,
    ⟨0x1002, 2, "dec", false, false, false, none, by decide, by decide⟩,
    ⟨0x1004, 2, "jne", false, true, false, some 0x1002, by decide, by decide⟩,
    ⟨0x1006, 1, "ret", false, false, true, none, by decide, by decide⟩]

def countdownFunction : FunctionRecord := ⟨0x1000, 0x1007, 7, "entry", [], by decide⟩

def countdownCfg : CfgRecord :=
  { function := 0x1000
    blocks := [⟨0x1000, 0x1002, 1⟩, ⟨0x1002, 0x1006, 2⟩, ⟨0x1006, 0x1007, 1⟩]
    edges := [⟨0x1004, 0x1002, "branch"⟩, ⟨0x1004, 0x1006, "fallthrough"⟩] }

theorem buildCfg_countdown : buildCfg [countdownFunction] countdown = [countdownCfg] := by
  decide +kernel

/-- No edge leads from the `xor` into the loop. -/
theorem countdown_misses_edge :
    NonOverlapping countdown ∧ ¬ ∀ r ∈ buildCfg [countdownFunction] countdown,
      CoversTransfers countdown countdownFunction r := by
  refine ⟨by decide, fun h => ?_⟩
  rw [buildCfg_countdown] at h
  have hcovers := h countdownCfg (List.mem_singleton_self _)
  have hxor : InFunction countdown countdownFunction
      ⟨0x1000, 2, "xor", false, false, false, none, by decide, by decide⟩ :=
    ⟨List.mem_cons_self, by decide⟩
  have hdec : InFunction countdown countdownFunction
      ⟨0x1002, 2, "dec", false, false, false, none, by decide, by decide⟩ :=
    ⟨List.mem_cons_of_mem _ List.mem_cons_self, by decide⟩
  have hapart : ¬ SameBlock countdownCfg
      ⟨0x1000, 2, "xor", false, false, false, none, by decide, by decide⟩
      ⟨0x1002, 2, "dec", false, false, false, none, by decide, by decide⟩ := by
    rintro ⟨b, hb, hxor, hdec⟩
    simp only [countdownCfg, List.mem_cons, List.not_mem_nil, or_false] at hb
    rcases hb with rfl | rfl | rfl <;> simp [BasicBlockRecord.Holds] at hxor hdec
  obtain ⟨e, he, htarget, k, _, hsource, b, hb, hbk, hbxor⟩ :=
    hcovers _ _ hxor hdec (Or.inr (by decide)) (Or.inl hapart)
  simp only [countdownCfg, List.mem_cons, List.not_mem_nil, or_false] at he hb
  simp only [BasicBlockRecord.Holds] at hbk hbxor
  rcases he with rfl | rfl
  · rcases hb with rfl | rfl | rfl
    · simp only at hsource hbk
      omega
    · simp at hbxor
    · simp at hbxor
  · simp at htarget

/-- Calls, jumps and returns end a run of instructions. -/
def EndsRun (ins : InstructionRecord) : Prop :=
  ins.isCall = true ∨ ins.isJump = true ∨ ins.isRet = true

structure BasicBlocks (instructions : List InstructionRecord) (function : FunctionRecord)
    (r : CfgRecord) : Prop where
  sorted : r.blocks.Pairwise fun a b => a.start < b.start ∧ a.stop ≤ b.start
  partition : ∀ ins, InFunction instructions function ins → ∃! b, b ∈ r.blocks ∧ b.Holds ins
  counts : (r.blocks.map (·.instructionCount)).sum =
    (instructions.filter fun ins => function.Covers ins.address).length
  starts : ∀ b ∈ r.blocks, ∃ ins ∈ instructions, ins.address = b.start
  targets : ∀ i j, InFunction instructions function i → InFunction instructions function j →
    i.branchTarget = some j.address → ∃ b ∈ r.blocks, b.start = j.address
  ends : ∀ b ∈ r.blocks, ∀ i, InFunction instructions function i → b.Holds i → EndsRun i →
    ∀ k, InFunction instructions function k → b.Holds k → k.address ≤ i.address

/-- A leader that leads instructions is the address of one. -/
def LeadersAreInstructions (instructions : List InstructionRecord) (function : FunctionRecord) :
    Prop :=
  ∀ s j, Leader instructions function s → InFunction instructions function j →
    Leads instructions function s j.address →
    ∃ i, InFunction instructions function i ∧ i.address = s

/-- After a call, jump or return a leader comes before the next instruction. -/
def RunsEndAtLeaders (instructions : List InstructionRecord) (function : FunctionRecord) : Prop :=
  ∀ i k, InFunction instructions function i → InFunction instructions function k → EndsRun i →
    i.address < k.address → ∃ t, Leader instructions function t ∧ i.address < t ∧ t ≤ k.address

theorem Leader.start_le (h : Leader instructions function s) : function.start ≤ s := by
  cases h with
  | entry => exact Nat.le_refl _
  | branch _ _ hcovers => exact hcovers.1
  | next _ _ hj _ => exact hj.2.1

theorem leads_self : Leads instructions function s s := ⟨Nat.le_refl s, fun _ _ h => h⟩

theorem length_filter_add {α : Type} {p q either : α → Bool} {l : List α}
    (h : ∀ x ∈ l, either x = (p x || q x) ∧ (p x && q x) = false) :
    (l.filter p).length + (l.filter q).length = (l.filter either).length := by
  induction l with
  | nil => rfl
  | cons head tail ih =>
    obtain ⟨heither, hboth⟩ := h head List.mem_cons_self
    have htail := ih fun x hx => h x (List.mem_cons_of_mem _ hx)
    rw [List.filter_cons, List.filter_cons, List.filter_cons, heither]
    cases hp : p head <;> cases hq : q head <;> simp_all <;> omega

/-- The blocks count the instructions from the first start on. -/
theorem sum_instructionCount (hs : SortedMap.Sorted id starts)
    (hstop : ∀ ins ∈ insns, ins.address < stop) :
    ((buildBlocks stop insns starts).map (·.instructionCount)).sum =
      (insns.filter fun ins => starts.headD stop ≤ ins.address).length := by
  induction starts with
  | nil =>
    have hnone : (insns.filter fun ins => ([] : List Nat).headD stop ≤ ins.address) = [] := by
      refine List.filter_eq_nil_iff.mpr fun ins hins => ?_
      rw [decide_eq_true_iff]
      exact Nat.not_le_of_lt (hstop ins hins)
    rw [hnone]
    rfl
  | cons start rest ih =>
    obtain ⟨hstart, hrest⟩ := List.pairwise_cons.mp hs
    have hcount : ∀ blockIns : List InstructionRecord,
        (((blockRecord start blockIns).toList).map (·.instructionCount)).sum = blockIns.length := by
      intro blockIns
      cases hlast : blockIns.getLast? with
      | none => rw [List.getLast?_eq_none_iff.mp hlast]; rfl
      | some last => simp [blockRecord, hlast]
    have hhead : ∀ ins ∈ insns, rest.headD stop ≤ ins.address → start ≤ ins.address := by
      intro ins hins h
      cases rest with
      | nil => exact absurd (hstop ins hins) (Nat.not_lt_of_le h)
      | cons second rest =>
        have hlt : start < second := hstart second List.mem_cons_self
        exact Nat.le_of_lt (Nat.lt_of_lt_of_le hlt h)
    rw [buildBlocks, List.map_append, List.sum_append, ih hrest, hcount, List.headD_cons]
    refine length_filter_add fun ins hins => ?_
    have hstarts := hhead ins hins
    generalize rest.headD stop = following at hstarts ⊢
    by_cases h1 : start ≤ ins.address <;> by_cases h2 : following ≤ ins.address
    · simp [h1, h2]
    · simp [h1, h2, Nat.lt_of_not_le h2]
    · exact absurd (hstarts h2) h1
    · simp [h1, h2]

theorem headD_blockStarts_le :
    (blockStarts function insns).headD stop ≤ function.start := by
  have hmem : function.start ∈ blockStarts function insns := by
    obtain ⟨s, hs, heq⟩ := (SortedMap.exists_mem_ofList id
      (function.start :: insns.flatMap (insStarts function insns)) function.start).mpr
      ⟨_, List.mem_cons_self, rfl⟩
    exact heq ▸ hs
  have hsorted : SortedMap.Sorted id (blockStarts function insns) := sorted_blockStarts
  cases hstarts : blockStarts function insns with
  | nil =>
    rw [hstarts] at hmem
    exact absurd hmem List.not_mem_nil
  | cons head rest =>
    rw [hstarts] at hmem hsorted
    rcases List.mem_cons.mp hmem with heq | hrest
    · exact heq.ge
    · exact ((List.pairwise_cons.mp hsorted).1 _ hrest).le

/-- Blocks come in the order of their starts. -/
theorem sorted_starts (hr : functionCfg instructions function = some r) :
    r.blocks.Pairwise fun a b => a.start < b.start := by
  obtain ⟨_, rfl⟩ := functionCfg_eq_some.mp hr
  have hstop : ∀ ins ∈ functionInsns instructions function, ins.address < function.stop :=
    fun ins hins => (covers_of_mem hins).2
  rw [buildBlocks_eq sorted_blockStarts hstop]
  refine List.Pairwise.filterMap _ (fun s s' hlt a ha b hb => ?_) sorted_blockStarts
  rw [(blockRecord_eq_some.mp ha).1, (blockRecord_eq_some.mp hb).1]
  exact hlt

section

variable (hno : NonOverlapping instructions) (hr : functionCfg instructions function = some r)

include hno hr

theorem sum_counts :
    (r.blocks.map (·.instructionCount)).sum =
      (instructions.filter fun ins => function.Covers ins.address).length := by
  have hperm : (functionInsns instructions function).Perm
      (instructions.filter fun ins => function.Covers ins.address) := by
    refine (List.perm_ext_iff_of_nodup ?_ ?_).mpr ?_
    · exact sorted_functionInsns.imp fun hlt heq => by rw [heq] at hlt; omega
    · refine List.Nodup.filter _ (hno.imp fun {i j} hapart heq => ?_)
      have := j.sizePos
      simp only [InstructionRecord.Apart, InstructionRecord.nextAddr, heq] at hapart
      omega
    · intro ins
      rw [mem_functionInsns hno, List.mem_filter, decide_eq_true_iff]
      rfl
  obtain ⟨_, rfl⟩ := functionCfg_eq_some.mp hr
  have hstop : ∀ ins ∈ functionInsns instructions function, ins.address < function.stop :=
    fun ins hins => (covers_of_mem hins).2
  have hall : ((functionInsns instructions function).filter fun ins =>
      (blockStarts function (functionInsns instructions function)).headD function.stop ≤
        ins.address) = functionInsns instructions function := by
    refine List.filter_eq_self.mpr fun ins hins => decide_eq_true ?_
    exact headD_blockStarts_le.trans (covers_of_mem hins).1
  rw [sum_instructionCount sorted_blockStarts hstop, hall, hperm.length_eq]

/-- An instruction address is the start of a block when it is a leader. -/
theorem exists_block_start_iff (hj : InFunction instructions function j) :
    (∃ b ∈ r.blocks, b.start = j.address) ↔ Leader instructions function j.address := by
  constructor
  · rintro ⟨b, hb, hstart⟩
    exact hstart ▸ leader_of_mem_blocks hno hr hb
  · intro hleader
    obtain ⟨b, hb, hstart, _⟩ := exists_block_of_leads hno hr hleader hj leads_self
    exact ⟨b, hb, hstart⟩

theorem basicBlocks_of_leaders (hleaders : LeadersAreInstructions instructions function)
    (hruns : RunsEndAtLeaders instructions function) : BasicBlocks instructions function r where
  sorted := by
    refine (sorted_starts hr).imp_of_mem fun {a b} ha hb hlt => ⟨hlt, ?_⟩
    obtain ⟨last, hlast, hleads, hstop, _⟩ := exists_last hno hr ha
    obtain ⟨j, hj, hjleads, _, _⟩ := exists_last hno hr hb
    obtain ⟨i, hi, hstart⟩ := hleaders b.start j (leader_of_mem_blocks hno hr hb) hj hjleads
    have hbefore := hleads.2 b.start (leader_of_mem_blocks hno hr hb) hlt
    rw [hstop, ← hstart]
    exact hno.ends_before hlast.1 hi.1 (hstart.symm ▸ hbefore)
  partition := by
    intro ins hins
    obtain ⟨b, hb, hholds⟩ := exists_block hno hr hins
    exact ⟨b, ⟨hb, hholds⟩, fun b' hb' => eq_of_holds hno hr hb'.1 hb hins hb'.2 hholds⟩
  counts := sum_counts hno hr
  starts := by
    intro b hb
    obtain ⟨j, hj, hleads, _, _⟩ := exists_last hno hr hb
    obtain ⟨i, hi, hstart⟩ := hleaders b.start j (leader_of_mem_blocks hno hr hb) hj hleads
    exact ⟨i, hi.1, hstart⟩
  targets := fun i j hi hj htarget =>
    (exists_block_start_iff hno hr hj).mpr (.branch hi htarget hj.2)
  ends := by
    intro b hb i hi hbi hends k hk hbk
    by_contra hgt
    obtain ⟨t, ht, hit, htk⟩ := hruns i k hi hk hends (Nat.lt_of_not_le hgt)
    have hstart := ((holds_iff hno hr hb hi).mp hbi).1
    have hbefore := ((holds_iff hno hr hb hk).mp hbk).2 t ht (Nat.lt_of_le_of_lt hstart hit)
    omega

theorem leaders_of_basicBlocks (h : BasicBlocks instructions function r) :
    LeadersAreInstructions instructions function := by
  intro s j hs hj hleads
  obtain ⟨b, hb, rfl, _⟩ := exists_block_of_leads hno hr hs hj hleads
  obtain ⟨i, hi, hstart⟩ := h.starts b hb
  refine ⟨i, ⟨hi, ?_⟩, hstart⟩
  rw [hstart]
  exact ⟨hs.start_le, Nat.lt_of_le_of_lt hleads.1 hj.2.2⟩

theorem runs_of_basicBlocks (h : BasicBlocks instructions function r) :
    RunsEndAtLeaders instructions function := by
  intro i k hi hk hends hlt
  by_contra hnone
  push Not at hnone
  have hsame := (sameBlock_iff hno hr hi hk).mpr fun t ht =>
    ⟨fun hti => hti.trans hlt.le, fun htk => by
      by_contra hti
      have := hnone t ht (Nat.lt_of_not_le hti)
      omega⟩
  obtain ⟨b, hb, hbi, hbk⟩ := hsame
  have := h.ends b hb i hi hbi hends k hk hbk
  omega

end

/-- The second part says which instructions start a block, whoever branches to them. -/
theorem basic_blocks_iff (hno : NonOverlapping instructions) :
    ((∀ r ∈ buildCfg [function] instructions, BasicBlocks instructions function r) ↔
        LeadersAreInstructions instructions function ∧ RunsEndAtLeaders instructions function) ∧
      ∀ r ∈ buildCfg [function] instructions, ∀ j, InFunction instructions function j →
        ((∃ b ∈ r.blocks, b.start = j.address) ↔ Leader instructions function j.address) := by
  simp only [mem_buildCfg_single]
  refine ⟨⟨fun h => ⟨?_, ?_⟩, ?_⟩, fun r hr j hj => exists_block_start_iff hno hr hj⟩
  · intro s j hs hj
    obtain ⟨r, hr⟩ := exists_record hno hj
    exact leaders_of_basicBlocks hno hr (h r hr) s j hs hj
  · intro i k hi
    obtain ⟨r, hr⟩ := exists_record hno hi
    exact runs_of_basicBlocks hno hr (h r hr) i k hi
  · rintro ⟨hleaders, hruns⟩ r hr
    exact basicBlocks_of_leaders hno hr hleaders hruns

/-- A call followed by a `ret`. -/
def callThenRet : List InstructionRecord :=
  [⟨0x1000, 5, "call", true, false, false, some 0x2000, by decide, by decide⟩,
    ⟨0x1005, 1, "ret", false, false, true, none, by decide, by decide⟩]

theorem basic_blocks_callThenRet :
    NonOverlapping callThenRet ∧ ∀ r ∈ buildCfg [⟨0x1000, 0x1006, 6, "entry", [], by decide⟩]
      callThenRet, BasicBlocks callThenRet ⟨0x1000, 0x1006, 6, "entry", [], by decide⟩ r := by
  have hno : NonOverlapping callThenRet := by decide
  refine ⟨hno, (basic_blocks_iff hno).1.mpr ⟨?_, ?_⟩⟩
  · intro s j hs hj hleads
    cases hs with
    | entry => exact ⟨_, ⟨List.mem_cons_self, by decide⟩, rfl⟩
    | branch hins htarget hcovers =>
      have hmem := hins.1
      simp only [callThenRet, List.mem_cons, List.not_mem_nil, or_false] at hmem
      rcases hmem with rfl | rfl
      · rw [Option.some.inj htarget.symm] at hcovers
        exact absurd hcovers (by decide)
      · exact absurd htarget (Option.some_ne_none _).symm
    | next _ _ hj _ => exact ⟨_, hj, rfl⟩
  · intro i k hi hk hends hlt
    have himem := hi.1
    have hkmem := hk.1
    simp only [callThenRet, List.mem_cons, List.not_mem_nil, or_false] at himem hkmem
    rcases himem with rfl | rfl <;> rcases hkmem with rfl | rfl
    · exact absurd hlt (by decide)
    · exact ⟨_, .next hi (Or.inr rfl) hk rfl, hlt, Nat.le_refl _⟩
    · exact absurd hlt (by decide)
    · exact absurd hlt (by decide)

/-- A `ret` with an instruction after it in the function. -/
def retThenNop : List InstructionRecord :=
  [⟨0x1000, 1, "ret", false, false, true, none, by decide, by decide⟩,
    ⟨0x1001, 1, "nop", false, false, false, none, by decide, by decide⟩]

def retThenNopFunction : FunctionRecord := ⟨0x1000, 0x1002, 2, "entry", [], by decide⟩

/-- The `ret` is inside the block of both. -/
theorem retThenNop_not_basic :
    NonOverlapping retThenNop ∧ ¬ ∀ r ∈ buildCfg [retThenNopFunction] retThenNop,
      BasicBlocks retThenNop retThenNopFunction r := by
  refine ⟨by decide, fun h => ?_⟩
  have hcfg : buildCfg [retThenNopFunction] retThenNop =
      [{ function := 0x1000, blocks := [⟨0x1000, 0x1002, 2⟩], edges := [] }] := by
    decide +kernel
  rw [hcfg] at h
  have hends := (h _ (List.mem_singleton_self _)).ends ⟨0x1000, 0x1002, 2⟩
    (List.mem_singleton_self _)
    ⟨0x1000, 1, "ret", false, false, true, none, by decide, by decide⟩
    ⟨List.mem_cons_self, by decide⟩ (by simp [BasicBlockRecord.Holds]) (Or.inr (Or.inr rfl))
    ⟨0x1001, 1, "nop", false, false, false, none, by decide, by decide⟩
    ⟨List.mem_cons_of_mem _ List.mem_cons_self, by decide⟩ (by simp [BasicBlockRecord.Holds])
  simp at hends

end Axe.Static
