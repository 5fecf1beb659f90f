import Mathlib.Data.List.Basic
import Axe.Static.Cfg

/-!
# Blocks and leaders

Which instructions a block of the graph holds, told by the addresses at which blocks start.
-/
namespace Axe.Static

open SortedMap (Sorted)

variable {instructions insns : List InstructionRecord} {function : FunctionRecord}
  {ins i j k : InstructionRecord} {b : BasicBlockRecord} {r : CfgRecord} {s stop va : Nat}
  {starts : List Nat}

def InstructionRecord.Apart (i j : InstructionRecord) : Prop :=
  i.nextAddr ≤ j.address ∨ j.nextAddr ≤ i.address

/-- Any two of the instructions have disjoint address ranges. -/
def NonOverlapping (instructions : List InstructionRecord) : Prop :=
  instructions.Pairwise InstructionRecord.Apart

instance InstructionRecord.decidableApart (i j : InstructionRecord) : Decidable (i.Apart j) :=
  inferInstanceAs (Decidable (_ ∨ _))

instance decidableNonOverlapping (instructions : List InstructionRecord) :
    Decidable (NonOverlapping instructions) :=
  inferInstanceAs (Decidable (List.Pairwise _ _))

def InFunction (instructions : List InstructionRecord) (function : FunctionRecord)
    (ins : InstructionRecord) : Prop :=
  ins ∈ instructions ∧ function.Covers ins.address

/-- The addresses at which the blocks of a function may start. -/
inductive Leader (instructions : List InstructionRecord) (function : FunctionRecord) :
    Nat → Prop
  | entry : Leader instructions function function.start
  | branch {ins : InstructionRecord} {target : Nat} (hins : InFunction instructions function ins)
      (htarget : ins.branchTarget = some target) (hcovers : function.Covers target) :
      Leader instructions function target
  | next {ins j : InstructionRecord} (hins : InFunction instructions function ins)
      (hkind : ins.isJump = true ∨ ins.isCall = true) (hj : InFunction instructions function j)
      (haddr : j.address = ins.nextAddr) : Leader instructions function j.address

/-- A start governs the addresses before the following start. -/
def Governs (starts : List Nat) (s va : Nat) : Prop := s ≤ va ∧ ∀ t ∈ starts, s < t → va < t

instance decidableGoverns (starts : List Nat) (s va : Nat) : Decidable (Governs starts s va) :=
  inferInstanceAs (Decidable (_ ∧ _))

def blockIns (starts : List Nat) (insns : List InstructionRecord) (s : Nat) :
    List InstructionRecord :=
  insns.filter fun ins => Governs starts s ins.address

theorem mem_blockIns :
    ins ∈ blockIns starts insns s ↔ ins ∈ insns ∧ Governs starts s ins.address := by
  rw [blockIns, List.mem_filter, decide_eq_true_iff]

/-- The walk over the starts gives each start the instructions it governs. -/
theorem buildBlocks_eq (hs : Sorted id starts) (hstop : ∀ ins ∈ insns, ins.address < stop) :
    buildBlocks stop insns starts =
      starts.filterMap fun s => blockRecord s (blockIns starts insns s) := by
  induction starts with
  | nil => rfl
  | cons start rest ih =>
    obtain ⟨hstart, hrest⟩ := List.pairwise_cons.mp hs
    have hhead : (insns.filter fun ins => start ≤ ins.address && ins.address < rest.headD stop) =
        blockIns (start :: rest) insns start := by
      refine List.filter_congr fun ins hins => ?_
      rw [Bool.eq_iff_iff, Bool.and_eq_true, decide_eq_true_iff, decide_eq_true_iff,
        decide_eq_true_iff, Governs]
      refine and_congr_right fun _ => ?_
      cases rest with
      | nil =>
        refine ⟨fun _ t ht hlt => ?_, fun _ => hstop ins hins⟩
        rw [List.mem_singleton.mp ht] at hlt
        exact absurd hlt (Nat.lt_irrefl _)
      | cons second rest =>
        have hsecond := (List.pairwise_cons.mp hrest).1
        constructor
        · intro hlt t ht hgt
          rcases List.mem_cons.mp ht with rfl | ht
          · exact absurd hgt (Nat.lt_irrefl _)
          · rcases List.mem_cons.mp ht with rfl | ht
            · exact hlt
            · exact Nat.lt_trans hlt (hsecond t ht)
        · intro h
          exact h second (List.mem_cons_of_mem _ List.mem_cons_self)
            (hstart second List.mem_cons_self)
    have htail : rest.filterMap (fun s => blockRecord s (blockIns rest insns s)) =
        rest.filterMap fun s => blockRecord s (blockIns (start :: rest) insns s) := by
      refine List.filterMap_congr fun s hs => ?_
      have hcongr : blockIns rest insns s = blockIns (start :: rest) insns s := by
        refine List.filter_congr fun ins _ => ?_
        rw [decide_eq_decide, Governs, Governs, List.forall_mem_cons]
        have hlt : start < s := hstart s hs
        exact and_congr_right fun _ => ⟨fun h => ⟨fun hgt => by omega, h⟩, fun h => h.2⟩
      rw [hcongr]
    rw [buildBlocks, ih hrest, htail, hhead, List.filterMap_cons]
    cases blockRecord start (blockIns (start :: rest) insns start) <;> rfl

theorem blockRecord_eq_some {blockIns : List InstructionRecord} :
    blockRecord s blockIns = some b ↔ b.start = s ∧ b.instructionCount = blockIns.length ∧
      ∃ last, blockIns.getLast? = some last ∧ b.stop = last.nextAddr := by
  rw [blockRecord, Option.map_eq_some_iff]
  constructor
  · rintro ⟨last, hlast, rfl⟩
    exact ⟨rfl, rfl, last, hlast, rfl⟩
  · rintro ⟨rfl, hcount, last, hlast, hstop⟩
    exact ⟨last, hlast, by rw [← hstop, ← hcount]⟩

theorem NonOverlapping.apart (hno : NonOverlapping instructions) (hi : i ∈ instructions)
    (hj : j ∈ instructions) (hne : i ≠ j) : i.Apart j := by
  have hsymm : Std.Symm InstructionRecord.Apart := ⟨fun _ _ => Or.symm⟩
  exact List.Pairwise.forall hno hi hj hne

theorem NonOverlapping.ends_before (hno : NonOverlapping instructions) (hi : i ∈ instructions)
    (hj : j ∈ instructions) (hlt : i.address < j.address) : i.nextAddr ≤ j.address := by
  have hne : i ≠ j := fun heq => by rw [heq] at hlt; omega
  rcases hno.apart hi hj hne with h | h
  · exact h
  · rw [InstructionRecord.nextAddr] at h
    omega

/-- The record of an address is one instruction. -/
theorem NonOverlapping.eq_of_address (hno : NonOverlapping instructions) (hi : i ∈ instructions)
    (hj : j ∈ instructions) (h : i.address = j.address) : i = j := by
  by_contra hne
  have hapart := hno.apart hi hj hne
  have hipos := i.sizePos
  have hjpos := j.sizePos
  simp only [InstructionRecord.Apart, InstructionRecord.nextAddr] at hapart
  omega

theorem NonOverlapping.eq_of_nextAddr (hno : NonOverlapping instructions) (hi : i ∈ instructions)
    (hj : j ∈ instructions) (h : i.nextAddr = j.nextAddr) : i = j := by
  by_contra hne
  have hapart := hno.apart hi hj hne
  have hipos := i.sizePos
  have hjpos := j.sizePos
  simp only [InstructionRecord.Apart, InstructionRecord.nextAddr] at hapart h
  omega

theorem mem_functionInsns (hno : NonOverlapping instructions) :
    ins ∈ functionInsns instructions function ↔ InFunction instructions function ins := by
  have hdistinct : instructions.Pairwise fun i j => i.address ≠ j.address := by
    refine hno.imp fun {i j} hapart heq => ?_
    have hipos := i.sizePos
    have hjpos := j.sizePos
    simp only [InstructionRecord.Apart, InstructionRecord.nextAddr] at hapart
    omega
  rw [functionInsns, List.mem_filter, SortedMap.mem_ofList hdistinct, decide_eq_true_iff]
  rfl

theorem sorted_blockStarts : Sorted id (blockStarts function insns) := SortedMap.sorted_ofList _

theorem mem_blockStarts (hno : NonOverlapping instructions) :
    s ∈ blockStarts function (functionInsns instructions function) ↔
      Leader instructions function s := by
  have hmem : s ∈ blockStarts function (functionInsns instructions function) ↔
      s = function.start ∨ ∃ ins ∈ functionInsns instructions function,
        s ∈ insStarts function (functionInsns instructions function) ins := by
    have hkeys := SortedMap.exists_mem_ofList id
      (function.start :: (functionInsns instructions function).flatMap
        (insStarts function (functionInsns instructions function))) s
    rw [blockStarts]
    simpa only [id_eq, exists_eq_right, List.mem_cons, List.mem_flatMap] using hkeys
  rw [hmem]
  simp only [mem_insStarts, mem_functionInsns hno]
  constructor
  · rintro (rfl | ⟨ins, hins, ⟨htarget, hcovers⟩ | ⟨hkind, hs, j, hj, rfl⟩⟩)
    · exact .entry
    · exact .branch hins htarget hcovers
    · exact .next hins hkind hj hs
  · intro h
    cases h with
    | entry => exact Or.inl rfl
    | branch hins htarget hcovers => exact Or.inr ⟨_, hins, Or.inl ⟨htarget, hcovers⟩⟩
    | next hins hkind hj haddr =>
      exact Or.inr ⟨_, hins, Or.inr ⟨hkind, haddr, _, hj, rfl⟩⟩

theorem functionCfg_eq_some :
    functionCfg instructions function = some r ↔
      functionInsns instructions function ≠ [] ∧
        r = { function := function.start
              blocks := buildBlocks function.stop (functionInsns instructions function)
                (blockStarts function (functionInsns instructions function))
              edges := (functionInsns instructions function).flatMap
                (insEdges function (functionInsns instructions function)) } := by
  rw [functionCfg]
  split
  · rename_i hempty
    simp [List.isEmpty_iff.mp hempty]
  · rename_i hempty
    rw [Option.some.injEq, eq_comm]
    exact ⟨fun h => ⟨fun hnil => hempty (List.isEmpty_iff.mpr hnil), h⟩, fun h => h.2⟩

theorem mem_blocks (hr : functionCfg instructions function = some r) :
    b ∈ r.blocks ↔ b.start ∈ blockStarts function (functionInsns instructions function) ∧
      blockRecord b.start (blockIns (blockStarts function (functionInsns instructions function))
        (functionInsns instructions function) b.start) = some b := by
  obtain ⟨_, rfl⟩ := functionCfg_eq_some.mp hr
  have hstop : ∀ ins ∈ functionInsns instructions function, ins.address < function.stop :=
    fun ins hins => (covers_of_mem hins).2
  rw [buildBlocks_eq sorted_blockStarts hstop, List.mem_filterMap]
  constructor
  · rintro ⟨s, hs, hrec⟩
    obtain ⟨rfl, _⟩ := blockRecord_eq_some.mp hrec
    exact ⟨hs, hrec⟩
  · rintro ⟨hs, hrec⟩
    exact ⟨b.start, hs, hrec⟩

/-- An instruction lies in a block when its address lies in the block's range. -/
def BasicBlockRecord.Holds (b : BasicBlockRecord) (ins : InstructionRecord) : Prop :=
  b.start ≤ ins.address ∧ ins.address < b.stop

/-- No leader stands between a block's start and an instruction of the block. -/
def Leads (instructions : List InstructionRecord) (function : FunctionRecord) (s va : Nat) : Prop :=
  s ≤ va ∧ ∀ t, Leader instructions function t → s < t → va < t

theorem governs_iff_leads (hno : NonOverlapping instructions) :
    Governs (blockStarts function (functionInsns instructions function)) s va ↔
      Leads instructions function s va := by
  rw [Governs, Leads]
  simp only [mem_blockStarts hno]

section Blocks

variable (hno : NonOverlapping instructions) (hr : functionCfg instructions function = some r)

include hno hr

theorem leader_of_mem_blocks (hb : b ∈ r.blocks) : Leader instructions function b.start :=
  (mem_blockStarts hno).mp ((mem_blocks hr).mp hb).1

/-- A block ends with the last instruction that its start leads. -/
theorem exists_last (hb : b ∈ r.blocks) :
    ∃ last, InFunction instructions function last ∧
      Leads instructions function b.start last.address ∧ b.stop = last.nextAddr ∧
      ∀ ins, InFunction instructions function ins →
        Leads instructions function b.start ins.address → ins.address ≤ last.address := by
  obtain ⟨_, hrec⟩ := (mem_blocks hr).mp hb
  obtain ⟨_, _, last, hlast, hstop⟩ := blockRecord_eq_some.mp hrec
  obtain ⟨hmem, hgov⟩ := mem_blockIns.mp (List.mem_of_getLast? hlast)
  refine ⟨last, (mem_functionInsns hno).mp hmem, (governs_iff_leads hno).mp hgov, hstop, ?_⟩
  intro ins hins hleads
  have hsorted : Sorted InstructionRecord.address
      (blockIns (blockStarts function (functionInsns instructions function))
        (functionInsns instructions function) b.start) := sorted_functionInsns.filter
  exact hsorted.key_le_getLast hlast (mem_blockIns.mpr
    ⟨(mem_functionInsns hno).mpr hins, (governs_iff_leads hno).mpr hleads⟩)

theorem holds_iff (hb : b ∈ r.blocks) (hins : InFunction instructions function ins) :
    b.Holds ins ↔ Leads instructions function b.start ins.address := by
  obtain ⟨last, hlast, hleads, hstop, hmax⟩ := exists_last hno hr hb
  have hpos := last.sizePos
  constructor
  · rintro ⟨hle, hlt⟩
    have hbefore : ins.address ≤ last.address := by
      by_contra hgt
      have hends := hno.ends_before hlast.1 hins.1 (Nat.lt_of_not_le hgt)
      omega
    exact ⟨hle, fun t ht hst => Nat.lt_of_le_of_lt hbefore (hleads.2 t ht hst)⟩
  · intro h
    have hbefore := hmax ins hins h
    refine ⟨h.1, ?_⟩
    rw [hstop, InstructionRecord.nextAddr]
    omega

/-- A leader with an instruction to lead starts a block. -/
theorem exists_block_of_leads (hs : Leader instructions function s)
    (hins : InFunction instructions function ins)
    (hleads : Leads instructions function s ins.address) :
    ∃ b ∈ r.blocks, b.start = s ∧ b.Holds ins := by
  have hmem : ins ∈ blockIns (blockStarts function (functionInsns instructions function))
      (functionInsns instructions function) s :=
    mem_blockIns.mpr ⟨(mem_functionInsns hno).mpr hins, (governs_iff_leads hno).mpr hleads⟩
  cases hlast : (blockIns (blockStarts function (functionInsns instructions function))
      (functionInsns instructions function) s).getLast? with
  | none =>
    rw [List.getLast?_eq_none_iff.mp hlast] at hmem
    exact absurd hmem List.not_mem_nil
  | some last =>
    obtain ⟨b, hrec⟩ : ∃ b, blockRecord s (blockIns
        (blockStarts function (functionInsns instructions function))
        (functionInsns instructions function) s) = some b := by
      rw [blockRecord, hlast]
      exact ⟨_, rfl⟩
    obtain ⟨rfl, _⟩ := blockRecord_eq_some.mp hrec
    have hb := (mem_blocks hr).mpr ⟨(mem_blockStarts hno).mpr hs, hrec⟩
    exact ⟨b, hb, rfl, (holds_iff hno hr hb hins).mpr hleads⟩

theorem exists_block (hins : InFunction instructions function ins) :
    ∃ b ∈ r.blocks, b.Holds ins := by
  have hentry : ∃ s ∈ blockStarts function (functionInsns instructions function),
      s ≤ ins.address := ⟨_, (mem_blockStarts hno).mpr .entry, hins.2.1⟩
  obtain ⟨s, hs, hle, hmax⟩ := SortedMap.exists_greatest_le hentry
  have hleads : Leads instructions function s ins.address := by
    refine ⟨hle, fun t ht hst => ?_⟩
    by_contra hge
    have hts := hmax t ((mem_blockStarts hno).mpr ht) (Nat.le_of_not_lt hge)
    omega
  obtain ⟨b, hb, _, hholds⟩ :=
    exists_block_of_leads hno hr ((mem_blockStarts hno).mp hs) hins hleads
  exact ⟨b, hb, hholds⟩

/-- Two instructions share a block when no leader separates them. -/
theorem sameBlock_iff (hi : InFunction instructions function i)
    (hk : InFunction instructions function k) :
    (∃ b ∈ r.blocks, b.Holds i ∧ b.Holds k) ↔
      ∀ t, Leader instructions function t → (t ≤ i.address ↔ t ≤ k.address) := by
  constructor
  · rintro ⟨b, hb, hbi, hbk⟩ t ht
    obtain ⟨hilo, hihi⟩ := (holds_iff hno hr hb hi).mp hbi
    obtain ⟨hklo, hkhi⟩ := (holds_iff hno hr hb hk).mp hbk
    by_cases hst : b.start < t
    · have h1 := hihi t ht hst
      have h2 := hkhi t ht hst
      omega
    · omega
  · intro h
    obtain ⟨b, hb, hbi⟩ := exists_block hno hr hi
    obtain ⟨hilo, hihi⟩ := (holds_iff hno hr hb hi).mp hbi
    refine ⟨b, hb, hbi, (holds_iff hno hr hb hk).mpr ?_⟩
    refine ⟨(h b.start (leader_of_mem_blocks hno hr hb)).mp hilo, fun t ht hst => ?_⟩
    by_contra hge
    have hti := (h t ht).mpr (Nat.le_of_not_lt hge)
    have hti' := hihi t ht hst
    omega

/-- An instruction lies in one block. -/
theorem eq_of_holds {b' : BasicBlockRecord} (hb : b ∈ r.blocks) (hb' : b' ∈ r.blocks)
    (hins : InFunction instructions function ins) (h : b.Holds ins) (h' : b'.Holds ins) :
    b = b' := by
  obtain ⟨hlo, hhi⟩ := (holds_iff hno hr hb hins).mp h
  obtain ⟨hlo', hhi'⟩ := (holds_iff hno hr hb' hins).mp h'
  have hstart : b.start = b'.start := by
    rcases Nat.lt_trichotomy b.start b'.start with hlt | heq | hgt
    · have := hhi b'.start (leader_of_mem_blocks hno hr hb') hlt
      omega
    · exact heq
    · have := hhi' b.start (leader_of_mem_blocks hno hr hb) hgt
      omega
  have hrec := ((mem_blocks hr).mp hb).2
  have hrec' := ((mem_blocks hr).mp hb').2
  rw [hstart, hrec'] at hrec
  exact (Option.some.inj hrec).symm

end Blocks

end Axe.Static
