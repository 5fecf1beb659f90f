import Axe.Lib.DominatorSets
import Axe.Static.Cfg

/-!
# Natural back edges

An edge goes back naturally when its target dominates its source. The dominators are found by
sweeps over the blocks, where a block that no edge leads to keeps itself alone, as the entry does.
-/
namespace Axe.Static.Structured

open Dominance DominatorSets

def fallbackBackedges (edges : List EdgeRecord) : List EdgeRecord :=
  edges.filter fun e => e.target ≤ e.source

section Blocks
variable (cfg : CfgRecord)

def blockForAddress (address : Nat) : Option Nat :=
  ((cfg.blocks.find? fun b => b.start ≤ address && address < b.stop).map (·.start)).or
    (if cfg.blocks.any (·.start = address) then some address else none)

/-- The block of an edge's source, when the edge leads to the block. -/
def predecessorOf (block : Nat) (e : EdgeRecord) : Option Nat :=
  (blockForAddress cfg e.source).filter fun _ =>
    (blockForAddress cfg e.target).getD e.target = block

def predecessorsByBlock (block : Nat) : List Nat := cfg.edges.filterMap (predecessorOf cfg block)

/-- Sets for all addresses, of which those of blocks are used. There is fuel for each pair of
blocks. -/
def dominatorSets : Option (Sets Nat) :=
  match cfg.blocks.map BasicBlockRecord.start with
  | [] => some fun _ => ∅
  | entry :: rest =>
    let blocks := entry :: rest
    Loops.run (turn (meetOver (predecessorsByBlock cfg)) (blocks.filter (· ≠ entry)))
      (blocks.length * blocks.length + 1) (initialSets entry blocks.toFinset)

def isBackedge (dominators : Sets Nat) (e : EdgeRecord) : Bool :=
  e.target ≤ e.source && (blockForAddress cfg e.source).any fun block =>
    decide ((blockForAddress cfg e.target).getD e.target ∈ dominators block)

def naturalBackedges : Option (List EdgeRecord) :=
  if cfg.blocks.isEmpty || 768 < cfg.blocks.length || 4096 < cfg.edges.length then
    some (fallbackBackedges cfg.edges)
  else (dominatorSets cfg).map fun dominators => cfg.edges.filter (isBackedge cfg dominators)

/-- The edges between blocks. -/
def flow : List (Nat × Nat) :=
  cfg.edges.filterMap fun e =>
    (blockForAddress cfg e.source).bind fun s => (blockForAddress cfg e.target).map fun t => (s, t)

end Blocks

/-- A block has its start, and the addresses up to its end. -/
def Contains (b : BasicBlockRecord) (address : Nat) : Prop :=
  b.start ≤ address ∧ address < b.stop ∨ b.start = address

/-- The blocks are in order, and none reaches into the next. -/
def SortedBlocks (blocks : List BasicBlockRecord) : Prop :=
  blocks.Pairwise fun b b' => b.start < b'.start ∧ b.stop ≤ b'.start

section Lookup
variable {cfg : CfgRecord} {address s : Nat} {e : EdgeRecord} {b b' : BasicBlockRecord}

theorem contains_unique (h : SortedBlocks cfg.blocks) (hb : b ∈ cfg.blocks)
    (hb' : b' ∈ cfg.blocks) (ha : Contains b address) (ha' : Contains b' address) : b = b' := by
  have hsym : ∀ x y, Contains x address → Contains y address →
      ¬ (x.start < y.start ∧ x.stop ≤ y.start) := by
    intro x y hx hy hlt
    rw [Contains] at hx hy
    omega
  by_contra hne
  have hsymm : Std.Symm fun x y => ¬ (Contains x address ∧ Contains y address) :=
    ⟨fun x y hxy hboth => hxy ⟨hboth.2, hboth.1⟩⟩
  have hpair := h.imp (S := fun x y => ¬ (Contains x address ∧ Contains y address))
    fun hlt hboth => hsym _ _ hboth.1 hboth.2 hlt
  exact hpair.forall hb hb' hne ⟨ha, ha'⟩

theorem blockForAddress_spec (h : blockForAddress cfg address = some s) :
    ∃ b ∈ cfg.blocks, Contains b address ∧ b.start = s := by
  rw [blockForAddress, Option.or_eq_some_iff] at h
  rcases h with h | ⟨-, h⟩
  · obtain ⟨b, hb, rfl⟩ := Option.map_eq_some_iff.mp h
    have hin := List.find?_some hb
    rw [Bool.and_eq_true, decide_eq_true_iff, decide_eq_true_iff] at hin
    exact ⟨b, List.mem_of_find?_eq_some hb, .inl hin, rfl⟩
  · obtain ⟨hany, heq⟩ := Option.ite_none_right_eq_some.mp h
    obtain ⟨b, hb, hstart⟩ := List.any_eq_true.mp hany
    have hstart := of_decide_eq_true hstart
    exact ⟨b, hb, .inr hstart, hstart.trans (Option.some.inj heq)⟩

theorem blockForAddress_isSome (hb : b ∈ cfg.blocks) (ha : Contains b address) :
    ∃ s, blockForAddress cfg address = some s := by
  rw [← Option.isSome_iff_exists, blockForAddress, Option.isSome_or, Bool.or_eq_true]
  rcases ha with ha | ha
  · refine .inl ?_
    rw [Option.isSome_map, List.find?_isSome]
    exact ⟨b, hb, by rw [Bool.and_eq_true, decide_eq_true_iff, decide_eq_true_iff]; exact ha⟩
  · refine .inr ?_
    rw [if_pos (List.any_eq_true.mpr ⟨b, hb, decide_eq_true ha⟩)]
    rfl

/-- The block of an address is the one that has it. -/
theorem blockForAddress_eq_some (h : SortedBlocks cfg.blocks) (hb : b ∈ cfg.blocks) :
    blockForAddress cfg address = some b.start ↔ Contains b address := by
  constructor
  · intro hsome
    obtain ⟨b', hb', hcontains, hstart⟩ := blockForAddress_spec hsome
    have heq : b' = b := contains_unique h hb' hb (.inr hstart) (.inr rfl)
    rwa [heq] at hcontains
  · intro hcontains
    obtain ⟨s, hs⟩ := blockForAddress_isSome hb hcontains
    obtain ⟨b', hb', hcontains', rfl⟩ := blockForAddress_spec hs
    rw [hs, contains_unique h hb' hb hcontains' hcontains]

end Lookup

section Dominators
variable {cfg : CfgRecord} {u v a b entry : Nat} {rest : List Nat}

theorem predecessorOf_eq_some {e : EdgeRecord} :
    predecessorOf cfg v e = some u ↔
      blockForAddress cfg e.source = some u ∧
        (blockForAddress cfg e.target).getD e.target = v := by
  rw [predecessorOf, Option.filter_eq_some_iff, decide_eq_true_iff]

theorem mem_flow : (u, v) ∈ flow cfg ↔ ∃ e ∈ cfg.edges,
    blockForAddress cfg e.source = some u ∧ blockForAddress cfg e.target = some v := by
  simp only [flow, List.mem_filterMap, Option.bind_eq_some_iff, Option.map_eq_some_iff,
    Prod.mk.injEq]
  constructor
  · rintro ⟨e, he, s, hs, t, ht, rfl, rfl⟩
    exact ⟨e, he, hs, ht⟩
  · rintro ⟨e, he, hs, ht⟩
    exact ⟨e, he, u, hs, v, ht, rfl, rfl⟩

/-- The predecessors of a block are the sources of the edges to it. -/
theorem mem_preds (hv : v ∈ cfg.blocks.map BasicBlockRecord.start) :
    u ∈ predecessorsByBlock cfg v ↔ (u, v) ∈ flow cfg := by
  obtain ⟨b, hb, hstart⟩ := List.mem_map.mp hv
  rw [mem_flow, predecessorsByBlock, List.mem_filterMap]
  refine exists_congr fun e => and_congr_right fun _ => ?_
  rw [predecessorOf_eq_some]
  refine and_congr_right fun _ => ?_
  cases htarget : blockForAddress cfg e.target with
  | some t => exact Option.some_inj.symm
  | none =>
    refine iff_of_false (fun hsame => ?_) (by simp)
    have hcontains : Contains b e.target := .inr (hstart.trans hsame.symm)
    obtain ⟨s, hs⟩ := blockForAddress_isSome hb hcontains
    rw [htarget] at hs
    cases hs

theorem mem_starts_of_mem_flow (h : (u, v) ∈ flow cfg) :
    v ∈ cfg.blocks.map BasicBlockRecord.start := by
  obtain ⟨e, -, -, htarget⟩ := mem_flow.mp h
  obtain ⟨b, hb, -, hstart⟩ := blockForAddress_spec htarget
  exact List.mem_map.mpr ⟨b, hb, hstart⟩

/-- The entry, and the blocks that no edge leads to. -/
def Starts (cfg : CfgRecord) (entry r : Nat) : Prop :=
  r = entry ∨ r ∈ cfg.blocks.map BasicBlockRecord.start ∧ predecessorsByBlock cfg r = []

/-- The sweeps end, and the set of a block holds the blocks that are on every path to it from
the entry and from each block that no edge leads to. -/
theorem dominatorSets_spec (hblocks : cfg.blocks.map BasicBlockRecord.start = entry :: rest) :
    ∃ D, dominatorSets cfg = some D ∧ ∀ a b, a ∈ D b ↔
      a ∈ entry :: rest ∧ ∀ r, Starts cfg entry r → Dominates (flow cfg) r a b := by
  have hentry : entry ∈ (entry :: rest).toFinset := List.mem_toFinset.mpr List.mem_cons_self
  have hnodes : ∀ b, b ∈ (entry :: rest).filter (· ≠ entry) ↔
      b ∈ cfg.blocks.map BasicBlockRecord.start ∧ b ≠ entry := by
    intro b
    rw [hblocks, List.mem_filter, decide_eq_true_iff]
  have hdesc := descending_initialSets (predecessorsByBlock cfg) hentry
    fun b hb => ⟨List.mem_toFinset.mpr (List.mem_of_mem_filter hb), ((hnodes b).mp hb).2⟩
  have hweight := weight_initialSets_lt (List.mem_cons_self (a := entry) (l := rest))
    (List.length_filter_le (· ≠ entry) (entry :: rest))
  obtain ⟨D, hD, hshrinks, hfixed⟩ :=
    exists_greatest (isotone_meetOver (predecessorsByBlock cfg)) hdesc hweight
  refine ⟨D, ?_, fun a b => ?_⟩
  · rw [dominatorSets, hblocks]
    exact hD
  · have hsound : Sound (flow cfg) (Starts cfg entry) D := by
      constructor
      · rintro r (rfl | ⟨hr, hnone⟩)
        · exact hshrinks.root_subset
        · by_cases heq : r = entry
          · exact heq ▸ hshrinks.root_subset
          · rw [← hfixed r ((hnodes r).mpr ⟨hr, heq⟩), meetOver_nil hnone]
      · intro u v huv hv a ha
        have hstart := mem_starts_of_mem_flow huv
        have hne : v ≠ entry := fun heq => hv (.inl heq)
        have hpreds := (mem_preds hstart).mpr huv
        rw [← hfixed v ((hnodes v).mpr ⟨hstart, hne⟩),
          mem_meetOver (List.ne_nil_of_mem hpreds)] at ha
        exact ha.imp_right fun hall => hall u hpreds
    have hiff := mem_greatest_iff (a := a) (b := b) (fun b => initialSets_subset hentry)
      (fun b => dominatorsFrom_subset_initialSets (.inl rfl)) (fun b hb =>
        dominatorsFrom_subset_meetOver (fun u hu => (mem_preds ((hnodes b).mp hb).1).mp hu)
          fun hnone => .inr ⟨((hnodes b).mp hb).1, hnone⟩) hshrinks hsound
    rw [hiff, List.mem_toFinset]

end Dominators

/-- The target of an edge lies in a block that is on every path from a root to another block. -/
def OnEveryPath (cfg : CfgRecord) (root : Nat) (e : EdgeRecord) (block : Nat) : Prop :=
  ∃ t ∈ cfg.blocks, Contains t e.target ∧ Dominates (flow cfg) root t.start block

def NoEdgeTo (cfg : CfgRecord) (block : Nat) : Prop := ∀ u, (u, block) ∉ flow cfg

section Backedges
variable {cfg : CfgRecord} {e : EdgeRecord} {entry b : BasicBlockRecord}
  {rest : List BasicBlockRecord}

theorem noEdgeTo_iff {r : Nat} (hr : r ∈ cfg.blocks.map BasicBlockRecord.start) :
    NoEdgeTo cfg r ↔ predecessorsByBlock cfg r = [] := by
  rw [List.eq_nil_iff_forall_not_mem]
  exact forall_congr' fun u => not_congr (mem_preds hr).symm

/-- What is reported: edges into a block that is on every path from the entry and from the
blocks that no edge leads to. -/
theorem isBackedge_iff {D : Sets Nat} (hblocks : cfg.blocks = entry :: rest)
    (hsorted : SortedBlocks cfg.blocks) (hb : b ∈ cfg.blocks) (hsource : Contains b e.source)
    (hback : e.target ≤ e.source)
    (hD : ∀ a b, a ∈ D b ↔ a ∈ entry.start :: rest.map BasicBlockRecord.start ∧
      ∀ r, Starts cfg entry.start r → Dominates (flow cfg) r a b) :
    isBackedge cfg D e = true ↔ OnEveryPath cfg entry.start e b.start ∧
      ∀ r ∈ cfg.blocks, NoEdgeTo cfg r.start → OnEveryPath cfg r.start e b.start := by
  rw [isBackedge, (blockForAddress_eq_some hsorted hb).mpr hsource, Option.any_some,
    decide_eq_true hback, Bool.true_and, decide_eq_true_iff, hD]
  have hstarts : entry.start :: rest.map BasicBlockRecord.start =
      cfg.blocks.map BasicBlockRecord.start := by
    rw [hblocks, List.map_cons]
  rw [hstarts]
  constructor
  · rintro ⟨hmem, hall⟩
    obtain ⟨t, ht, hstart⟩ := List.mem_map.mp hmem
    have hcontains : Contains t e.target := by
      cases htarget : blockForAddress cfg e.target with
      | none =>
        rw [htarget] at hstart
        exact .inr hstart
      | some s =>
        rw [htarget] at hstart
        exact (blockForAddress_eq_some hsorted ht).mp (htarget.trans (congrArg some hstart.symm))
    rw [← hstart] at hall
    refine ⟨⟨t, ht, hcontains, hall _ (.inl rfl)⟩, fun r hr hnone => ⟨t, ht, hcontains, ?_⟩⟩
    have hr' := List.mem_map_of_mem (f := BasicBlockRecord.start) hr
    exact hall _ (.inr ⟨hr', (noEdgeTo_iff hr').mp hnone⟩)
  · rintro ⟨⟨t, ht, hcontains, hdom⟩, hall⟩
    rw [(blockForAddress_eq_some hsorted ht).mpr hcontains, Option.getD_some]
    refine ⟨List.mem_map_of_mem ht, ?_⟩
    rintro r (rfl | ⟨hr, hnone⟩)
    · exact hdom
    · obtain ⟨r, hrb, rfl⟩ := List.mem_map.mp hr
      obtain ⟨t', ht', hcontains', hdom'⟩ := hall r hrb ((noEdgeTo_iff hr).mpr hnone)
      rwa [contains_unique hsorted ht ht' hcontains hcontains']

end Backedges

/-- The dominators are found, and an edge that goes back from a reachable block is reported
just when its target's block dominates the source, if and only if each dominating target is also
on every path from the blocks that no edge leads to. -/
theorem naturalBackedges_exact_iff (cfg : CfgRecord) (entry : BasicBlockRecord)
    (rest : List BasicBlockRecord) (hblocks : cfg.blocks = entry :: rest)
    (hsorted : SortedBlocks cfg.blocks)
    (hsize : cfg.blocks.length ≤ 768 ∧ cfg.edges.length ≤ 4096) :
    (∃ D, dominatorSets cfg = some D) ∧
    ∃ backs, naturalBackedges cfg = some backs ∧
      ∀ e ∈ cfg.edges, e.target ≤ e.source → ∀ b ∈ cfg.blocks, Contains b e.source →
        Reachable (flow cfg) entry.start b.start →
        ((e ∈ backs ↔ OnEveryPath cfg entry.start e b.start) ↔
          (OnEveryPath cfg entry.start e b.start →
            ∀ r ∈ cfg.blocks, NoEdgeTo cfg r.start → OnEveryPath cfg r.start e b.start)) := by
  have hmap : cfg.blocks.map BasicBlockRecord.start =
      entry.start :: rest.map BasicBlockRecord.start := by
    rw [hblocks, List.map_cons]
  obtain ⟨D, hD, hspec⟩ := dominatorSets_spec hmap
  refine ⟨⟨D, hD⟩, cfg.edges.filter (isBackedge cfg D), ?_, ?_⟩
  · have hempty : cfg.blocks.isEmpty = false := by
      rw [hblocks, List.isEmpty_cons]
    rw [naturalBackedges, hempty, decide_eq_false (Nat.not_lt.mpr hsize.1),
      decide_eq_false (Nat.not_lt.mpr hsize.2), hD]
    rfl
  · intro e he hback b hb hsource _
    rw [List.mem_filter, isBackedge_iff hblocks hsorted hb hsource hback hspec]
    tauto

/-- A loop of the second and third block, with a jump into the third that nothing reaches. -/
def deadJump : CfgRecord where
  function := 0
  blocks := [⟨0, 4, 1⟩, ⟨4, 8, 1⟩, ⟨8, 12, 1⟩, ⟨12, 16, 1⟩]
  edges := [⟨2, 4, "branch"⟩, ⟨6, 8, "fallthrough"⟩, ⟨10, 4, "branch"⟩, ⟨14, 8, "branch"⟩]

/-- The edge back to the second block is not reported, although each way from the entry to its
source leads through that block. -/
theorem deadJump_missed :
    SortedBlocks deadJump.blocks ∧ naturalBackedges deadJump = some [] ∧
      Contains ⟨8, 12, 1⟩ 10 ∧ Reachable (flow deadJump) 0 8 ∧
      OnEveryPath deadJump 0 ⟨10, 4, "branch"⟩ 8 := by
  have hflow : flow deadJump = [(0, 4), (4, 8), (8, 4), (12, 8)] := by decide
  refine ⟨by unfold SortedBlocks; decide, by decide +kernel, .inl (by decide), ?_, ?_⟩
  · rw [hflow]
    exact ⟨_, .cons (v := 4) (by decide) (.cons (v := 8) (by decide) (.single 8))⟩
  · refine ⟨⟨4, 8, 1⟩, by decide, .inr rfl, fun p hp => ?_⟩
    rw [hflow] at hp
    cases hp with
    | @cons _ v _ _ hedge hrest =>
      have hv : v = 4 := by simpa using hedge
      subst hv
      exact List.mem_cons_of_mem _ hrest.head_mem

theorem naturalBackedges_exact_deadJump :
    (∃ D, dominatorSets deadJump = some D) ∧
    ∃ backs, naturalBackedges deadJump = some backs ∧
      ∀ e ∈ deadJump.edges, e.target ≤ e.source → ∀ b ∈ deadJump.blocks, Contains b e.source →
        Reachable (flow deadJump) 0 b.start →
        ((e ∈ backs ↔ OnEveryPath deadJump 0 e b.start) ↔
          (OnEveryPath deadJump 0 e b.start →
            ∀ r ∈ deadJump.blocks, NoEdgeTo deadJump r.start →
              OnEveryPath deadJump r.start e b.start)) :=
  naturalBackedges_exact_iff deadJump ⟨0, 4, 1⟩ [⟨4, 8, 1⟩, ⟨8, 12, 1⟩, ⟨12, 16, 1⟩] rfl
    (by unfold SortedBlocks; decide) (by decide)

end Axe.Static.Structured
