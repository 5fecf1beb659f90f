import Axe.Lib.DominatorSets
import Axe.Static.Cfg

/-!
# Immediate dominators

An edge is kept when its source, the address of an instruction, is the start of a block, so only
the jumps that are their block's first instruction count. A block that the kept edges do not
reach is dominated by all blocks.
-/
namespace Axe.Static.Idoms

open Dominance DominatorSets

/-- The last of the greatest elements by a key. -/
def maxByKey {α : Type} (key : α → Nat) : List α → Option α
  | [] => none
  | x :: xs =>
    match maxByKey key xs with
    | none => some x
    | some y => if key y < key x then some x else some y

/-- The last among those with a property that have the greatest key. -/
def LastOf (key : Nat → Nat) (P : Nat → Prop) (d : Nat) : Prop :=
  P d ∧ ∀ x, P x → key x < key d ∨ key x = key d ∧ x ≤ d

section Blocks
variable (cfg : CfgRecord) (entry : Nat)

/-- The starts of the blocks in order. -/
def blockIds : List Nat := SortedMap.ofList id (cfg.blocks.map BasicBlockRecord.start)

def keeps (e : EdgeRecord) : Bool :=
  (blockIds cfg).contains e.source && (blockIds cfg).contains e.target

/-- The sources of the kept edges to a block. -/
def preds (block : Nat) : List Nat :=
  ((cfg.edges.filter (keeps cfg)).filter (·.target = block)).map EdgeRecord.source

def nextDom (doms : Sets Nat) (block : Nat) : Finset Nat :=
  if (preds cfg block).isEmpty then doms block else meetOver (preds cfg) doms block

/-- The deepest of the other dominators, the last of these. -/
def deepest (doms : Sets Nat) (block : Nat) : Option Nat :=
  maxByKey (fun d => (doms d).card) ((blockIds cfg).filter fun d => d ∈ doms block ∧ d ≠ block)

/-- The map from the blocks to their dominators. -/
def idomMap (doms : Sets Nat) (block : Nat) : Option Nat :=
  if (blockIds cfg).contains block && block ≠ entry then deepest cfg doms block else none

/-- There is fuel for each pair of blocks. -/
def computeIdoms : Option (Nat → Option Nat) :=
  let ids := blockIds cfg
  if ids.contains entry then
    (Loops.run (turn (nextDom cfg) (ids.filter (· ≠ entry))) (ids.length * ids.length + 1)
      (initialSets entry ids.toFinset)).map (idomMap cfg entry)
  else some fun _ => none

/-- The kept edges. -/
def kept : List (Nat × Nat) := (cfg.edges.filter (keeps cfg)).map fun e => (e.source, e.target)

/-- The edges from the block that has the source to the block that starts at the target. -/
def flow : List (Nat × Nat) :=
  cfg.edges.flatMap fun e =>
    (cfg.blocks.filter fun b => b.start ≤ e.source ∧ e.source < b.stop ∧
      (blockIds cfg).contains e.target).map fun b => (b.start, e.target)

/-- How many blocks are on every path of kept edges to a block. -/
noncomputable def depth (block : Nat) : Nat :=
  (dominatorsFrom (kept cfg) (· = entry) (blockIds cfg).toFinset block).card

/-- The last of the other blocks with the most dominators. -/
def LastDeepest (block d : Nat) : Prop :=
  LastOf (depth cfg entry) (fun x => x ∈ blockIds cfg ∧ x ≠ block) d

end Blocks

section MaxByKey
variable {key : Nat → Nat} {l : List Nat} {d : Nat}

theorem maxByKey_isSome (key : Nat → Nat) (h : l ≠ []) : ∃ d, maxByKey key l = some d := by
  cases l with
  | nil => exact absurd rfl h
  | cons x xs =>
    rw [maxByKey]
    cases maxByKey key xs with
    | none => exact ⟨x, rfl⟩
    | some y =>
      dsimp only
      split
      · exact ⟨x, rfl⟩
      · exact ⟨y, rfl⟩

/-- In a list in order the last of the greatest by a key is the greatest of these. -/
theorem maxByKey_spec (hsorted : l.Pairwise (· < ·)) (h : maxByKey key l = some d) :
    LastOf key (· ∈ l) d := by
  induction l generalizing d with
  | nil => cases h
  | cons x xs ih =>
    obtain ⟨hhead, htail⟩ := List.pairwise_cons.mp hsorted
    rw [maxByKey] at h
    cases hrest : maxByKey key xs with
    | none =>
      have hnil : xs = [] := by
        by_contra hne
        obtain ⟨y, hy⟩ := maxByKey_isSome key hne
        rw [hrest] at hy
        cases hy
      rw [hrest] at h
      cases h
      subst hnil
      refine ⟨List.mem_cons_self, fun z hz => ?_⟩
      rw [List.mem_singleton.mp hz]
      exact .inr ⟨rfl, le_rfl⟩
    | some y =>
      obtain ⟨hy, hmax⟩ := ih htail hrest
      rw [hrest] at h
      dsimp only at h
      split at h
      · rename_i hlt
        cases h
        refine ⟨List.mem_cons_self, fun z hz => ?_⟩
        rcases List.mem_cons.mp hz with rfl | hz
        · exact .inr ⟨rfl, le_rfl⟩
        · have hz' := hmax z hz
          exact .inl (by omega)
      · rename_i hge
        cases h
        refine ⟨List.mem_cons_of_mem x hy, fun z hz => ?_⟩
        rcases List.mem_cons.mp hz with rfl | hz
        · have hlt := hhead d hy
          omega
        · exact hmax z hz

theorem LastOf.unique {P : Nat → Prop} {d' : Nat} (h : LastOf key P d) (h' : LastOf key P d') :
    d = d' := by
  have hle := h.2 d' h'.1
  have hge := h'.2 d h.1
  omega

end MaxByKey

section Dominators
variable {cfg : CfgRecord} {entry u v a b d : Nat}

theorem keeps_iff {e : EdgeRecord} :
    keeps cfg e = true ↔ e.source ∈ blockIds cfg ∧ e.target ∈ blockIds cfg := by
  rw [keeps, Bool.and_eq_true, List.contains_iff_mem, List.contains_iff_mem]

theorem mem_kept : (u, v) ∈ kept cfg ↔
    u ∈ blockIds cfg ∧ v ∈ blockIds cfg ∧ ∃ e ∈ cfg.edges, e.source = u ∧ e.target = v := by
  simp only [kept, List.mem_map, List.mem_filter, keeps_iff, Prod.mk.injEq]
  constructor
  · rintro ⟨e, ⟨he, hs, ht⟩, rfl, rfl⟩
    exact ⟨hs, ht, e, he, rfl, rfl⟩
  · rintro ⟨hs, ht, e, he, rfl, rfl⟩
    exact ⟨e, ⟨he, hs, ht⟩, rfl, rfl⟩

theorem mem_preds : u ∈ preds cfg v ↔ (u, v) ∈ kept cfg := by
  simp only [preds, kept, List.mem_map, List.mem_filter, decide_eq_true_iff, Prod.mk.injEq]
  constructor
  · rintro ⟨e, ⟨he, ht⟩, hs⟩
    exact ⟨e, he, hs, ht⟩
  · rintro ⟨e, he, hs, ht⟩
    exact ⟨e, ⟨he, ht⟩, hs⟩

theorem isotone_nextDom : Isotone (nextDom cfg) := by
  intro D E hDE b
  rw [nextDom, nextDom]
  split
  · exact hDE b
  · exact isotone_meetOver _ D E hDE b

/-- The sweeps end, and the set of a block holds the blocks on every path of kept edges. -/
theorem doms_spec (hentry : entry ∈ blockIds cfg) :
    ∃ D, Loops.run (turn (nextDom cfg) ((blockIds cfg).filter (· ≠ entry)))
        ((blockIds cfg).length * (blockIds cfg).length + 1)
        (initialSets entry (blockIds cfg).toFinset) = some D ∧
      ∀ b, D b = dominatorsFrom (kept cfg) (· = entry) (blockIds cfg).toFinset b := by
  have hnodes : ∀ b, b ∈ (blockIds cfg).filter (· ≠ entry) ↔ b ∈ blockIds cfg ∧ b ≠ entry := by
    intro b
    rw [List.mem_filter, decide_eq_true_iff]
  have hroot := List.mem_toFinset.mpr hentry
  have hdesc : Descending (nextDom cfg) ((blockIds cfg).filter (· ≠ entry))
      (initialSets entry (blockIds cfg).toFinset) := by
    intro b hb
    rw [nextDom]
    split
    · exact Finset.Subset.refl _
    · refine descending_initialSets (preds cfg) hroot (fun b hb => ?_) b hb
      exact ⟨List.mem_toFinset.mpr ((hnodes b).mp hb).1, ((hnodes b).mp hb).2⟩
  have hweight := weight_initialSets_lt hentry (List.length_filter_le (· ≠ entry) (blockIds cfg))
  obtain ⟨D, hD, hshrinks, hfixed⟩ := exists_greatest isotone_nextDom hdesc hweight
  refine ⟨D, hD, fun b => Finset.ext fun a => ?_⟩
  have hsound : Sound (kept cfg) (· = entry) D := by
    constructor
    · rintro r rfl
      exact hshrinks.root_subset
    · intro u v huv hv a ha
      have hpreds := mem_preds.mpr huv
      have hne := List.ne_nil_of_mem hpreds
      rw [← hfixed v ((hnodes v).mpr ⟨(mem_kept.mp huv).2.1, hv⟩), nextDom,
        if_neg (List.isEmpty_iff.not.mpr hne), mem_meetOver hne] at ha
      exact ha.imp_right fun hall => hall u hpreds
  have hstays : Stays (nextDom cfg) ((blockIds cfg).filter (· ≠ entry))
      (dominatorsFrom (kept cfg) (· = entry) (blockIds cfg).toFinset) := by
    intro b _
    rw [nextDom]
    split
    · exact Finset.Subset.refl _
    · rename_i hne
      exact dominatorsFrom_subset_meetOver (fun u hu => mem_preds.mp hu)
        fun hnil => absurd (List.isEmpty_iff.mpr hnil) hne
  rw [mem_dominatorsFrom]
  exact mem_greatest_iff (fun b => initialSets_subset hroot)
    (fun b => dominatorsFrom_subset_initialSets rfl) hstays hshrinks hsound

/-- The deepest dominator is the immediate one of a block that is reached. -/
theorem immediately_of_lastOf (hentry : entry ∈ blockIds cfg)
    (hreach : Reachable (kept cfg) entry b)
    (hne : b ≠ entry)
    (hd : LastOf (depth cfg entry)
      (fun x => x ∈ blockIds cfg ∧ Strictly (kept cfg) entry x b) d) :
    Immediately (kept cfg) entry d b := by
  obtain ⟨i, hi⟩ := exists_immediately hreach hne
  have hin : ∀ e ∈ kept cfg, e.1 ∈ blockIds cfg ∧ e.2 ∈ blockIds cfg := by
    rintro ⟨u, v⟩ he
    exact ⟨(mem_kept.mp he).1, (mem_kept.mp he).2.1⟩
  have hmem : i ∈ blockIds cfg := by
    obtain ⟨p, hp⟩ := hreach
    have hnodes : ∀ x ∈ p, x ∈ {x | x ∈ blockIds cfg} := hp.mem_nodes hin hentry
    exact hnodes i (hi.1.2 p hp)
  have hlt : d ≠ i → depth cfg entry d < depth cfg entry i := by
    intro hdi
    have hdom := hi.2 d hd.1.2
    refine Finset.card_lt_card (Finset.ssubset_iff_subset_ne.mpr ⟨fun a ha => ?_, fun heq => ?_⟩)
    · rw [mem_dominatorsFrom] at ha ⊢
      exact ⟨ha.1, fun r hr => (ha.2 r hr).trans (hr ▸ hdom)⟩
    · have hself : i ∈ dominatorsFrom (kept cfg) (· = entry) (blockIds cfg).toFinset d := by
        rw [heq, mem_dominatorsFrom]
        exact ⟨List.mem_toFinset.mpr hmem, fun r _ => dominates_refl⟩
      have hback := (mem_dominatorsFrom.mp hself).2 entry rfl
      exact hdi (Dominates.antisymm (hi.1.reachable hreach) hdom hback)
  by_cases hdi : d = i
  · exact hdi ▸ hi
  · have hle := hd.2 i ⟨hmem, hi.1⟩
    have hless := hlt hdi
    omega

/-- What is given for a block: the deepest of its other dominators along the kept edges. -/
theorem computeIdoms_spec (hentry : entry ∈ blockIds cfg) :
    ∃ idoms, computeIdoms cfg entry = some idoms ∧ ∀ b ∈ blockIds cfg, b ≠ entry →
      ∃ d, idoms b = some d ∧
        LastOf (depth cfg entry) (fun x => x ∈ blockIds cfg ∧ Strictly (kept cfg) entry x b) d := by
  obtain ⟨D, hD, hdoms⟩ := doms_spec hentry
  refine ⟨idomMap cfg entry D, ?_, fun b hb hne => ?_⟩
  · rw [computeIdoms, if_pos (List.contains_iff_mem.mpr hentry), hD]
    rfl
  · have hcand : ∀ x, x ∈ (blockIds cfg).filter (fun d => d ∈ D b ∧ d ≠ b) ↔
        x ∈ blockIds cfg ∧ Strictly (kept cfg) entry x b := by
      intro x
      rw [List.mem_filter, decide_eq_true_iff, hdoms, mem_dominatorsFrom, List.mem_toFinset,
        Strictly, forall_eq]
      tauto
    have hroot : entry ∈ (blockIds cfg).filter (fun d => d ∈ D b ∧ d ≠ b) :=
      (hcand entry).mpr ⟨hentry, Ne.symm hne, fun p hp => hp.head_mem⟩
    obtain ⟨d, hd⟩ := maxByKey_isSome (fun d => (D d).card) (List.ne_nil_of_mem hroot)
    have hsorted : (blockIds cfg).Pairwise (· < ·) := SortedMap.sorted_ofList _
    have hlast := maxByKey_spec (hsorted.filter _) hd
    have hkey : (fun d => (D d).card) = depth cfg entry := by
      funext x
      rw [hdoms x, depth]
    refine ⟨d, ?_, ?_⟩
    · rw [idomMap, if_pos, deepest]
      · exact hd
      · rw [Bool.and_eq_true, List.contains_iff_mem, decide_eq_true_iff]
        exact ⟨hb, hne⟩
    · rw [hkey] at hlast
      exact ⟨(hcand d).mp hlast.1, fun x hx => hlast.2 x ((hcand x).mpr hx)⟩

end Dominators

/-- Each block that the control flow reaches from the entry is given its immediate dominator. -/
def Correct (cfg : CfgRecord) (entry : Nat) (idoms : Nat → Option Nat) : Prop :=
  ∀ b ≠ entry, Reachable (flow cfg) entry b →
    ∃ d, idoms b = some d ∧ Immediately (flow cfg) entry d b

/-- For the blocks that the kept edges reach too, the immediate dominator is the same along
these; for the others it is the last of the deepest other blocks. -/
def Agrees (cfg : CfgRecord) (entry : Nat) : Prop :=
  ∀ b ≠ entry, Reachable (flow cfg) entry b →
    (Reachable (kept cfg) entry b →
      ∀ d, Immediately (kept cfg) entry d b → Immediately (flow cfg) entry d b) ∧
    (¬ Reachable (kept cfg) entry b →
      ∀ d, LastDeepest cfg entry b d → Immediately (flow cfg) entry d b)

section Flow
variable {cfg : CfgRecord} {entry u v b d : Nat}

theorem start_mem_blockIds {block : BasicBlockRecord} (h : block ∈ cfg.blocks) :
    block.start ∈ blockIds cfg := by
  obtain ⟨x, hx, heq⟩ := (SortedMap.exists_mem_ofList id (cfg.blocks.map BasicBlockRecord.start)
    block.start).mpr ⟨_, List.mem_map_of_mem h, rfl⟩
  exact heq ▸ hx

theorem mem_flow_ids (h : (u, v) ∈ flow cfg) : u ∈ blockIds cfg ∧ v ∈ blockIds cfg := by
  obtain ⟨e, -, h⟩ := List.mem_flatMap.mp h
  obtain ⟨block, hblock, heq⟩ := List.mem_map.mp h
  rw [List.mem_filter, decide_eq_true_iff] at hblock
  cases heq
  exact ⟨start_mem_blockIds hblock.1, List.contains_iff_mem.mp hblock.2.2.2⟩

/-- A path to another block starts and ends at blocks. -/
theorem mem_ids_of_reachable (hreach : Reachable (flow cfg) entry b) (hne : b ≠ entry) :
    entry ∈ blockIds cfg ∧ b ∈ blockIds cfg := by
  obtain ⟨p, hp⟩ := hreach
  have hin : ∀ e ∈ flow cfg, e.1 ∈ blockIds cfg ∧ e.2 ∈ blockIds cfg :=
    fun e he => mem_flow_ids he
  cases hp with
  | single => exact absurd rfl hne
  | cons hedge hrest =>
    have hids := mem_flow_ids hedge
    have hnodes : ∀ x ∈ _, x ∈ {x | x ∈ blockIds cfg} := hrest.mem_nodes hin hids.2
    exact ⟨hids.1, hnodes b hrest.last_mem⟩

theorem correct_iff_agrees {idoms : Nat → Option Nat} (h : computeIdoms cfg entry = some idoms) :
    Correct cfg entry idoms ↔ Agrees cfg entry := by
  refine forall_congr' fun b => forall_congr' fun hne => forall_congr' fun hreach => ?_
  obtain ⟨hentry, hb⟩ := mem_ids_of_reachable hreach hne
  obtain ⟨idoms', h', hspec⟩ := computeIdoms_spec hentry
  rw [h] at h'
  cases h'
  obtain ⟨d, hd, hlast⟩ := hspec b hb hne
  have hgiven : (∃ d', idoms b = some d' ∧ Immediately (flow cfg) entry d' b) ↔
      Immediately (flow cfg) entry d b := by
    rw [hd]
    constructor
    · rintro ⟨d', hsame, himm⟩
      rwa [Option.some.inj hsame]
    · exact fun himm => ⟨d, rfl, himm⟩
  rw [hgiven]
  by_cases hkept : Reachable (kept cfg) entry b
  · have himm := immediately_of_lastOf hentry hkept hne hlast
    constructor
    · intro hflow
      refine ⟨fun _ d' hd' => ?_, fun hnot => absurd hkept hnot⟩
      rwa [Immediately.unique hkept hd' himm]
    · exact fun hagrees => hagrees.1 hkept d himm
  · have hall : ∀ x, Strictly (kept cfg) entry x b ↔ x ≠ b := fun x =>
      ⟨And.left, fun hx => ⟨hx, fun p hp => absurd ⟨p, hp⟩ hkept⟩⟩
    simp only [hall] at hlast
    constructor
    · intro hflow
      refine ⟨fun hyes => absurd hyes hkept, fun _ d' hd' => ?_⟩
      rwa [hd'.unique hlast]
    · exact fun hagrees => hagrees.2 hkept d hlast

end Flow

/-- The sweeps end, and the immediate dominators of the control flow come out just when the kept
edges agree with it. -/
theorem computeIdoms_correct_iff (cfg : CfgRecord) (entry : Nat) :
    ∃ idoms, computeIdoms cfg entry = some idoms ∧
      (Correct cfg entry idoms ↔ Agrees cfg entry) := by
  by_cases hentry : entry ∈ blockIds cfg
  · obtain ⟨idoms, h, -⟩ := computeIdoms_spec hentry
    exact ⟨idoms, h, correct_iff_agrees h⟩
  · have h : computeIdoms cfg entry = some fun _ => none := by
      rw [computeIdoms, if_neg (List.contains_iff_mem.not.mpr hentry)]
    exact ⟨_, h, correct_iff_agrees h⟩

theorem guardedSkip_fits : 0x1000 + 1 < 2 ^ 64 := by decide

/-- The second instruction jumps over the third on a condition. -/
def guardedSkip : List InstructionRecord :=
  [⟨0x1000, 1, "nop", false, false, false, none, Nat.one_pos, guardedSkip_fits⟩,
    ⟨0x1001, 2, "je", false, true, false, some 0x1004, Nat.two_pos, by decide⟩,
    ⟨0x1003, 1, "nop", false, false, false, none, Nat.one_pos, by decide⟩,
    ⟨0x1004, 1, "ret", false, false, true, none, Nat.one_pos, by decide⟩]

def guardedFunction : FunctionRecord := ⟨0x1000, 0x1005, 5, "entry", [], by decide⟩

def guardedCfg : CfgRecord where
  function := 0x1000
  blocks := [⟨0x1000, 0x1003, 2⟩, ⟨0x1003, 0x1004, 1⟩, ⟨0x1004, 0x1005, 1⟩]
  edges := [⟨0x1001, 0x1004, "branch"⟩, ⟨0x1001, 0x1003, "fallthrough"⟩]

/-- The target of the jump is given the instruction that is jumped over. -/
theorem guardedSkip_misses :
    guardedCfg ∈ buildCfg [guardedFunction] guardedSkip ∧
      Reachable (flow guardedCfg) 0x1000 0x1004 ∧
      (computeIdoms guardedCfg 0x1000).map (· 0x1004) = some (some 0x1003) ∧
      ¬ Dominates (flow guardedCfg) 0x1000 0x1003 0x1004 := by
  have hpath : Path (flow guardedCfg) 0x1000 0x1004 [0x1000, 0x1004] :=
    .cons (v := 0x1004) (by decide +kernel) (.single _)
  exact ⟨by decide +kernel, ⟨_, hpath⟩, by decide +kernel, fun h => absurd (h _ hpath) (by decide)⟩

end Axe.Static.Idoms
