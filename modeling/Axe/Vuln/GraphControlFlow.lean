import Mathlib.Logic.Function.Iterate
import Axe.Vuln.GraphBuilder

/-!
# The control flow of the evidence graph

What the graph holds after any number of passes over the records of `buildCfg`.
-/
namespace Axe.Vuln

open Axe.Static (BasicBlockRecord CfgRecord EdgeRecord FunctionRecord InstructionRecord)

variable {g : EvidenceGraph} {cfgs done done' : List CfgRecord} {r r' : CfgRecord}
  {functions : List FunctionRecord} {instructions : List InstructionRecord}

/-- What the graph holds of the records ingested so far. -/
structure Ingested (done : List CfgRecord) (g : EvidenceGraph) : Prop where
  unique : UniqueBlocks g
  only : ∀ id f s e, g.node id = some (.basicBlock f s e) →
    ∃ r ∈ done, r.function = f ∧ ∃ b ∈ r.blocks, b.start = s ∧ b.stop = e
  blocks : ∀ r ∈ done, ∀ b ∈ r.blocks, ∃ id, IsBlockNode g r.function b.start id
  sound : ∀ x ∈ g.edges, x.kind = .controlFlow → ∃ r ∈ done, ∃ e ∈ r.edges,
    IsBlockNode g r.function e.source x.source ∧ IsBlockNode g r.function e.target x.target
  complete : ∀ r ∈ done, ∀ e ∈ r.edges, (∃ b ∈ r.blocks, b.start = e.source) →
    (∃ b ∈ r.blocks, b.start = e.target) → ∀ x : Edge, x.kind = .controlFlow →
    IsBlockNode g r.function e.source x.source → IsBlockNode g r.function e.target x.target →
    x ∈ g.edges

theorem ingested_nil (h : FunctionsOnly g) : Ingested [] g where
  unique := fun f s id _ hid => by
    obtain ⟨e, he⟩ := hid
    exact absurd he (h.noBlock id f s e)
  only := fun id f s e he => absurd he (h.noBlock id f s e)
  blocks := fun _ hr => absurd hr List.not_mem_nil
  sound := fun x hx hk => absurd hk (h.noControlFlow x hx)
  complete := fun _ hr => absurd hr List.not_mem_nil

/-- Ingesting a record keeps what the graph held and adds what the record says. -/
theorem Ingested.step (h : Ingested done g) (hf : HasFunction g r.function) :
    Ingested (r :: done) (ingestRecord g r) ∧ Extends g (ingestRecord g r) := by
  have hpresent : ¬ (g.functionByVa r.function).isNone = true := by
    obtain ⟨id, hid⟩ := Option.isSome_iff_exists.mp (functionByVa_isSome hf)
    rw [hid]
    exact Bool.false_ne_true
  rw [ingestRecord, if_neg hpresent]
  have hadded := blocksAdded_foldl r.function r.blocks g
  generalize r.blocks.foldl (ingestBlock r.function) g = g₁ at hadded
  have hu := hadded.unique h.unique
  have hedges := mem_foldl_ingestEdge hu r.function r.edges
  generalize r.edges.foldl (ingestEdge r.function) g₁ = g₂ at hedges
  have hnode : ∀ id, g₂.node id = g₁.node id := fun id => by
    rw [EvidenceGraph.node, (hedges ⟨0, 0, .calls⟩).1, EvidenceGraph.node]
  have hblock : ∀ {f s id}, IsBlockNode g₂ f s id ↔ IsBlockNode g₁ f s id := by
    intro f s id
    simp only [IsBlockNode, hnode]
  have hext : Extends g g₂ := fun id p hp => (hnode id).trans (hadded.ext id p hp)
  -- a block known before keeps its node
  have hold : ∀ {f s id}, (∃ id₀, IsBlockNode g f s id₀) → IsBlockNode g₂ f s id →
      IsBlockNode g f s id := by
    rintro f s id ⟨id₀, hid₀⟩ hid
    rw [hu f s id id₀ (hblock.mp hid) (hadded.ext.isBlockNode hid₀)]
    exact hid₀
  refine ⟨⟨?_, ?_, ?_, ?_, ?_⟩, hext⟩
  · exact fun f s id id' hid hid' => hu f s id id' (hblock.mp hid) (hblock.mp hid')
  · intro id f s e he
    rw [hnode] at he
    rcases hadded.only id f s e he with he | ⟨rfl, hb⟩
    · obtain ⟨r', hr', hr'e⟩ := h.only id f s e he
      exact ⟨r', List.mem_cons_of_mem _ hr', hr'e⟩
    · exact ⟨r, List.mem_cons_self, rfl, hb⟩
  · intro r' hr' b hb
    rcases List.mem_cons.mp hr' with rfl | hr'
    · exact (hadded.added b hb).imp fun _ hid => hblock.mpr hid
    · exact (h.blocks r' hr' b hb).imp fun _ hid => hext.isBlockNode hid
  · intro x hx hk
    rcases (hedges x).2.mp hx with hx | ⟨_, e, he, hs, ht⟩
    · rw [hadded.edges] at hx
      obtain ⟨r', hr', e, he, hs, ht⟩ := h.sound x hx hk
      exact ⟨r', List.mem_cons_of_mem _ hr', e, he, hext.isBlockNode hs, hext.isBlockNode ht⟩
    · exact ⟨r, List.mem_cons_self, e, he, hblock.mpr hs, hblock.mpr ht⟩
  · intro r' hr' e he hbs hbt x hk hs ht
    refine (hedges x).2.mpr ?_
    rcases List.mem_cons.mp hr' with rfl | hr'
    · exact Or.inr ⟨hk, e, he, hblock.mp hs, hblock.mp ht⟩
    · refine Or.inl (hadded.edges.symm ▸ ?_)
      have hknown : ∀ {s}, (∃ b ∈ r'.blocks, b.start = s) →
          ∃ id, IsBlockNode g r'.function s id := by
        rintro s ⟨b, hb, rfl⟩
        exact h.blocks r' hr' b hb
      exact h.complete r' hr' e he hbs hbt x hk (hold (hknown hbs) hs) (hold (hknown hbt) ht)

theorem Ingested.ingestCfg (h : Ingested done g)
    (hf : ∀ r ∈ cfgs, HasFunction g r.function) :
    Ingested (cfgs.reverse ++ done) (ingestCfg g cfgs) ∧ Extends g (ingestCfg g cfgs) := by
  induction cfgs generalizing g done with
  | nil => exact ⟨h, Extends.refl g⟩
  | cons r rest ih =>
    obtain ⟨hstep, hext⟩ := h.step (hf r List.mem_cons_self)
    obtain ⟨hrest, hext'⟩ := ih hstep fun r' hr' =>
      hext.hasFunction (hf r' (List.mem_cons_of_mem _ hr'))
    rw [List.reverse_cons, List.append_assoc]
    exact ⟨hrest, hext.trans hext'⟩

/-- The graph after ingesting the functions and then some passes over the records. -/
def ingestPasses (functions : List FunctionRecord) (cfgs : List CfgRecord) (passes : Nat) :
    EvidenceGraph :=
  (fun g => ingestCfg g cfgs)^[passes] (ingestFunctions .new functions).1

theorem ingested_passes (hf : ∀ r ∈ cfgs, ∃ f ∈ functions, f.start = r.function) (n : Nat) :
    ∃ done, (∀ r, r ∈ done ↔ r ∈ cfgs) ∧ Ingested done (ingestPasses functions cfgs (n + 1)) := by
  obtain ⟨honly, hhas⟩ := ingestFunctions_ok functionsOnly_new functions
  have hstart : ∀ r ∈ cfgs, HasFunction (ingestFunctions .new functions).1 r.function := by
    intro r hr
    obtain ⟨f, hf, hstart⟩ := hf r hr
    exact hstart ▸ hhas f hf
  suffices ∃ done, (∀ r, r ∈ done ↔ r ∈ cfgs) ∧ Ingested done (ingestPasses functions cfgs (n + 1)) ∧
      ∀ r ∈ cfgs, HasFunction (ingestPasses functions cfgs (n + 1)) r.function by
    obtain ⟨done, hdone, hing, _⟩ := this
    exact ⟨done, hdone, hing⟩
  induction n with
  | zero =>
    obtain ⟨hing, hext⟩ := (ingested_nil honly).ingestCfg hstart
    refine ⟨_, fun r => ?_, hing, fun r hr => hext.hasFunction (hstart r hr)⟩
    rw [List.append_nil, List.mem_reverse]
  | succ n ih =>
    obtain ⟨done, hdone, hing, hhas⟩ := ih
    rw [ingestPasses, Function.iterate_succ_apply', ← ingestPasses]
    obtain ⟨hing', hext⟩ := hing.ingestCfg hhas
    refine ⟨_, fun r => ?_, hing', fun r hr => hext.hasFunction (hhas r hr)⟩
    rw [List.mem_append, List.mem_reverse, hdone, or_self]

theorem block_bounds {function : FunctionRecord} {b : BasicBlockRecord}
    (hr : Static.functionCfg instructions function = some r) (hb : b ∈ r.blocks) :
    b.start < b.stop ∧ b.start < function.stop := by
  obtain ⟨_, hrec⟩ := (Static.mem_blocks hr).mp hb
  obtain ⟨_, _, last, hlast, hstop⟩ := Static.blockRecord_eq_some.mp hrec
  obtain ⟨hmem, hgov⟩ := Static.mem_blockIns.mp (List.mem_of_getLast? hlast)
  have hle := hgov.1
  have hlt := (Static.covers_of_mem hmem).2
  have hpos := last.sizePos
  rw [hstop, Static.InstructionRecord.nextAddr]
  omega

/-- Two functions with one start have the same edges between the blocks of either. -/
theorem edge_of_same_start {f f' : FunctionRecord} {a b : BasicBlockRecord} {e : EdgeRecord}
    (hr : Static.functionCfg instructions f = some r)
    (hr' : Static.functionCfg instructions f' = some r') (hstart : f.start = f'.start)
    (ha : a ∈ r.blocks) (hb : b ∈ r.blocks) (he : e ∈ r'.edges) (hsource : e.source = a.start)
    (htarget : e.target = b.start) :
    ∃ e' ∈ r.edges, e'.source = a.start ∧ e'.target = b.start := by
  have hshared : ∀ m ∈ Static.functionInsns instructions f', m.address < f.stop →
      m ∈ Static.functionInsns instructions f := by
    intro m hm hlt
    obtain ⟨hmem, hcovers⟩ := List.mem_filter.mp hm
    have hlo := (of_decide_eq_true hcovers).1
    exact List.mem_filter.mpr ⟨hmem, decide_eq_true ⟨hstart ▸ hlo, hlt⟩⟩
  have hastop := (block_bounds hr ha).2
  have hbstop := (block_bounds hr hb).2
  obtain ⟨_, rfl⟩ := Static.functionCfg_eq_some.mp hr
  obtain ⟨_, rfl⟩ := Static.functionCfg_eq_some.mp hr'
  obtain ⟨m, hm, hem⟩ := List.mem_flatMap.mp he
  have haddr : m.address = a.start := (Static.mem_insEdges_source hem).symm.trans hsource
  have hedge := Static.exists_insEdges.mp ⟨e, hem, htarget⟩
  have hedge' : (m.branchTarget = some b.start ∧ f.Covers b.start) ∨
      ((m.isCall = true ∨ (m.isJump = true ∧ m.isJmp = false)) ∧ b.start = m.nextAddr ∧
        ∃ j ∈ Static.functionInsns instructions f, j.address = b.start) := by
    rcases hedge with ⟨hbranch, hcovers⟩ | ⟨hkind, hnext, j, hj, hjaddr⟩
    · exact Or.inl ⟨hbranch, hstart ▸ hcovers.1, hbstop⟩
    · exact Or.inr ⟨hkind, hnext, j, hshared j hj (hjaddr ▸ hbstop), hjaddr⟩
  obtain ⟨e', he', htarget'⟩ := Static.exists_insEdges.mpr hedge'
  refine ⟨e', List.mem_flatMap.mpr ⟨m, hshared m hm (haddr ▸ hastop), he'⟩, ?_, htarget'⟩
  rw [Static.mem_insEdges_source he', haddr]

theorem mem_buildCfg :
    r ∈ Static.buildCfg functions instructions ↔
      ∃ f ∈ functions, Static.functionCfg instructions f = some r :=
  List.mem_filterMap

/-- Each block has one node, there are no others, and the graph's control flow between the
blocks of a record is the record's. -/
structure ShowsControlFlow (g : EvidenceGraph) (cfgs : List CfgRecord) : Prop where
  nodes : ∀ r ∈ cfgs, ∀ b ∈ r.blocks, ∃! id, IsBlockNode g r.function b.start id
  only : ∀ id f s e, g.node id = some (.basicBlock f s e) →
    ∃ r ∈ cfgs, r.function = f ∧ ∃ b ∈ r.blocks, b.start = s ∧ b.stop = e
  edges : ∀ r ∈ cfgs, ∀ a ∈ r.blocks, ∀ b ∈ r.blocks, ∀ idA idB,
    IsBlockNode g r.function a.start idA → IsBlockNode g r.function b.start idB →
    ((⟨idA, idB, .controlFlow⟩ : Edge) ∈ g.edges ↔
      ∃ e ∈ r.edges, a.start ≤ e.source ∧ e.source < a.stop ∧ e.target = b.start)

/-- Whatever block an edge leaves, an edge to the same block leaves from the block's start. -/
def EdgesLeaveStarts (cfgs : List CfgRecord) : Prop :=
  ∀ r ∈ cfgs, ∀ a ∈ r.blocks, ∀ b ∈ r.blocks,
    (∃ e ∈ r.edges, a.start ≤ e.source ∧ e.source < a.stop ∧ e.target = b.start) →
    ∃ e ∈ r.edges, e.source = a.start ∧ e.target = b.start

/-- The graph has the edges that leave from the start of a block, and those only. -/
theorem mem_edges_iff {a b : BasicBlockRecord} {idA idB : NodeId}
    (hdone : ∀ r, r ∈ done ↔ r ∈ Static.buildCfg functions instructions) (h : Ingested done g)
    (hr : r ∈ Static.buildCfg functions instructions) (ha : a ∈ r.blocks) (hb : b ∈ r.blocks)
    (hA : IsBlockNode g r.function a.start idA) (hB : IsBlockNode g r.function b.start idB) :
    (⟨idA, idB, .controlFlow⟩ : Edge) ∈ g.edges ↔
      ∃ e ∈ r.edges, e.source = a.start ∧ e.target = b.start := by
  constructor
  · intro hx
    obtain ⟨r', hr', e, he, ⟨_, hs⟩, ⟨_, ht⟩⟩ := h.sound _ hx rfl
    obtain ⟨_, hA⟩ := hA
    obtain ⟨_, hB⟩ := hB
    obtain ⟨hfun, hsource, _⟩ := NodePayload.basicBlock.inj (Option.some.inj (hs.symm.trans hA))
    obtain ⟨_, htarget, _⟩ := NodePayload.basicBlock.inj (Option.some.inj (ht.symm.trans hB))
    obtain ⟨f, _, hf⟩ := mem_buildCfg.mp hr
    obtain ⟨f', _, hf'⟩ := mem_buildCfg.mp ((hdone r').mp hr')
    have hstart : f.start = f'.start := by
      obtain ⟨_, rfl⟩ := Static.functionCfg_eq_some.mp hf
      obtain ⟨_, rfl⟩ := Static.functionCfg_eq_some.mp hf'
      exact hfun.symm
    exact edge_of_same_start hf hf' hstart ha hb he hsource htarget
  · rintro ⟨e, he, hsource, htarget⟩
    exact h.complete r ((hdone r).mpr hr) e he ⟨a, ha, hsource.symm⟩ ⟨b, hb, htarget.symm⟩ _ rfl
      (hsource ▸ hA) (htarget ▸ hB)

theorem ingested_control_flow_iff (functions : List FunctionRecord)
    (instructions : List InstructionRecord) (n : Nat) :
    ShowsControlFlow (ingestPasses functions (Static.buildCfg functions instructions) (n + 1))
        (Static.buildCfg functions instructions) ↔
      EdgesLeaveStarts (Static.buildCfg functions instructions) := by
  have hknown : ∀ r ∈ Static.buildCfg functions instructions,
      ∃ f ∈ functions, f.start = r.function := by
    intro r hr
    obtain ⟨f, hf, hrec⟩ := mem_buildCfg.mp hr
    obtain ⟨_, rfl⟩ := Static.functionCfg_eq_some.mp hrec
    exact ⟨f, hf, rfl⟩
  obtain ⟨done, hdone, hing⟩ := ingested_passes hknown n
  constructor
  · intro h r hr a ha b hb hedge
    obtain ⟨idA, hA⟩ := hing.blocks r ((hdone r).mpr hr) a ha
    obtain ⟨idB, hB⟩ := hing.blocks r ((hdone r).mpr hr) b hb
    exact (mem_edges_iff hdone hing hr ha hb hA hB).mp ((h.edges r hr a ha b hb _ _ hA hB).mpr hedge)
  · intro h
    refine ⟨fun r hr b hb => ?_, fun id f s e he => ?_, fun r hr a ha b hb idA idB hA hB => ?_⟩
    · obtain ⟨id, hid⟩ := hing.blocks r ((hdone r).mpr hr) b hb
      exact ⟨id, hid, fun id' hid' => hing.unique _ _ _ _ hid' hid⟩
    · obtain ⟨r, hr, hb⟩ := hing.only id f s e he
      exact ⟨r, (hdone r).mp hr, hb⟩
    · rw [mem_edges_iff hdone hing hr ha hb hA hB]
      refine ⟨?_, h r hr a ha b hb⟩
      rintro ⟨e, he, hsource, htarget⟩
      obtain ⟨f, _, hf⟩ := mem_buildCfg.mp hr
      have hbounds := (block_bounds hf ha).1
      exact ⟨e, he, hsource.ge, hsource ▸ hbounds, htarget⟩

/-- A `mov` and then a `jne` back to it: the only block starts with the `mov`. -/
def movThenLoop : List InstructionRecord :=
  [⟨0x1000, 2, "mov", false, false, false, none, Nat.two_pos, (by decide : 0x1002 < 2 ^ 64)⟩,
    ⟨0x1002, 2, "jne", false, true, false, some 0x1000, Nat.two_pos, (by decide : 0x1004 < 2 ^ 64)⟩]

def movThenLoopFunction : FunctionRecord := ⟨0x1000, 0x1004, 4, "entry", [], by decide⟩

def movThenLoopCfg : CfgRecord where
  function := 0x1000
  blocks := [⟨0x1000, 0x1004, 2⟩]
  edges := [⟨0x1002, 0x1000, "branch"⟩]

/-- The loop's edge is not in the graph. -/
theorem movThenLoop_misses_edge :
    ¬ ShowsControlFlow (ingestPasses [movThenLoopFunction]
        (Static.buildCfg [movThenLoopFunction] movThenLoop) 1)
      (Static.buildCfg [movThenLoopFunction] movThenLoop) := by
  intro h
  have hcfg : Static.buildCfg [movThenLoopFunction] movThenLoop = [movThenLoopCfg] := by
    decide +kernel
  rw [hcfg] at h
  have hmem := List.mem_singleton_self movThenLoopCfg
  have hedge := h.edges _ hmem _ (List.mem_singleton_self _) _ (List.mem_singleton_self _) 1 1
    ⟨0x1004, by decide +kernel⟩ ⟨0x1004, by decide +kernel⟩
  have hloop := hedge.mpr ⟨_, List.mem_singleton_self _, by decide, by decide, rfl⟩
  have hnone : (ingestPasses [movThenLoopFunction] [movThenLoopCfg] 1).edges.isEmpty := by
    decide +kernel
  rw [List.isEmpty_iff.mp hnone] at hloop
  exact List.not_mem_nil hloop

end Axe.Vuln
