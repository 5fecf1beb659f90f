import Axe.Lib.Saturation
import Axe.Vuln.SummaryClosure
import Axe.Vuln.TaintRuns

/-!
# The second pass ends at its least fixpoint

A mark passes from a function to the callees that accept it, and from a function with a
summary mark to the sinks of its summary. Every pass is a hop, and the marks at the end are
those of the fewest hops.
-/
namespace Axe.Vuln

/-- A callee accepts taint. -/
def Accepts (g : EvidenceGraph) (summaries : Nat → Option CallSummary) (callee : NodeId) : Prop :=
  ∃ va summary, functionVa g callee = some va ∧ summaries va = some summary ∧
    summaryAcceptsTaint summary

/-- A function hands a mark on to a node: a mark that it holds, itself or in a node under it,
to a callee, and a summary mark of its own to a sink of its summary. -/
def HandsOn (g : EvidenceGraph) (summaries : Nat → Option CallSummary) (function : NodeId)
    (va : Nat) (x : NodeId) (mode : PropagationMode) (y : NodeId) : Prop :=
  (x = function ∨ (function, x) ∈ g.edgesOfKind .controlFlow) ∧
      (function, y) ∈ g.edgesOfKind .calls ∧ Accepts g summaries y ∨
    x = function ∧ mode = .summary ∧ ∃ summary, summaries va = some summary ∧
      ∃ site ∈ summary.sinksReached, g.sinkByVa site.2 = some y

/-- A mark with a mode on one node is passed on to another. -/
def Passes (g : EvidenceGraph) (summaries : Nat → Option CallSummary) (x : NodeId)
    (mode : PropagationMode) (y : NodeId) : Prop :=
  ∃ function va, functionVa g function = some va ∧ HandsOn g summaries function va x mode y

/-- A node gets a mark of a source over a number of hops from the marks of the first pass. -/
inductive Carries (g : EvidenceGraph) (summaries : Nat → Option CallSummary) (intra : TaintMap)
    (source : NodeId) : NodeId → PropagationMode → Nat → Prop
  | start {n : NodeId} {mark : TaintMark} : mark ∈ intra n → mark.sourceNode = source →
      Carries g summaries intra source n mark.mode 0
  | hop {x y : NodeId} {mode : PropagationMode} {k : Nat} :
      Carries g summaries intra source x mode k → Passes g summaries x mode y →
      Carries g summaries intra source y .summary (k + 1)

/-- A mark of a mode and a source, of so many hops or fewer. -/
def TaintMark.Gives (x : TaintMark) (mode : PropagationMode) (source : NodeId) (c : Nat) : Prop :=
  x.mode = mode ∧ x.sourceNode = source ∧ x.hopCount ≤ c

def Within (marks : List TaintMark) (mode : PropagationMode) (source : NodeId) (c : Nat) : Prop :=
  ∃ x ∈ marks, x.Gives mode source c

/-- Summary marks are kept once for each source, and their hops fit. -/
structure Kept (marks : List TaintMark) : Prop where
  once : marks.Pairwise fun x y =>
    x.mode = .summary → y.mode = .summary → x.sourceNode ≠ y.sourceNode
  fits : ∀ x ∈ marks, x.hopCount ≤ 2 ^ 32 - 1

section Lower
variable {mark : TaintMark} {l : List TaintMark} {mode : PropagationMode} {s c : Nat}

theorem within_cons {x : TaintMark} :
    Within (x :: l) mode s c ↔ x.Gives mode s c ∨ Within l mode s c := List.exists_mem_cons_iff ..

theorem within_lower :
    Within (TaintMap.lower mark l).1 mode s c ↔ Within l mode s c ∨ mark.Gives mode s c := by
  induction l with
  | nil => exact (within_cons.trans or_comm)
  | cons m rest ih =>
    rw [TaintMap.lower]
    split
    · rename_i hsame
      split
      · rename_i hlower
        rw [within_cons, within_cons]
        simp only [TaintMark.Gives, hsame.1, hsame.2]
        constructor
        · rintro (h | h)
          · exact .inr h
          · exact .inl (.inr h)
        · rintro ((⟨hm, hs, hc⟩ | h) | h)
          · exact .inl ⟨hm, hs, by omega⟩
          · exact .inr h
          · exact .inl h
      · rename_i hkeep
        rw [within_cons]
        refine (or_iff_left_of_imp fun h => .inl ?_).symm
        obtain ⟨hm, hs, hc⟩ := h
        exact ⟨hsame.2.trans hm, hsame.1.trans hs, by omega⟩
    · rw [within_cons, within_cons, ih, or_assoc]

/-- Where nothing changes, the mark is there already. -/
theorem lower_unchanged (h : (TaintMap.lower mark l).2 = false) :
    (TaintMap.lower mark l).1 = l := by
  induction l with
  | nil => cases h
  | cons m rest ih =>
    rw [TaintMap.lower] at h ⊢
    split at h
    · rename_i hsame
      rw [if_pos hsame]
      split at h
      · cases h
      · rename_i hkeep
        rw [if_neg hkeep]
    · rename_i hother
      rw [if_neg hother]
      exact congrArg (m :: ·) (ih h)

theorem lower_rests (hl : Kept l) (hmark : mark.mode = .summary)
    (h : Within l .summary mark.sourceNode mark.hopCount) :
    (TaintMap.lower mark l).2 = false := by
  induction l with
  | nil =>
    obtain ⟨x, hx, -⟩ := h
    exact absurd hx List.not_mem_nil
  | cons m rest ih =>
    obtain ⟨hfirst, honce⟩ := List.pairwise_cons.mp hl.once
    rw [TaintMap.lower]
    split
    · rename_i hsame
      split
      · rename_i hlower
        -- a second summary mark of the source would be one too many
        rcases within_cons.mp h with ⟨-, -, hle⟩ | ⟨x, hx, hmode, hsource, -⟩
        · omega
        · exact absurd (hsame.1.trans hsource.symm) (hfirst x hx (hsame.2.trans hmark) hmode)
      · rfl
    · rename_i hother
      refine ih ⟨honce, fun x hx => hl.fits x (List.mem_cons_of_mem _ hx)⟩ ?_
      refine (within_cons.mp h).resolve_left fun hgives => hother ⟨hgives.2.1, ?_⟩
      exact hgives.1.trans hmark.symm

theorem mem_lower {x : TaintMark} (h : x ∈ (TaintMap.lower mark l).1) :
    (∃ y ∈ l, x.mode = y.mode ∧ x.sourceNode = y.sourceNode) ∨ x = mark := by
  induction l with
  | nil => exact .inr (List.mem_singleton.mp h)
  | cons m rest ih =>
    rw [TaintMap.lower] at h
    split at h
    · split at h
      · rcases List.mem_cons.mp h with rfl | h
        · exact .inl ⟨m, List.mem_cons_self, rfl, rfl⟩
        · exact .inl ⟨x, List.mem_cons_of_mem _ h, rfl, rfl⟩
      · exact .inl ⟨x, h, rfl, rfl⟩
    · rcases List.mem_cons.mp h with rfl | h
      · exact .inl ⟨x, List.mem_cons_self, rfl, rfl⟩
      · rcases ih h with ⟨y, hy, heq⟩ | heq
        · exact .inl ⟨y, List.mem_cons_of_mem _ hy, heq⟩
        · exact .inr heq

theorem kept_lower (hl : Kept l) (hmark : mark.hopCount ≤ 2 ^ 32 - 1) :
    Kept (TaintMap.lower mark l).1 := by
  constructor
  · have honce := hl.once
    clear hl
    induction l with
    | nil => exact List.pairwise_singleton _ _
    | cons m rest ih =>
      obtain ⟨hfirst, hrest⟩ := List.pairwise_cons.mp honce
      rw [TaintMap.lower]
      split
      · split
        · exact List.pairwise_cons.mpr ⟨hfirst, hrest⟩
        · exact honce
      · rename_i hother
        refine List.pairwise_cons.mpr ⟨fun x hx hm hxm => ?_, ih hrest⟩
        rcases mem_lower hx with ⟨y, hy, hmode, hsource⟩ | rfl
        · rw [hsource]
          exact hfirst y hy hm (hmode.symm.trans hxm)
        · exact fun hsource => hother ⟨hsource, hm.trans hxm.symm⟩
  · exact TaintMap.lower_forall hmark hl.fits fun _ _ => hmark

end Lower

section AddAll
variable {m : TaintMap} {n x : NodeId} {mark : TaintMark}
  {mode : PropagationMode} {s c : Nat}

theorem within_add : Within ((m.add n mark).1 x) mode s c ↔
    Within (m x) mode s c ∨ n = x ∧ mark.Gives mode s c := by
  rw [TaintMap.add]
  dsimp only
  by_cases hx : x = n
  · subst hx
    rw [Function.update_self, within_lower]
    simp
  · rw [Function.update_of_ne hx]
    exact (or_iff_left fun h => hx h.1.symm).symm

theorem kept_add (hm : ∀ n, Kept (m n)) (hmark : mark.hopCount ≤ 2 ^ 32 - 1) :
    ∀ x, Kept ((m.add n mark).1 x) := by
  intro x
  rw [TaintMap.add]
  dsimp only
  by_cases hx : x = n
  · subst hx
    rw [Function.update_self]
    exact kept_lower (hm x) hmark
  · rw [Function.update_of_ne hx]
    exact hm x

theorem add_unchanged (h : (m.add n mark).2 = false) : (m.add n mark).1 = m := by
  rw [TaintMap.add] at h ⊢
  dsimp only at h ⊢
  rw [lower_unchanged h, Function.update_eq_self]

/-- The marks that a loop adds, one after the other. -/
theorem addAll_spec (marks : List (NodeId × TaintMark)) (m : TaintMap)
    (hmarks : ∀ e ∈ marks, e.2.mode = .summary ∧ e.2.hopCount ≤ 2 ^ 32 - 1)
    (hm : ∀ n, Kept (m n)) :
    (∀ n, Kept ((m.addAll marks).1 n)) ∧
      (∀ n mode s c, Within ((m.addAll marks).1 n) mode s c ↔
        Within (m n) mode s c ∨ ∃ e ∈ marks, e.1 = n ∧ e.2.Gives mode s c) ∧
      ((m.addAll marks).2 = false → (m.addAll marks).1 = m) ∧
      ((∀ e ∈ marks, Within (m e.1) .summary e.2.sourceNode e.2.hopCount) →
        (m.addAll marks).2 = false) := by
  have hfold : ∀ (marks : List (NodeId × TaintMark)) (m : TaintMap) (changed : Bool),
      (∀ e ∈ marks, e.2.mode = .summary ∧ e.2.hopCount ≤ 2 ^ 32 - 1) → (∀ n, Kept (m n)) →
      let result := marks.foldl (fun (state : TaintMap × Bool) e =>
        ((state.1.add e.1 e.2).1, state.2 || (state.1.add e.1 e.2).2)) (m, changed)
      (∀ n, Kept (result.1 n)) ∧
        (∀ n mode s c, Within (result.1 n) mode s c ↔
          Within (m n) mode s c ∨ ∃ e ∈ marks, e.1 = n ∧ e.2.Gives mode s c) ∧
        (result.2 = false → changed = false ∧ result.1 = m) ∧
        ((∀ e ∈ marks, Within (m e.1) .summary e.2.sourceNode e.2.hopCount) →
          changed = false → result.2 = false) := by
    intro marks
    induction marks with
    | nil => intro m changed _ hm; simpa using hm
    | cons e rest ih =>
      intro m changed hmarks hm
      obtain ⟨⟨hmode, hfits⟩, hrest⟩ := List.forall_mem_cons.mp hmarks
      rw [List.foldl_cons]
      obtain ⟨hkept, hwithin, hsame, hstop⟩ :=
        ih (m.add e.1 e.2).1 (changed || (m.add e.1 e.2).2) hrest (kept_add hm hfits)
      refine ⟨hkept, fun n mode s c => ?_, fun hresult => ?_, fun hall hchanged => ?_⟩
      · rw [hwithin, within_add, List.exists_mem_cons_iff, or_assoc]
      · obtain ⟨hflag, heq⟩ := hsame hresult
        obtain ⟨hchanged, hadd⟩ := Bool.or_eq_false_iff.mp hflag
        exact ⟨hchanged, heq.trans (add_unchanged hadd)⟩
      · obtain ⟨hfirst, hothers⟩ := List.forall_mem_cons.mp hall
        refine hstop (fun e' he' => within_add.mpr (.inl (hothers e' he'))) ?_
        rw [hchanged, Bool.false_or]
        exact lower_rests (hm e.1) hmode hfirst
  obtain ⟨hkept, hwithin, hsame, hstop⟩ := hfold marks m false hmarks hm
  exact ⟨hkept, hwithin, fun h => (hsame h).2, fun h => hstop h rfl⟩

end AddAll

section Rounds
variable {g : EvidenceGraph} {summaries : Nat → Option CallSummary} {m : TaintMap}
  {x y function : NodeId} {va : Nat} {mode : PropagationMode} {s c : Nat}

/-- One more hop, as far as hops are counted. -/
def raise (c : Nat) : Nat := if c < 2 ^ 32 - 1 then c + 1 else c

theorem raise_mono : Monotone raise := by
  intro a b hab
  rw [raise, raise]
  split <;> split <;> omega

theorem le_raise (c : Nat) : c ≤ raise c := by
  rw [raise]
  split <;> omega

theorem raise_iterate (k : Nat) : raise^[k] 0 = min k (2 ^ 32 - 1) := by
  induction k with
  | zero => rfl
  | succ k ih =>
    rw [Function.iterate_succ_apply', ih, raise]
    split <;> omega

theorem hop_eq {mark : TaintMark} (h : mark.hopCount ≤ 2 ^ 32 - 1) :
    mark.hop = ⟨mark.sourceNode, mark.sourceKind, .summary, raise mark.hopCount⟩ := by
  rw [TaintMark.hop, raise]
  congr 1
  split <;> omega

theorem mem_taintMarksInFunction {mark : TaintMark} :
    mark ∈ taintMarksInFunction g m function ↔
      ∃ x, mark ∈ m x ∧ (x = function ∨ (function, x) ∈ g.edgesOfKind .controlFlow) := by
  rw [taintMarksInFunction, List.mem_append, List.mem_flatMap]
  simp only [EvidenceGraph.mem_outgoingOfKind]
  constructor
  · rintro (h | ⟨x, hx, h⟩)
    · exact ⟨function, h, .inl rfl⟩
    · exact ⟨x, h, .inr hx⟩
  · rintro ⟨x, h, rfl | hx⟩
    · exact .inl h
    · exact .inr ⟨x, hx, h⟩

/-- What a function passes on are the hops from the marks that it holds. -/
theorem mem_passedMarks {e : NodeId × TaintMark} :
    e ∈ passedMarks g summaries m function va ↔ ∃ x, ∃ mark ∈ m x, e.2 = mark.hop ∧
      HandsOn g summaries function va x mark.mode e.1 := by
  obtain ⟨n, passed⟩ := e
  rw [passedMarks]
  split
  · rename_i hnone
    refine iff_of_false List.not_mem_nil ?_
    rintro ⟨x, mark, hmark, -, hheld⟩
    have hin : mark ∈ taintMarksInFunction g m function := by
      refine mem_taintMarksInFunction.mpr ⟨x, hmark, ?_⟩
      rcases hheld with ⟨hx, -⟩ | ⟨hx, -⟩
      · exact hx
      · exact .inl hx
    rw [hnone] at hin
    exact List.not_mem_nil hin
  · rw [List.mem_append]
    constructor
    · rintro (h | h)
      · split at h
        · rename_i summary hsummary
          obtain ⟨site, hsite, h⟩ := List.mem_flatMap.mp h
          dsimp only at h
          split at h
          · rename_i sinkId hsink
            obtain ⟨mark, hmark, heq⟩ := List.mem_map.mp h
            cases heq
            obtain ⟨hmark, hmode⟩ := List.mem_filter.mp hmark
            exact ⟨function, mark, hmark, rfl,
              .inr ⟨rfl, of_decide_eq_true hmode, summary, hsummary, site, hsite, hsink⟩⟩
          · exact absurd h List.not_mem_nil
        · exact absurd h List.not_mem_nil
      · obtain ⟨callee, hcallee, h⟩ := List.mem_flatMap.mp h
        obtain ⟨haccepts, h⟩ := List.mem_ite_nil_right.mp h
        obtain ⟨mark, hmark, heq⟩ := List.mem_map.mp h
        cases heq
        obtain ⟨x, hmark, hx⟩ := mem_taintMarksInFunction.mp hmark
        obtain ⟨summary, hsummary, haccepts⟩ := (Option.any_eq_true ..).mp haccepts
        refine ⟨x, mark, hmark, rfl, .inl ⟨hx, EvidenceGraph.mem_outgoingOfKind.mp hcallee, ?_⟩⟩
        split at hsummary
        · rename_i va hnode
          exact ⟨va, summary, functionVa_some.mpr hnode, hsummary, haccepts⟩
        · cases hsummary
    · rintro ⟨x, mark, hmark, heq, ⟨hx, hcall, haccepts⟩ | ⟨hx, hmode, summary, hsummary, site,
        hsite, hsink⟩⟩
      · refine .inr (List.mem_flatMap.mpr ⟨n, EvidenceGraph.mem_outgoingOfKind.mpr hcall, ?_⟩)
        obtain ⟨calleeVa, summary, hcallee, hsummary, haccepts⟩ := haccepts
        rw [functionVa_some.mp hcallee]
        refine List.mem_ite_nil_right.mpr
          ⟨(Option.any_eq_true ..).mpr ⟨summary, hsummary, haccepts⟩, ?_⟩
        exact List.mem_map.mpr ⟨mark, mem_taintMarksInFunction.mpr ⟨x, hmark, hx⟩,
          Prod.ext rfl heq.symm⟩
      · refine .inl ?_
        rw [hsummary]
        refine List.mem_flatMap.mpr ⟨site, hsite, ?_⟩
        dsimp only at hsink ⊢
        rw [hsink]
        subst hx
        exact List.mem_map.mpr ⟨mark, List.mem_filter.mpr ⟨hmark, decide_eq_true hmode⟩,
          Prod.ext rfl heq.symm⟩

/-- What follows from the marks at their hops, by one rule for each pass. -/
def taintScheme (g : EvidenceGraph) (summaries : Nat → Option CallSummary) :
    Saturation.Scheme TaintMap (NodeId × PropagationMode × NodeId) where
  round := propagateRound g summaries
  valid m := ∀ n, Kept (m n)
  within m f c := Within (m f.1) f.2.1 f.2.2 c
  rule f f' := Passes g summaries f.1 f.2.1 f'.1 ∧ f'.2.1 = .summary ∧ f'.2.2 = f.2.2
  raise := raise

/-- The turn of one function in a round. -/
theorem turn_spec (summaries : Nat → Option CallSummary) (hva : functionVa g function = some va)
    (hm : ∀ n, Kept (m n)) :
    let turn := m.addAll (passedMarks g summaries m function va)
    (∀ n, Kept (turn.1 n)) ∧
      (∀ n mode s c, Within (m n) mode s c → Within (turn.1 n) mode s c) ∧
      (∀ x mode y s c, HandsOn g summaries function va x mode y → Within (m x) mode s c →
        Within (turn.1 y) .summary s (raise c)) ∧
      (∀ J, (taintScheme g summaries).Closed J → (∀ n mode s c, Within (m n) mode s c →
        J (n, mode, s) c) → ∀ n mode s c, Within (turn.1 n) mode s c → J (n, mode, s) c) ∧
      (turn.2 = false → turn.1 = m) ∧
      ((taintScheme g summaries).Closed (fun f c => Within (m f.1) f.2.1 f.2.2 c) →
        turn.2 = false) := by
  have hmarks : ∀ e ∈ passedMarks g summaries m function va,
      e.2.mode = .summary ∧ e.2.hopCount ≤ 2 ^ 32 - 1 := by
    intro e he
    obtain ⟨x, mark, -, heq, -⟩ := mem_passedMarks.mp he
    rw [heq]
    exact ⟨rfl, Nat.min_le_right _ _⟩
  obtain ⟨hkept, hwithin, hsame, hstop⟩ := addAll_spec _ m hmarks hm
  refine ⟨hkept, fun n mode s c h => (hwithin n mode s c).mpr (.inl h), ?_, ?_, hsame, ?_⟩
  · rintro x mode y s c hpass ⟨mark, hmark, rfl, rfl, hle⟩
    refine (hwithin y _ _ _).mpr (.inr ⟨(y, mark.hop),
      mem_passedMarks.mpr ⟨x, mark, hmark, rfl, hpass⟩, rfl, ?_⟩)
    rw [hop_eq ((hm x).fits mark hmark)]
    exact ⟨rfl, rfl, raise_mono hle⟩
  · intro J hJ hJm n mode s c h
    rcases (hwithin n mode s c).mp h with h | ⟨e, he, rfl, hgives⟩
    · exact hJm n mode s c h
    · obtain ⟨x, mark, hmark, heq, hpass⟩ := mem_passedMarks.mp he
      rw [heq, hop_eq ((hm x).fits mark hmark)] at hgives
      obtain ⟨rfl, rfl, hle⟩ := hgives
      refine hJ.weaken _ (raise mark.hopCount) c ?_ hle
      exact hJ.step (x, mark.mode, mark.sourceNode) _ _
        (hJm x _ _ _ ⟨mark, hmark, rfl, rfl, Nat.le_refl _⟩) ⟨⟨function, va, hva, hpass⟩, rfl, rfl⟩
  · intro hclosed
    refine hstop fun e he => ?_
    obtain ⟨x, mark, hmark, heq, hpass⟩ := mem_passedMarks.mp he
    rw [heq, hop_eq ((hm x).fits mark hmark)]
    exact hclosed.step (x, mark.mode, mark.sourceNode) (e.1, .summary, mark.sourceNode) _
      ⟨mark, hmark, rfl, rfl, Nat.le_refl _⟩ ⟨⟨function, va, hva, hpass⟩, rfl, rfl⟩

/-- The body of the loop over the functions. -/
def functionTurn (g : EvidenceGraph) (summaries : Nat → Option CallSummary)
    (state : TaintMap × Bool) (e : NodeId × NodePayload) : TaintMap × Bool :=
  match e.2 with
  | .function va =>
    ((state.1.addAll (passedMarks g summaries state.1 e.1 va)).1,
      state.2 || (state.1.addAll (passedMarks g summaries state.1 e.1 va)).2)
  | _ => state

theorem functionTurn_function (state : TaintMap × Bool) (id : NodeId) (va : Nat) :
    functionTurn g summaries state (id, .function va) =
      ((state.1.addAll (passedMarks g summaries state.1 id va)).1,
        state.2 || (state.1.addAll (passedMarks g summaries state.1 id va)).2) := rfl

theorem functionTurn_other {e : NodeId × NodePayload} (h : ¬ ∃ va, e.2 = .function va)
    (state : TaintMap × Bool) : functionTurn g summaries state e = state := by
  rw [functionTurn]
  split
  · rename_i va hva
    exact absurd ⟨va, hva⟩ h
  · rfl

/-- A part of a round, by induction on its functions. -/
theorem turns_spec (summaries : Nat → Option CallSummary)
    (part : List (NodeId × NodePayload)) (m : TaintMap) (changed : Bool)
    (hpart : ∀ e ∈ part, g.node e.1 = some e.2) (hm : ∀ n, Kept (m n)) :
    let result := part.foldl (functionTurn g summaries) (m, changed)
    (∀ n, Kept (result.1 n)) ∧
      (∀ n mode s c, Within (m n) mode s c → Within (result.1 n) mode s c) ∧
      (∀ e ∈ part, ∀ va, e.2 = .function va → ∀ x mode y s c,
        HandsOn g summaries e.1 va x mode y → Within (m x) mode s c →
        Within (result.1 y) .summary s (raise c)) ∧
      (∀ J, (taintScheme g summaries).Closed J → (∀ n mode s c, Within (m n) mode s c →
        J (n, mode, s) c) → ∀ n mode s c, Within (result.1 n) mode s c → J (n, mode, s) c) ∧
      (result.2 = false → changed = false ∧ result.1 = m) ∧
      (changed = false →
        (taintScheme g summaries).Closed (fun f c => Within (m f.1) f.2.1 f.2.2 c) →
        result.2 = false) := by
  induction part generalizing m changed with
  | nil => exact ⟨hm, fun _ _ _ _ h => h, fun e he => absurd he List.not_mem_nil,
      fun _ _ h => h, fun h => ⟨h, rfl⟩, fun h _ => h⟩
  | cons e rest ih =>
    obtain ⟨id, payload⟩ := e
    obtain ⟨hnode, hrest⟩ := List.forall_mem_cons.mp hpart
    rw [List.foldl_cons]
    by_cases hfunction : ∃ va, payload = .function va
    · obtain ⟨va, rfl⟩ := hfunction
      obtain ⟨tkept, tkeeps, thands, tsound, tsame, tstop⟩ :=
        turn_spec summaries (functionVa_some.mpr hnode) hm
      rw [functionTurn_function]
      generalize m.addAll (passedMarks g summaries m id va) = turn at *
      obtain ⟨kept, keeps, hands, sound, same, stop⟩ := ih turn.1 (changed || turn.2) hrest tkept
      refine ⟨kept, fun n mode s c h => keeps n mode s c (tkeeps n mode s c h), ?_, ?_, ?_, ?_⟩
      · intro e he w hw x mode y s c hpass h
        rcases List.mem_cons.mp he with rfl | he
        · cases hw
          exact keeps y _ s _ (thands x mode y s c hpass h)
        · exact hands e he w hw x mode y s c hpass (tkeeps x mode s c h)
      · exact fun J hJ hJm => sound J hJ (tsound J hJ hJm)
      · intro hresult
        obtain ⟨hflag, heq⟩ := same hresult
        obtain ⟨hchanged, hturn⟩ := Bool.or_eq_false_iff.mp hflag
        exact ⟨hchanged, heq.trans (tsame hturn)⟩
      · intro hchanged hclosed
        have hturn := tstop hclosed
        refine stop (by rw [hchanged, hturn, Bool.or_false]) ?_
        rwa [tsame hturn]
    · rw [functionTurn_other hfunction]
      obtain ⟨kept, keeps, hands, rest⟩ := ih m changed hrest hm
      refine ⟨kept, keeps, fun e he w hw => ?_, rest⟩
      rcases List.mem_cons.mp he with rfl | he
      · exact absurd ⟨w, hw⟩ hfunction
      · exact hands e he w hw

theorem taintScheme_lawful : (taintScheme g summaries).Lawful := by
  have hspec : ∀ m : TaintMap, (∀ n, Kept (m n)) → _ := fun m hm =>
    turns_spec summaries (g.nodesOfKind .function) m false
      (fun e he => (EvidenceGraph.mem_nodesOfKind.mp he).1) hm
  constructor
  · exact fun m hm => (hspec m hm).1
  · rintro m f c c' ⟨mark, hmark, hmode, hsource, hle⟩ hcc
    exact ⟨mark, hmark, hmode, hsource, hle.trans hcc⟩
  · exact fun m f c hm h => (hspec m hm).2.1 _ _ _ _ h
  · rintro m f ⟨y, mode, s⟩ c hm h ⟨⟨function, va, hva, hpass⟩, rfl, rfl⟩
    refine (hspec m hm).2.2.1 (function, .function va) ?_ va rfl _ _ _ _ _ hpass h
    exact EvidenceGraph.mem_nodesOfKind.mpr ⟨functionVa_some.mp hva, rfl⟩
  · exact fun m J hm hJ hJm f c h =>
      (hspec m hm).2.2.2.1 J hJ (fun n mode s c h => hJm (n, mode, s) c h) _ _ _ _ h
  · intro m f c hm hround h
    have hsame := ((hspec m hm).2.2.2.2.1 hround).2
    exact hsame ▸ h
  · exact fun m hm hclosed => (hspec m hm).2.2.2.2.2 rfl hclosed
  · exact raise_mono
  · exact le_raise

end Rounds

section Result
variable {g : EvidenceGraph} {summaries : Nat → Option CallSummary} {intra m : TaintMap}
  {n source : NodeId} {mode : PropagationMode} {c k : Nat}

theorem rounds_eq_run (k : Nat) (m : TaintMap) :
    rounds g summaries k m = Saturation.run (propagateRound g summaries) k m := by
  induction k generalizing m with
  | zero => rfl
  | succ k ih =>
    rw [rounds, Saturation.run]
    dsimp only
    rw [ih]

theorem node_lt {payload : NodePayload} (h : g.node n = some payload) : n < g.nodeCount :=
  (List.getElem?_eq_some_iff.mp h).1

theorem node_of_sinkByVa {va : Nat} (h : g.sinkByVa va = some n) : n < g.nodeCount := by
  obtain ⟨⟨id, payload⟩, hfind, rfl⟩ := Option.map_eq_some_iff.mp h
  exact node_lt (EvidenceGraph.mem_nodesOfKind.mp
    (List.mem_reverse.mp (List.mem_of_find?_eq_some hfind))).1

theorem Passes.lt {x y : NodeId} (h : Passes g summaries x mode y) : y < g.nodeCount := by
  obtain ⟨-, -, -, ⟨-, -, va, -, hva, -⟩ | ⟨-, -, -, -, site, -, hsink⟩⟩ := h
  · exact node_lt (functionVa_some.mp hva)
  · exact node_of_sinkByVa hsink

theorem steps_source {f f' : NodeId × PropagationMode × NodeId}
    (h : Saturation.Steps (taintScheme g summaries).rule k f f') : f'.2.2 = f.2.2 := by
  induction k generalizing f with
  | zero => rw [h]
  | succ k ih =>
    obtain ⟨x, hrule, hrest⟩ := h
    exact (ih hrest).trans hrule.2.2

/-- The marks of a source meet no more nodes than there are. -/
theorem taint_bounded : (taintScheme g summaries).Bounded m (max g.nodeCount 1) := by
  intro f c _
  refine ⟨(Finset.range g.nodeCount).image fun y => (y, .summary, f.2.2), ?_, ?_⟩
  · refine (Finset.card_image_le).trans ?_
    rw [Finset.card_range]
    exact Nat.le_max_left _ _
  · rintro k x ⟨y, mode, source⟩ hsteps ⟨hpass, rfl, rfl⟩
    refine Finset.mem_image.mpr ⟨y, Finset.mem_range.mpr hpass.lt, ?_⟩
    rw [steps_source hsteps]

theorem Kept.eq {marks : List TaintMark} (h : Kept marks) {x y : TaintMark} (hx : x ∈ marks)
    (hy : y ∈ marks) (hxm : x.mode = .summary) (hym : y.mode = .summary)
    (hsource : x.sourceNode = y.sourceNode) : x = y := by
  have hsymm : Std.Symm fun x y : TaintMark =>
      x.mode = .summary → y.mode = .summary → x.sourceNode ≠ y.sourceNode :=
    ⟨fun _ _ h hy hx => (h hx hy).symm⟩
  by_contra hne
  exact h.once.forall hx hy hne hxm hym hsource

section Intra
variable (hintra : ∀ n, ∀ x ∈ intra n, x.mode = .exact ∧ x.hopCount = 0)
include hintra

theorem kept_intra (n : NodeId) : Kept (intra n) := by
  constructor
  · refine List.pairwise_of_forall_mem_list fun x hx _ _ hmode => ?_
    cases (hintra n x hx).1.symm.trans hmode
  · intro x hx
    rw [(hintra n x hx).2]
    exact Nat.zero_le _

omit hintra in
theorem Carries.steps {f f' : NodeId × PropagationMode × NodeId} {j : Nat}
    (h : Carries g summaries intra f.2.2 f.1 f.2.1 j)
    (hsteps : Saturation.Steps (taintScheme g summaries).rule k f f') :
    Carries g summaries intra f'.2.2 f'.1 f'.2.1 (j + k) := by
  induction k generalizing f j with
  | zero =>
    cases hsteps
    exact h
  | succ k ih =>
    obtain ⟨⟨y, mode, source⟩, ⟨hpass, rfl, rfl⟩, hrest⟩ := hsteps
    rw [show j + (k + 1) = j + 1 + k by omega]
    exact ih (h.hop hpass) hrest

/-- What the rules derive are the marks that chains of passes carry. -/
theorem derived_iff : (taintScheme g summaries).Derived intra (n, mode, source) c ↔
    ∃ k, Carries g summaries intra source n mode k ∧ min k (2 ^ 32 - 1) ≤ c := by
  constructor
  · rintro ⟨⟨x, mode', source'⟩, d, k, ⟨mark, hmark, rfl, rfl, -⟩, hsteps, hle⟩
    have hstart : Carries g summaries intra mark.sourceNode x mark.mode 0 := .start hmark rfl
    have hcarries := hstart.steps (f := (x, mark.mode, mark.sourceNode)) hsteps
    rw [Nat.zero_add] at hcarries
    refine ⟨k, hcarries, ?_⟩
    rw [← raise_iterate]
    exact (raise_mono.iterate k (Nat.zero_le d)).trans hle
  · rintro ⟨k, hcarries, hle⟩
    rw [← raise_iterate] at hle
    suffices h : ∃ x, ∃ mark ∈ intra x, mark.sourceNode = source ∧
        Saturation.Steps (taintScheme g summaries).rule k
          (x, mark.mode, source) (n, mode, source) by
      obtain ⟨x, mark, hmark, hsource, hsteps⟩ := h
      exact ⟨_, 0, k, ⟨mark, hmark, rfl, hsource, (hintra x mark hmark).2.le⟩, hsteps, hle⟩
    clear hle
    induction hcarries with
    | start hmark hsource => exact ⟨_, _, hmark, hsource, rfl⟩
    | hop _ hpass ih =>
      obtain ⟨x, mark, hmark, hsource, hsteps⟩ := ih
      exact ⟨x, mark, hmark, hsource, hsteps.tail ⟨hpass, rfl, rfl⟩⟩

theorem within_propagateInterprocedural :
    Within (propagateInterprocedural g summaries intra n) mode source c ↔
      ∃ k, Carries g summaries intra source n mode k ∧ min k (2 ^ 32 - 1) ≤ c := by
  rw [← derived_iff hintra, propagateInterprocedural, rounds_eq_run]
  exact Saturation.Scheme.within_run_iff (f := (n, mode, source)) taintScheme_lawful
    (kept_intra hintra) taint_bounded

end Intra

/-- When the second pass returns, a further round adds nothing. Its summary marks are those
that passes carry from the marks of the first pass, each at the fewest hops. -/
theorem propagateInterprocedural_least (g : EvidenceGraph) (summaries : Nat → Option CallSummary)
    (intra : TaintMap) (hintra : ∀ n, ∀ x ∈ intra n, x.mode = .exact ∧ x.hopCount = 0) :
    propagateRound g summaries (propagateInterprocedural g summaries intra) =
        (propagateInterprocedural g summaries intra, false) ∧
      (∀ n, ∀ x ∈ propagateInterprocedural g summaries intra n, x.mode = .summary →
        ∃ k, IsLeast {k | Carries g summaries intra x.sourceNode n .summary k} k ∧
          x.hopCount = min k (2 ^ 32 - 1)) ∧
      ∀ n source k, Carries g summaries intra source n .summary k →
        ∃ x ∈ propagateInterprocedural g summaries intra n,
          x.mode = .summary ∧ x.sourceNode = source := by
  have hkept : ∀ n, Kept (propagateInterprocedural g summaries intra n) := by
    rw [propagateInterprocedural, rounds_eq_run]
    exact Saturation.Scheme.valid_run taintScheme_lawful (kept_intra hintra)
  refine ⟨?_, fun n x hx hmode => ?_, fun n source k hcarries => ?_⟩
  · have hrests : (propagateRound g summaries (propagateInterprocedural g summaries intra)).2 =
        false := by
      rw [propagateInterprocedural, rounds_eq_run]
      exact Saturation.Scheme.run_rests taintScheme_lawful (kept_intra hintra) taint_bounded
    have hsame := ((turns_spec summaries (g.nodesOfKind .function) _ false
      (fun e he => (EvidenceGraph.mem_nodesOfKind.mp he).1) hkept).2.2.2.2.1 hrests).2
    exact Prod.ext hsame hrests
  · obtain ⟨k, hk, hle⟩ :=
      (within_propagateInterprocedural hintra).mp ⟨x, hx, hmode, rfl, Nat.le_refl _⟩
    classical
    have hexists : ∃ k, Carries g summaries intra x.sourceNode n .summary k := ⟨k, hk⟩
    refine ⟨Nat.find hexists, ⟨Nat.find_spec hexists, fun j hj => Nat.find_min' hexists hj⟩, ?_⟩
    obtain ⟨y, hy, hymode, hysource, hyle⟩ := (within_propagateInterprocedural hintra).mpr
      ⟨Nat.find hexists, Nat.find_spec hexists, Nat.le_refl _⟩
    rw [(hkept n).eq hy hx hymode hmode hysource] at hyle
    have hfind := Nat.find_min' hexists hk
    omega
  · obtain ⟨x, hx, hmode, hsource, -⟩ :=
      (within_propagateInterprocedural hintra).mpr ⟨k, hcarries, Nat.le_refl _⟩
    exact ⟨x, hx, hmode, hsource⟩

end Result

/-- Hops that count calls alone: a sink has those of the function that lists it. -/
inductive CarriesByCalls (g : EvidenceGraph) (summaries : Nat → Option CallSummary)
    (intra : TaintMap) (source : NodeId) : NodeId → PropagationMode → Nat → Prop
  | start {n : NodeId} {mark : TaintMark} : mark ∈ intra n → mark.sourceNode = source →
      CarriesByCalls g summaries intra source n mark.mode 0
  | call {function x callee : NodeId} {mode : PropagationMode} {k : Nat} :
      CarriesByCalls g summaries intra source x mode k → (functionVa g function).isSome →
      (x = function ∨ (function, x) ∈ g.edgesOfKind .controlFlow) →
      (function, callee) ∈ g.edgesOfKind .calls → Accepts g summaries callee →
      CarriesByCalls g summaries intra source callee .summary (k + 1)
  | sink {function sinkId : NodeId} {va k : Nat} {summary : CallSummary} {site : String × Nat} :
      CarriesByCalls g summaries intra source function .summary k →
      functionVa g function = some va → summaries va = some summary →
      site ∈ summary.sinksReached → g.sinkByVa site.2 = some sinkId →
      CarriesByCalls g summaries intra source sinkId .summary k

/-- The result is the least fixpoint, and its hop counts are the least numbers of calls that are
crossed, as far as hops are counted. -/
structure LeastByCalls (g : EvidenceGraph) (summaries : Nat → Option CallSummary)
    (intra : TaintMap) : Prop where
  rests : propagateRound g summaries (propagateInterprocedural g summaries intra) =
    (propagateInterprocedural g summaries intra, false)
  hops : ∀ n, ∀ x ∈ propagateInterprocedural g summaries intra n, x.mode = .summary →
    ∃ k, IsLeast {k | CarriesByCalls g summaries intra x.sourceNode n .summary k} k ∧
      x.hopCount = min k (2 ^ 32 - 1)
  reached : ∀ n source k, CarriesByCalls g summaries intra source n .summary k →
    ∃ x ∈ propagateInterprocedural g summaries intra n,
      x.mode = .summary ∧ x.sourceNode = source

/-- The summary of a function lists a sink of the graph. -/
def ListsSink (g : EvidenceGraph) (summaries : Nat → Option CallSummary)
    (function sinkId : NodeId) : Prop :=
  ∃ va summary, functionVa g function = some va ∧ summaries va = some summary ∧
    ∃ site ∈ summary.sinksReached, g.sinkByVa site.2 = some sinkId

/-- No function that taint reaches over calls, few enough to be counted, lists a sink. -/
def NoSinkReached (g : EvidenceGraph) (summaries : Nat → Option CallSummary)
    (intra : TaintMap) : Prop :=
  ∀ source function k, CarriesByCalls g summaries intra source function .summary k →
    k < 2 ^ 32 - 1 → ∀ sinkId, ¬ ListsSink g summaries function sinkId

section Calls
variable {g : EvidenceGraph} {summaries : Nat → Option CallSummary} {intra : TaintMap}
  {source n sinkId : NodeId} {mode : PropagationMode} {j k : Nat}

/-- A hop of the pass is a call, which counts, or the step to a sink, which does not. -/
theorem Carries.byCalls (h : Carries g summaries intra source n mode k) :
    ∃ j ≤ k, CarriesByCalls g summaries intra source n mode j := by
  induction h with
  | start hmark hsource => exact ⟨0, Nat.le_refl _, .start hmark hsource⟩
  | hop _ hpass ih =>
    obtain ⟨j, hj, hcalls⟩ := ih
    obtain ⟨function, va, hva, ⟨hheld, hcall, haccepts⟩ |
      ⟨rfl, rfl, summary, hsummary, site, hsite, hsink⟩⟩ := hpass
    · exact ⟨j + 1, Nat.succ_le_succ hj,
        .call hcalls (by rw [hva, Option.isSome_some]) hheld hcall haccepts⟩
    · exact ⟨j, Nat.le_succ_of_le hj, .sink hcalls hva hsummary hsite hsink⟩

theorem CarriesByCalls.carries (h : CarriesByCalls g summaries intra source n mode j) :
    ∃ k, Carries g summaries intra source n mode k := by
  induction h with
  | start hmark hsource => exact ⟨0, .start hmark hsource⟩
  | call _ hfunction hheld hcall haccepts ih =>
    obtain ⟨k, hk⟩ := ih
    obtain ⟨va, hva⟩ := Option.isSome_iff_exists.mp hfunction
    exact ⟨k + 1, hk.hop ⟨_, va, hva, .inl ⟨hheld, hcall, haccepts⟩⟩⟩
  | sink _ hva hsummary hsite hsink ih =>
    obtain ⟨k, hk⟩ := ih
    exact ⟨k + 1, hk.hop ⟨_, _, hva, .inr ⟨rfl, rfl, _, hsummary, _, hsite, hsink⟩⟩⟩

/-- Where no sink is reached, calls are the only hops. -/
theorem NoSinkReached.carries (hnone : NoSinkReached g summaries intra)
    (h : CarriesByCalls g summaries intra source n mode k) (hk : k < 2 ^ 32 - 1) :
    Carries g summaries intra source n mode k := by
  induction h with
  | start hmark hsource => exact .start hmark hsource
  | call _ hfunction hheld hcall haccepts ih =>
    obtain ⟨va, hva⟩ := Option.isSome_iff_exists.mp hfunction
    exact (ih (by omega)).hop ⟨_, va, hva, .inl ⟨hheld, hcall, haccepts⟩⟩
  | sink hcalls hva hsummary hsite hsink =>
    exact absurd ⟨_, _, hva, hsummary, _, hsite, hsink⟩ (hnone _ _ _ hcalls hk _)

/-- Only a function that lists the sink hands a mark on to it. -/
theorem Carries.toSink {va : Nat} (hsink : g.sinkByVa va = some sinkId)
    (hintra : ∀ n, ∀ x ∈ intra n, x.mode = .exact ∧ x.hopCount = 0)
    (h : Carries g summaries intra source sinkId .summary k) :
    ∃ function j, k = j + 1 ∧ Carries g summaries intra source function .summary j ∧
      ListsSink g summaries function sinkId := by
  generalize hmode : PropagationMode.summary = mode at h
  cases h with
  | start hmark _ =>
    rw [(hintra _ _ hmark).1] at hmode
    cases hmode
  | hop hcarries hpass =>
    obtain ⟨function, va', hva, ⟨_, _, va'', _, hcallee, _⟩ | ⟨rfl, rfl, hlists⟩⟩ := hpass
    · -- the callee is a function, and the sink is not
      obtain ⟨⟨id, payload⟩, hfind, rfl⟩ := Option.map_eq_some_iff.mp hsink
      obtain ⟨hnode, hkind⟩ := EvidenceGraph.mem_nodesOfKind.mp
        (List.mem_reverse.mp (List.mem_of_find?_eq_some hfind))
      rw [functionVa_some.mp hcallee] at hnode
      cases hnode
      cases hkind
    · obtain ⟨summary, hsummary, hsite⟩ := hlists
      exact ⟨_, _, rfl, hcarries, va', summary, hva, hsummary, hsite⟩

/-- Hop counts are numbers of calls exactly where no function that taint reaches lists a sink. -/
theorem leastByCalls_iff (g : EvidenceGraph) (summaries : Nat → Option CallSummary)
    (intra : TaintMap) (hintra : ∀ n, ∀ x ∈ intra n, x.mode = .exact ∧ x.hopCount = 0) :
    LeastByCalls g summaries intra ↔ NoSinkReached g summaries intra := by
  obtain ⟨hrests, hhops, hreached⟩ := propagateInterprocedural_least g summaries intra hintra
  constructor
  · rintro h source function j hcalls hj sinkId ⟨va, summary, hva, hsummary, site, hsite, hsink⟩
    have hsinkCalls : CarriesByCalls g summaries intra source sinkId .summary j :=
      .sink hcalls hva hsummary hsite hsink
    obtain ⟨x, hx, hmode, rfl⟩ := h.reached _ _ _ hsinkCalls
    obtain ⟨c, hc, hcount⟩ := h.hops sinkId x hx hmode
    obtain ⟨k, hk, hcount'⟩ := hhops sinkId x hx hmode
    have hcj := hc.2 hsinkCalls
    -- the last hop to the sink costs one, and no call
    obtain ⟨last, i, rfl, hlast, va', summary', hva', hsummary', site', hsite', hsink'⟩ :=
      hk.1.toSink hsink hintra
    obtain ⟨i', hi', hlastCalls⟩ := hlast.byCalls
    have hci := hc.2 (.sink hlastCalls hva' hsummary' hsite' hsink')
    omega
  · intro hnone
    refine ⟨hrests, fun n x hx hmode => ?_, fun n source k hcalls => ?_⟩
    · obtain ⟨k, hk, hcount⟩ := hhops n x hx hmode
      obtain ⟨j, hj, hcalls⟩ := hk.1.byCalls
      classical
      have hexists : ∃ c, CarriesByCalls g summaries intra x.sourceNode n .summary c :=
        ⟨j, hcalls⟩
      refine ⟨Nat.find hexists, ⟨Nat.find_spec hexists, fun c hc => Nat.find_min' hexists hc⟩, ?_⟩
      have hle := (Nat.find_min' hexists hcalls).trans hj
      by_cases hfew : Nat.find hexists < 2 ^ 32 - 1
      · have hge := hk.2 (hnone.carries (Nat.find_spec hexists) hfew)
        omega
      · omega
    · obtain ⟨k, hk⟩ := hcalls.carries
      exact hreached n source k hk

end Calls

section Example

/-- A function receives data and calls another, which copies memory. -/
def receiveAndCopy : EvidenceGraph :=
  ⟨[.function 16, .function 32, .callSite 40 (some "memcpy"), .sink "memcpy" 40,
      .callSite 20 (some "recv")],
    [⟨0, 1, .calls⟩, ⟨0, 4, .controlFlow⟩, ⟨1, 2, .controlFlow⟩, ⟨2, 3, .dataFlow⟩]⟩

def copySummary (va : Nat) : Option CallSummary :=
  if va = 32 then some ⟨[], [], [("memcpy", 40)], [], []⟩ else none

def receivedMark : TaintMap := fun n => if n = 4 then [⟨4, "recv", .exact, 0⟩] else []

/-- The sink behind the one call is marked at two hops. -/
theorem receiveAndCopy_sink : ⟨4, "recv", .summary, 2⟩ ∈
    propagateInterprocedural receiveAndCopy copySummary receivedMark 3 := by decide

theorem sink_not_at_call_hops : ∃ n, ∃ x ∈
    propagateInterprocedural receiveAndCopy copySummary receivedMark n, x.mode = .summary ∧
      ¬ IsLeast {k | CarriesByCalls receiveAndCopy copySummary receivedMark x.sourceNode n
        .summary k} x.hopCount := by
  refine ⟨3, _, receiveAndCopy_sink, rfl, fun hleast => ?_⟩
  have hmark : (⟨4, "recv", .exact, 0⟩ : TaintMark) ∈ receivedMark 4 := List.mem_singleton_self _
  have hstart : CarriesByCalls receiveAndCopy copySummary receivedMark 4 4 .exact 0 :=
    .start hmark rfl
  have hcallee : Accepts receiveAndCopy copySummary 1 := ⟨32, _, rfl, rfl, rfl⟩
  have hheld : ((0 : NodeId), (4 : NodeId)) ∈ receiveAndCopy.edgesOfKind .controlFlow := by decide
  have hcall : CarriesByCalls receiveAndCopy copySummary receivedMark 4 1 .summary 1 :=
    .call hstart rfl (.inr hheld) (by decide) hcallee
  have hone : CarriesByCalls receiveAndCopy copySummary receivedMark 4 3 .summary 1 :=
    .sink hcall rfl rfl List.mem_cons_self (by decide)
  exact absurd (hleast.2 hone) (by decide)

/-- The callee accepts taint and lists no sink. -/
def takingSummary (va : Nat) : Option CallSummary :=
  if va = 32 then some ⟨[true], [], [], [], []⟩ else none

/-- Without a sink behind the call, the one hop of the callee is the one call. -/
theorem leastByCalls_iff_taking : LeastByCalls receiveAndCopy takingSummary receivedMark ∧
    ⟨4, "recv", .summary, 1⟩ ∈
      propagateInterprocedural receiveAndCopy takingSummary receivedMark 1 := by
  have hintra : ∀ n, ∀ x ∈ receivedMark n, x.mode = .exact ∧ x.hopCount = 0 := by
    intro n x hx
    rw [receivedMark] at hx
    split at hx
    · cases List.mem_singleton.mp hx
      exact ⟨rfl, rfl⟩
    · exact absurd hx List.not_mem_nil
  have hnone : NoSinkReached receiveAndCopy takingSummary receivedMark := by
    rintro source function k - - sinkId ⟨va, summary, -, hsummary, site, hsite, -⟩
    rw [takingSummary] at hsummary
    split at hsummary
    · cases hsummary
      exact absurd hsite List.not_mem_nil
    · cases hsummary
  exact ⟨(leastByCalls_iff receiveAndCopy takingSummary receivedMark hintra).mpr hnone,
    by decide⟩

end Example

end Axe.Vuln
