import Axe.Vuln.Summaries

/-!
# Summaries are closed under calls

The loops over the call sites give every function what its own calls say. The rounds over
the calls then give it what the functions say that it reaches, and nothing else.
-/
namespace Axe.Vuln

/-- The summary of an address says a fact. -/
def Holds (out : SummaryMap) (va : Nat) (fact : Fact) : Prop :=
  ∃ summary, out.lookup va = some summary ∧ summary.Has fact

def AllSized (out : SummaryMap) : Prop :=
  ∀ va summary, out.lookup va = some summary → summary.Sized

/-- The same functions have a summary, and these say some facts more. -/
structure Grows (out out' : SummaryMap) (more : Nat → Fact → Prop) : Prop where
  mem : ∀ va, va ∈ out' ↔ va ∈ out
  facts : ∀ va fact, Holds out' va fact ↔ Holds out va fact ∨ va ∈ out ∧ more va fact
  sized : AllSized out → AllSized out'

section Growth
variable {out out' out'' : SummaryMap} {more more' : Nat → Fact → Prop} {va : Nat} {fact : Fact}
  {f : CallSummary → CallSummary}

theorem Holds.mem (h : Holds out va fact) : va ∈ out := by
  obtain ⟨summary, hlookup, -⟩ := h
  exact AList.lookup_isSome.mp (Option.isSome_iff_exists.mpr ⟨summary, hlookup⟩)

theorem Grows.refl : Grows out out fun _ _ => False :=
  ⟨fun _ => Iff.rfl, fun _ _ => by simp, id⟩

theorem Grows.trans (h : Grows out out' more) (h' : Grows out' out'' more') :
    Grows out out'' fun va fact => more va fact ∨ more' va fact where
  mem va := (h'.mem va).trans (h.mem va)
  facts va fact := by
    rw [h'.facts, h.facts, h.mem, and_or_left, or_assoc]
  sized hs := h'.sized (h.sized hs)

theorem Grows.foldl {α : Type} {step : SummaryMap → α → SummaryMap}
    {more : α → Nat → Fact → Prop} (items : List α)
    (hstep : ∀ item ∈ items, ∀ out, Grows out (step out item) (more item)) (out : SummaryMap) :
    Grows out (items.foldl step out) fun va fact => ∃ item ∈ items, more item va fact := by
  induction items generalizing out with
  | nil => simpa using Grows.refl
  | cons item rest ih =>
    obtain ⟨hitem, hrest⟩ := List.forall_mem_cons.mp hstep
    have hboth := (hitem out).trans (ih hrest (step out item))
    simpa only [List.foldl_cons, List.exists_mem_cons_iff] using hboth

theorem lookup_modify {x : Nat} :
    (modify va f out).lookup x = if x = va then (out.lookup va).map f else out.lookup x := by
  rw [modify]
  split
  · rename_i summary hlookup
    by_cases hx : x = va
    · subst hx
      rw [if_pos rfl, AList.lookup_insert, hlookup, Option.map_some]
    · rw [if_neg hx, AList.lookup_insert_ne hx]
  · rename_i hlookup
    by_cases hx : x = va
    · subst hx
      rw [if_pos rfl, hlookup, Option.map_none]
    · rw [if_neg hx]

theorem Grows.modify {more : Fact → Prop}
    (hf : ∀ s fact, (f s).Has fact ↔ s.Has fact ∨ more fact)
    (hsized : ∀ s : CallSummary, s.Sized → (f s).Sized) (va : Nat) (out : SummaryMap) :
    Grows out (modify va f out) fun x fact => x = va ∧ more fact where
  mem x := by
    rw [← AList.lookup_isSome, ← AList.lookup_isSome, lookup_modify]
    split
    · rename_i hx
      rw [hx, Option.isSome_map]
    · exact Iff.rfl
  facts x fact := by
    rw [← AList.lookup_isSome, Holds, Holds, lookup_modify]
    by_cases hx : x = va
    · subst hx
      cases out.lookup x with
      | none => simp
      | some summary => simp [hf]
    · simp [hx]
  sized hs := by
    intro x summary hlookup
    rw [lookup_modify] at hlookup
    split at hlookup
    · obtain ⟨old, hold, rfl⟩ := Option.map_eq_some_iff.mp hlookup
      exact hsized old (hs va old hold)
    · exact hs x summary hlookup

end Growth

section Direct
variable {g : EvidenceGraph} {va : Nat} {fact : Fact}

/-- What a call site says about the functions that it hangs under. -/
def CallFact (g : EvidenceGraph) (callsite : NodeId × NodePayload) (fact : Fact) : Prop :=
  ∃ site api, callsite.2 = .callSite site (some api) ∧
    (ApiFact api fact ∨ ∃ sink ∈ sinksOfCall g callsite.1, fact = .sink sink)

theorem has_pushSink (sink : String × Nat) (s : CallSummary) (fact : Fact) :
    (pushSink sink s).Has fact ↔ s.Has fact ∨ fact = .sink sink := by
  cases fact <;> simp [pushSink, CallSummary.Has]

theorem grows_populate (callsite : NodeId × NodePayload) (out : SummaryMap) :
    Grows out (populate g out callsite) fun va fact =>
      va ∈ callingFunctions g callsite.1 ∧ CallFact g callsite fact := by
  rw [populate]
  split
  · rename_i site api hpayload
    have hapi := Grows.foldl (callingFunctions g callsite.1)
      (fun va _ => Grows.modify (has_applyApiSemantics api)
        (fun _ => sized_applyApiSemantics) va) out
    have hsinks := Grows.foldl (sinksOfCall g callsite.1)
      (fun sink _ => Grows.foldl (callingFunctions g callsite.1)
        (fun va _ => Grows.modify (has_pushSink sink)
          (fun _ hs => ⟨hs.taintIn, hs.taintOut⟩) va))
      ((callingFunctions g callsite.1).foldl (fun out va => modify va (applyApiSemantics api) out)
        out)
    have hboth := hapi.trans hsinks
    refine ⟨hboth.mem, fun va fact => (hboth.facts va fact).trans ?_, hboth.sized⟩
    refine or_congr_right (and_congr_right fun _ => ?_)
    simp only [CallFact, hpayload, NodePayload.callSite.injEq, Option.some.injEq]
    constructor
    · rintro (⟨caller, hcaller, rfl, hfact⟩ | ⟨sink, hsink, caller, hcaller, rfl, hfact⟩)
      · exact ⟨hcaller, site, api, ⟨rfl, rfl⟩, .inl hfact⟩
      · exact ⟨hcaller, site, api, ⟨rfl, rfl⟩, .inr ⟨sink, hsink, hfact⟩⟩
    · rintro ⟨hcaller, _, _, ⟨rfl, rfl⟩, hfact | ⟨sink, hsink, hfact⟩⟩
      · exact .inl ⟨va, hcaller, rfl, hfact⟩
      · exact .inr ⟨sink, hsink, va, hcaller, rfl, hfact⟩
  · rename_i hpayload
    refine ⟨fun _ => Iff.rfl, fun va fact => ?_, id⟩
    refine (or_iff_left ?_).symm
    rintro ⟨-, -, site, api, heq, -⟩
    exact hpayload site api heq

theorem functionVa_some {id : NodeId} :
    functionVa g id = some va ↔ g.node id = some (.function va) := by
  rw [functionVa]
  split
  · rename_i w hnode
    rw [hnode, Option.some.injEq, Option.some.injEq, NodePayload.function.injEq]
  · rename_i hnode
    exact ⟨fun h => absurd h.symm (Option.some_ne_none va), fun h => absurd h (hnode va)⟩

theorem foldl_emptySummaries (functions : List (NodeId × NodePayload)) (out : SummaryMap)
    (hout : ∀ va summary, out.lookup va = some summary → summary = CallSummary.empty) :
    let result := functions.foldl (insertEmpty g) out
    (∀ va, va ∈ result ↔ va ∈ out ∨ ∃ f ∈ functions, functionVa g f.1 = some va) ∧
      ∀ va summary, result.lookup va = some summary → summary = CallSummary.empty := by
  induction functions generalizing out with
  | nil => exact ⟨fun va => by simp, hout⟩
  | cons function rest ih =>
    simp only [List.foldl_cons, insertEmpty]
    cases hva : functionVa g function.1 with
    | none =>
      obtain ⟨hmem, hempty⟩ := ih out hout
      exact ⟨fun va => by simp [hmem, hva], hempty⟩
    | some w =>
      obtain ⟨hmem, hempty⟩ := ih (out.insert w CallSummary.empty) (fun va summary hlookup => by
        by_cases hw : va = w
        · subst hw
          rw [AList.lookup_insert] at hlookup
          exact (Option.some.inj hlookup).symm
        · rw [AList.lookup_insert_ne hw] at hlookup
          exact hout va summary hlookup)
      refine ⟨fun va => ?_, hempty⟩
      rw [hmem, AList.mem_insert, List.exists_mem_cons_iff, hva, Option.some.injEq]
      grind

theorem mem_emptySummaries : va ∈ emptySummaries g ↔ ∃ id, functionVa g id = some va := by
  refine ((foldl_emptySummaries (g.nodesOfKind .function) ∅
    (fun _ _ h => by cases h)).1 va).trans ?_
  constructor
  · rintro (h | ⟨function, -, hva⟩)
    · exact absurd h (AList.notMem_empty va)
    · exact ⟨function.1, hva⟩
  · rintro ⟨id, hva⟩
    exact .inr ⟨(id, .function va),
      EvidenceGraph.mem_nodesOfKind.mpr ⟨functionVa_some.mp hva, rfl⟩, hva⟩

theorem emptySummaries_lookup {summary : CallSummary}
    (h : (emptySummaries g).lookup va = some summary) : summary = CallSummary.empty :=
  (foldl_emptySummaries (g.nodesOfKind .function) ∅ (fun _ _ h => by cases h)).2 va summary h

/-- Every function has a summary of what its own call sites say. -/
theorem directSummaries_spec :
    (∀ va, va ∈ directSummaries g ↔ ∃ id, functionVa g id = some va) ∧
      AllSized (directSummaries g) ∧
      ∀ va fact, Holds (directSummaries g) va fact ↔ (∃ id, functionVa g id = some va) ∧
        ∃ callsite ∈ g.nodesOfKind .callSite, va ∈ callingFunctions g callsite.1 ∧
          CallFact g callsite fact := by
  have hgrows := Grows.foldl (g.nodesOfKind .callSite)
    (fun callsite _ => grows_populate (g := g) callsite) (emptySummaries g)
  refine ⟨fun va => (hgrows.mem va).trans mem_emptySummaries, hgrows.sized ?_, fun va fact => ?_⟩
  · intro va summary hlookup
    rw [emptySummaries_lookup hlookup]
    exact ⟨rfl, rfl⟩
  · refine (hgrows.facts va fact).trans ?_
    rw [mem_emptySummaries]
    refine or_iff_right ?_
    rintro ⟨summary, hlookup, hfact⟩
    rw [emptySummaries_lookup hlookup] at hfact
    cases fact <;>
      simp [CallSummary.Has, CallSummary.empty, List.getElem?_replicate] at hfact

end Direct

section Calls
variable {calls : List (Nat × Nat)} {m : SummaryMap} {u v x : Nat} {fact : Fact}

theorem mergeCall_spec (changed : Bool) (v : Nat) (hsized : AllSized m) (hu : u ∈ m) :
    (∀ x, x ∈ (mergeCall (m, changed) (u, v)).1 ↔ x ∈ m) ∧
      AllSized (mergeCall (m, changed) (u, v)).1 ∧
      (∀ x fact, Holds (mergeCall (m, changed) (u, v)).1 x fact ↔
        Holds m x fact ∨ x = u ∧ Holds m v fact) ∧
      ((mergeCall (m, changed) (u, v)).2 = false ↔
        changed = false ∧ ∀ fact, Holds m v fact → Holds m u fact) := by
  obtain ⟨caller, hcaller⟩ := Option.isSome_iff_exists.mp (AList.lookup_isSome.mpr hu)
  rw [mergeCall]
  cases hcallee : m.lookup v with
  | none =>
    have hv : ∀ fact, ¬ Holds m v fact := by
      rintro fact ⟨callee, hlookup, -⟩
      cases hcallee.symm.trans hlookup
    refine ⟨fun _ => Iff.rfl, hsized, fun x fact => ?_, ?_⟩
    · exact (or_iff_left fun h => hv fact h.2).symm
    · exact (and_iff_left fun fact h => absurd h (hv fact)).symm
  | some callee =>
    simp only [hcaller]
    have hmsized := hsized u caller hcaller
    have hholds : ∀ fact, Holds m v fact ↔ callee.Has fact := by
      intro fact
      constructor
      · rintro ⟨summary, hlookup, hfact⟩
        cases hcallee.symm.trans hlookup
        exact hfact
      · exact fun hfact => ⟨callee, hcallee, hfact⟩
    refine ⟨fun x => ?_, fun x summary hlookup => ?_, fun x fact => ?_, ?_⟩
    · rw [AList.mem_insert]
      exact or_iff_right_of_imp fun h => h ▸ hu
    · by_cases hx : x = u
      · subst hx
        rw [AList.lookup_insert] at hlookup
        cases hlookup
        exact sized_mergeSummary hmsized (hsized v callee hcallee)
      · rw [AList.lookup_insert_ne hx] at hlookup
        exact hsized x summary hlookup
    · by_cases hx : x = u
      · subst hx
        rw [Holds, AList.lookup_insert, hholds, Holds, hcaller]
        simp [has_mergeSummary]
      · rw [Holds, AList.lookup_insert_ne hx]
        exact (or_iff_left fun h => hx h.1).symm
    · rw [Bool.or_eq_false_iff, mergeSummary_unchanged hmsized (hsized v callee hcallee)]
      refine and_congr_right fun _ => forall_congr' fun fact => ?_
      rw [hholds, Holds, hcaller]
      simp

/-- The calls among known functions hand up facts, which cost nothing. -/
def summaryScheme (calls : List (Nat × Nat)) (known : Nat → Prop) :
    Saturation.Scheme SummaryMap (Nat × Fact) where
  round := summaryRound calls
  valid m := AllSized m ∧ ∀ va, va ∈ m ↔ known va
  within m f _ := Holds m f.1 f.2
  rule f f' := (f'.1, f.1) ∈ calls ∧ f'.2 = f.2
  raise := id

/-- What a part of a round does, by induction on its calls. -/
theorem mergeCalls_spec (part : List (Nat × Nat)) (m : SummaryMap) (changed : Bool)
    (hsized : AllSized m) (hcallers : ∀ call ∈ part, call.1 ∈ m) :
    let result := part.foldl mergeCall (m, changed)
    (∀ x, x ∈ result.1 ↔ x ∈ m) ∧ AllSized result.1 ∧
      (∀ x fact, Holds m x fact → Holds result.1 x fact) ∧
      (∀ u v fact, (u, v) ∈ part → Holds m v fact → Holds result.1 u fact) ∧
      (∀ J : Nat → Fact → Prop, (∀ u v fact, (u, v) ∈ part → J v fact → J u fact) →
        (∀ x fact, Holds m x fact → J x fact) → ∀ x fact, Holds result.1 x fact → J x fact) ∧
      (result.2 = false → changed = false ∧ ∀ x fact, Holds result.1 x fact → Holds m x fact) ∧
      (changed = false → (∀ u v fact, (u, v) ∈ part → Holds m v fact → Holds m u fact) →
        result.2 = false) := by
  induction part generalizing m changed with
  | nil => simp [hsized]
  | cons call rest ih =>
    obtain ⟨u, v⟩ := call
    obtain ⟨hu, hrest⟩ := List.forall_mem_cons.mp hcallers
    obtain ⟨hmem, hsized', hholds, hsame⟩ := mergeCall_spec changed v hsized hu
    simp only [List.foldl_cons]
    generalize mergeCall (m, changed) (u, v) = state at hmem hsized' hholds hsame
    obtain ⟨m', changed'⟩ := state
    obtain ⟨imem, isized, ikeeps, iapplies, isound, iunchanged, irests⟩ :=
      ih m' changed' hsized' fun call hcall => (hmem _).mpr (hrest call hcall)
    refine ⟨fun x => (imem x).trans (hmem x), isized, ?_, ?_, ?_, ?_, ?_⟩
    · exact fun x fact h => ikeeps x fact ((hholds x fact).mpr (.inl h))
    · intro a b fact hcall hfact
      rcases List.mem_cons.mp hcall with heq | hcall
      · cases heq
        exact ikeeps u fact ((hholds u fact).mpr (.inr ⟨rfl, hfact⟩))
      · exact iapplies a b fact hcall ((hholds b fact).mpr (.inl hfact))
    · intro J hJ hm
      refine isound J (fun a b fact hcall => hJ a b fact (List.mem_cons_of_mem _ hcall)) ?_
      intro x fact hx
      rcases (hholds x fact).mp hx with h | ⟨rfl, h⟩
      · exact hm x fact h
      · exact hJ x v fact List.mem_cons_self (hm v fact h)
    · intro hresult
      obtain ⟨hchanged', hback⟩ := iunchanged hresult
      obtain ⟨hchanged, hno⟩ := hsame.mp hchanged'
      refine ⟨hchanged, fun x fact hx => ?_⟩
      rcases (hholds x fact).mp (hback x fact hx) with h | ⟨rfl, h⟩
      · exact h
      · exact hno fact h
    · intro hchanged hclosed
      have hno : ∀ fact, Holds m v fact → Holds m u fact :=
        fun fact => hclosed u v fact List.mem_cons_self
      have hback : ∀ x fact, Holds m' x fact → Holds m x fact := by
        intro x fact hx
        rcases (hholds x fact).mp hx with h | ⟨rfl, h⟩
        · exact h
        · exact hno fact h
      refine irests (hsame.mpr ⟨hchanged, hno⟩) fun a b fact hcall hfact => ?_
      exact (hholds a fact).mpr
        (.inl (hclosed a b fact (List.mem_cons_of_mem _ hcall) (hback b fact hfact)))

theorem summaryScheme_lawful {known : Nat → Prop} (hcalls : ∀ call ∈ calls, known call.1) :
    (summaryScheme calls known).Lawful := by
  have hspec : ∀ m, (summaryScheme calls known).valid m → _ := fun m hm =>
    mergeCalls_spec calls m false hm.1 fun call hcall => (hm.2 _).mpr (hcalls call hcall)
  constructor
  · intro m hm
    obtain ⟨hmem, hsized, -⟩ := hspec m hm
    exact ⟨hsized, fun va => (hmem va).trans (hm.2 va)⟩
  · exact fun _ _ _ _ h _ => h
  · intro m f c hm h
    exact (hspec m hm).2.2.1 f.1 f.2 h
  · rintro m f f' c hm h ⟨hcall, hfact⟩
    have happly := (hspec m hm).2.2.2.1 f'.1 f.1 f.2 hcall h
    rwa [← hfact] at happly
  · intro m J hm hJ hwithin f c h
    refine (hspec m hm).2.2.2.2.1 (fun x fact => J (x, fact) c)
      (fun u v fact hcall hv => ?_) (fun x fact hx => hwithin (x, fact) c hx) f.1 f.2 h
    exact hJ.step (v, fact) (u, fact) c hv ⟨hcall, rfl⟩
  · intro m f c hm hround h
    exact ((hspec m hm).2.2.2.2.2.1 hround).2 f.1 f.2 h
  · intro m hm hclosed
    refine (hspec m hm).2.2.2.2.2.2 rfl fun u v fact hcall hv => ?_
    exact hclosed.step (v, fact) (u, fact) 0 hv ⟨hcall, rfl⟩
  · exact monotone_id
  · exact fun _ => Nat.le_refl _

theorem steps_fact {known : Nat → Prop} {n : Nat} {f f' : Nat × Fact}
    (h : Saturation.Steps (summaryScheme calls known).rule n f f') : f'.2 = f.2 := by
  induction n generalizing f with
  | zero => rw [h]
  | succ n ih =>
    obtain ⟨g, hrule, hrest⟩ := h
    exact (ih hrest).trans hrule.2

/-- A fact meets no more functions than have summaries. -/
theorem summaries_bounded {known : Nat → Prop} (hcallers : ∀ call ∈ calls, call.1 ∈ m) :
    (summaryScheme calls known).Bounded m (max m.entries.length 1) := by
  intro f c _
  refine ⟨m.keys.toFinset.image fun va => (va, f.2), ?_, fun n g g' hsteps hrule => ?_⟩
  · have hkeys : m.keys.length = m.entries.length := List.length_map _
    have hcard := (Finset.card_image_le (s := m.keys.toFinset)
      (f := fun va => (va, f.2))).trans (List.toFinset_card_le m.keys)
    omega
  · refine Finset.mem_image.mpr ⟨g'.1, ?_, ?_⟩
    · exact List.mem_toFinset.mpr (hcallers _ hrule.1)
    · rw [← steps_fact hsteps, ← hrule.2]

end Calls

section Closure
variable {g : EvidenceGraph}

def IsFunctionVa (g : EvidenceGraph) (va : Nat) : Prop := ∃ id, functionVa g id = some va

/-- A call from one function to another. -/
def CallsTo (g : EvidenceGraph) (f h : NodeId) : Prop :=
  (functionVa g f).isSome ∧ (functionVa g h).isSome ∧ (f, h) ∈ g.edgesOfKind .calls

/-- What the call sites of a function say of it. -/
def DirectFact (g : EvidenceGraph) (f : NodeId) (fact : Fact) : Prop :=
  ∃ callsite ∈ g.nodesOfKind .callSite, (f, callsite.1) ∈ g.edgesOfKind .controlFlow ∧
    CallFact g callsite fact

def DistinctFunctions (g : EvidenceGraph) : Prop :=
  ∀ f h va, functionVa g f = some va → functionVa g h = some va → f = h

theorem mem_callEdges {u v : Nat} : (u, v) ∈ callEdges g ↔
    ∃ f h, functionVa g f = some u ∧ functionVa g h = some v ∧ (f, h) ∈ g.edgesOfKind .calls := by
  rw [callEdges, List.mem_flatMap]
  constructor
  · rintro ⟨⟨f, payload⟩, -, hmem⟩
    dsimp only at hmem
    split at hmem
    · rename_i caller hcaller
      obtain ⟨w, hw, heq⟩ := List.mem_map.mp hmem
      cases heq
      obtain ⟨h, hcall, hv⟩ := List.mem_filterMap.mp hw
      exact ⟨f, h, hcaller, hv, EvidenceGraph.mem_outgoingOfKind.mp hcall⟩
    · exact absurd hmem List.not_mem_nil
  · rintro ⟨f, h, hu, hv, hcall⟩
    refine ⟨(f, .function u), EvidenceGraph.mem_nodesOfKind.mpr ⟨functionVa_some.mp hu, rfl⟩, ?_⟩
    simp only [hu]
    exact List.mem_map.mpr ⟨v, List.mem_filterMap.mpr
      ⟨h, EvidenceGraph.mem_outgoingOfKind.mpr hcall, hv⟩, rfl⟩

theorem mem_callingFunctions {va : Nat} {callsite : NodeId} :
    va ∈ callingFunctions g callsite ↔
      ∃ f, functionVa g f = some va ∧ (f, callsite) ∈ g.edgesOfKind .controlFlow := by
  simp only [callingFunctions, List.mem_filterMap, EvidenceGraph.mem_incomingOfKind, and_comm]

theorem holds_direct (hva : DistinctFunctions g) {f : NodeId} {va : Nat} {fact : Fact}
    (hf : functionVa g f = some va) : Holds (directSummaries g) va fact ↔ DirectFact g f fact := by
  rw [directSummaries_spec.2.2]
  constructor
  · rintro ⟨-, callsite, hcallsite, hcalling, hfact⟩
    obtain ⟨f', hf', hedge⟩ := mem_callingFunctions.mp hcalling
    rw [hva f' f va hf' hf] at hedge
    exact ⟨callsite, hcallsite, hedge, hfact⟩
  · rintro ⟨callsite, hcallsite, hedge, hfact⟩
    exact ⟨⟨f, hf⟩, callsite, hcallsite, mem_callingFunctions.mpr ⟨f, hf, hedge⟩, hfact⟩

/-- A chain of rules from a callee to a caller is a path of calls the other way. -/
theorem steps_iff_calls (hva : DistinctFunctions g) {f h : NodeId} {u v : Nat} {fact : Fact}
    (hf : functionVa g f = some u) (hh : functionVa g h = some v) :
    (∃ n, Saturation.Steps (summaryScheme (callEdges g) (IsFunctionVa g)).rule n
        (v, fact) (u, fact)) ↔
      Relation.ReflTransGen (CallsTo g) f h := by
  constructor
  · rintro ⟨n, hsteps⟩
    induction n generalizing v h with
    | zero =>
      cases hsteps
      rw [hva f h u hf hh]
    | succ n ih =>
      obtain ⟨⟨w, fact'⟩, ⟨hcall, rfl⟩, hrest⟩ := hsteps
      obtain ⟨x, y, hx, hy, hedge⟩ := mem_callEdges.mp hcall
      cases hva y h v hy hh
      refine (ih hx hrest).tail ⟨?_, ?_, hedge⟩
      · rw [hx, Option.isSome_some]
      · rw [hy, Option.isSome_some]
  · intro hpath
    induction hpath generalizing v with
    | refl =>
      cases hf.symm.trans hh
      exact ⟨0, rfl⟩
    | @tail x y _ hcall ih =>
      obtain ⟨hx, -, hedge⟩ := hcall
      obtain ⟨w, hw⟩ := Option.isSome_iff_exists.mp hx
      obtain ⟨n, hsteps⟩ := ih hw
      exact ⟨n + 1, (w, fact), ⟨mem_callEdges.mpr ⟨x, y, hw, hh, hedge⟩, rfl⟩, hsteps⟩

theorem callers_known : ∀ call ∈ callEdges g, IsFunctionVa g call.1 := by
  rintro ⟨u, v⟩ hcall
  obtain ⟨f, -, hu, -⟩ := mem_callEdges.mp hcall
  exact ⟨f, hu⟩

theorem direct_valid : (summaryScheme (callEdges g) (IsFunctionVa g)).valid (directSummaries g) :=
  ⟨directSummaries_spec.2.1, directSummaries_spec.1⟩

theorem direct_bounded : (summaryScheme (callEdges g) (IsFunctionVa g)).Bounded
    (directSummaries g) (max (directSummaries g).entries.length 1) :=
  summaries_bounded fun call hcall => (direct_valid.2 call.1).mpr (callers_known call hcall)

theorem holds_computeSummaries {u : Nat} {fact : Fact} :
    Holds (computeSummaries g) u fact ↔ ∃ v, Holds (directSummaries g) v fact ∧
      ∃ n, Saturation.Steps (summaryScheme (callEdges g) (IsFunctionVa g)).rule n
        (v, fact) (u, fact) := by
  refine (Saturation.Scheme.within_run_iff (f := (u, fact)) (c := 0)
    (summaryScheme_lawful callers_known) direct_valid direct_bounded).trans ?_
  constructor
  · rintro ⟨⟨v, fact'⟩, c, n, hholds, hsteps, -⟩
    cases steps_fact hsteps
    exact ⟨v, hholds, n, hsteps⟩
  · rintro ⟨v, hholds, n, hsteps⟩
    refine ⟨(v, fact), 0, n, hholds, hsteps, ?_⟩
    show (id^[n]) 0 ≤ 0
    rw [Function.iterate_id, id]

/-- A summary says what the calls of the functions say that its function reaches, and the
rounds do not stop before they are done. -/
theorem computeSummaries_exact (g : EvidenceGraph) (hva : DistinctFunctions g) :
    (∀ f va, functionVa g f = some va → ∃ summary, (computeSummaries g).lookup va = some summary ∧
      summary.Sized ∧ ∀ fact, summary.Has fact ↔
        ∃ h, Relation.ReflTransGen (CallsTo g) f h ∧ DirectFact g h fact) ∧
    (summaryRound (callEdges g) (computeSummaries g)).2 = false := by
  have hlawful := summaryScheme_lawful (callers_known (g := g))
  refine ⟨fun f va hf => ?_, Saturation.Scheme.run_rests hlawful direct_valid direct_bounded⟩
  obtain ⟨hsized, hmem⟩ := Saturation.Scheme.valid_run
    (n := max (directSummaries g).entries.length 1) hlawful direct_valid
  obtain ⟨summary, hlookup⟩ :=
    Option.isSome_iff_exists.mp (AList.lookup_isSome.mpr ((hmem va).mpr ⟨f, hf⟩))
  refine ⟨summary, hlookup, hsized va summary hlookup, fun fact => ?_⟩
  have hholds : summary.Has fact ↔ Holds (computeSummaries g) va fact := by
    constructor
    · exact fun hfact => ⟨summary, hlookup, hfact⟩
    · rintro ⟨summary', hlookup', hfact⟩
      cases hlookup.symm.trans hlookup'
      exact hfact
  rw [hholds, holds_computeSummaries]
  constructor
  · rintro ⟨v, hdirect, hsteps⟩
    obtain ⟨h, hh⟩ := (direct_valid.2 v).mp hdirect.mem
    exact ⟨h, (steps_iff_calls hva hf hh).mp hsteps, (holds_direct hva hh).mp hdirect⟩
  · rintro ⟨h, hpath, hfact⟩
    have hh : ∃ v, functionVa g h = some v := by
      rcases hpath.cases_tail with rfl | ⟨x, -, -, hh, -⟩
      · exact ⟨va, hf⟩
      · exact Option.isSome_iff_exists.mp hh
    obtain ⟨v, hh⟩ := hh
    exact ⟨v, (holds_direct hva hh).mpr hfact, (steps_iff_calls hva hf hh).mpr hpath⟩

/-- Two functions that call each other, the second of which receives data. -/
def mutualCalls : EvidenceGraph :=
  ⟨[.function 16, .function 32, .callSite 40 (some "recv")],
    [⟨0, 1, .calls⟩, ⟨1, 0, .calls⟩, ⟨1, 2, .controlFlow⟩]⟩

theorem mutualCalls_functionVa (f : NodeId) :
    functionVa mutualCalls f = if f = 0 then some 16 else if f = 1 then some 32 else none := by
  rcases f with _ | _ | _ | f <;> simp [functionVa, mutualCalls, EvidenceGraph.node]

theorem computeSummaries_exact_mutual :
    ∃ summary, (computeSummaries mutualCalls).lookup 16 = some summary ∧
      summary.Has (.taintOut 1) := by
  have hva : DistinctFunctions mutualCalls := by
    intro f h va hf hh
    rw [mutualCalls_functionVa] at hf hh
    split at hf <;> split at hh <;> simp_all <;> omega
  obtain ⟨summary, hlookup, -, hfacts⟩ :=
    (computeSummaries_exact mutualCalls hva).1 0 16 (mutualCalls_functionVa 0)
  refine ⟨summary, hlookup, (hfacts _).mpr ⟨1, .single ⟨rfl, rfl, by decide⟩, ?_⟩⟩
  refine ⟨(2, .callSite 40 (some "recv")), by decide, by decide, 40, "recv", rfl, .inl ?_⟩
  exact ⟨_, List.mem_cons_self, by decide, by decide⟩

end Closure

end Axe.Vuln
