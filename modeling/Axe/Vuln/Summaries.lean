import Mathlib.Data.List.AList
import Axe.Lib.Saturation
import Axe.Vuln.Taint
import Axe.Concolic.OperandParser

/-!
# Summaries of functions

What a function does with taint is read off the calls that it makes, and is then handed up
the call graph, until a round over all calls changes no summary.
-/
namespace Axe.Vuln

open Axe.Concolic (toAsciiLowercase)

abbrev SummaryMap := AList fun _ : Nat => CallSummary

def summaryBits : Nat := 8

namespace CallSummary

def empty : CallSummary :=
  ⟨List.replicate summaryBits false, List.replicate summaryBits false, [], [], []⟩

/-- Room is made for a bit that is not there yet. -/
def setBit (bits : List Bool) (idx : Nat) : List Bool :=
  (if bits.length ≤ idx then bits ++ List.replicate (idx + 1 - bits.length) false else bits).set
    idx true

def setBits (bits : List Bool) (indexes : List Nat) : List Bool := indexes.foldl setBit bits

end CallSummary

/-- What the calls of an API do, where its name has a needle from each of the lists. -/
structure ApiEffect where
  guards : List (List String)
  taintIn : List Nat
  taintOut : List Nat

/-- The sixth effect stands inside the condition of the fifth. -/
def apiEffects : List ApiEffect :=
  let formatted := ["printf", "sprintf", "snprintf", "fprintf", "vfprintf", "vsprintf",
    "__stdio_common_vfprintf"]
  [⟨[["recv", "wsarecv", "readfile", "fread", "fgets", "_read"]], [], [0, 1]⟩,
    ⟨[["internetreadfile", "winhttpreaddata"]], [], [0, 1]⟩,
    ⟨[["deviceiocontrol", "ntdeviceiocontrolfile"]], [2, 3], [4, 5]⟩,
    ⟨[["memcpy", "memmove", "rtlcopymemory", "strcpy", "strncpy", "strcat"]], [1, 2], [0]⟩,
    ⟨[formatted], [0, 1, 2], []⟩,
    ⟨[formatted, ["sprintf", "snprintf", "vsprintf"]], [], [0]⟩,
    ⟨[["malloc", "calloc", "realloc", "virtualalloc"]], [0, 1, 2, 3], [0]⟩,
    ⟨[["createfile", "fopen", "open", "unlink", "deletefile", "rename"]], [0, 1], []⟩]

def ApiEffect.applies (effect : ApiEffect) (api : String) : Bool :=
  effect.guards.all (·.any (contains (String.ofList (toAsciiLowercase api.toList))))

def applyApiSemantics (api : String) (summary : CallSummary) : CallSummary :=
  apiEffects.foldl (fun summary effect =>
    if effect.applies api then
      { summary with
        taintIn := CallSummary.setBits summary.taintIn effect.taintIn
        taintOut := CallSummary.setBits summary.taintOut effect.taintOut }
    else summary) summary

def mergeBit (state : List Bool × Bool) (entry : Bool × Nat) : List Bool × Bool :=
  if entry.1 && !state.1.getD entry.2 false then (state.1.set entry.2 true, true) else state

/-- A shorter vector is made as long as the other, which counts as a change. -/
def mergeBits (dst src : List Bool) : List Bool × Bool :=
  src.zipIdx.foldl mergeBit
    (dst ++ List.replicate (src.length - dst.length) false, dst.length < src.length)

def mergeItem {α : Type} [DecidableEq α] (state : List α × Bool) (item : α) : List α × Bool :=
  if item ∈ state.1 then state else (state.1 ++ [item], true)

/-- `merge_unique_pairs` and `merge_unique_u64`. -/
def mergeUnique {α : Type} [DecidableEq α] (dst src : List α) : List α × Bool :=
  src.foldl mergeItem (dst, false)

def mergeSummary (dst src : CallSummary) : CallSummary × Bool :=
  let (taintIn, inChanged) := mergeBits dst.taintIn src.taintIn
  let (taintOut, outChanged) := mergeBits dst.taintOut src.taintOut
  let (sinksReached, sinksChanged) := mergeUnique dst.sinksReached src.sinksReached
  let (allocations, allocationsChanged) := mergeUnique dst.allocations src.allocations
  let (freeCalls, freesChanged) := mergeUnique dst.freeCalls src.freeCalls
  (⟨taintIn, taintOut, sinksReached, allocations, freeCalls⟩,
    inChanged || outChanged || sinksChanged || allocationsChanged || freesChanged)

section Facts
variable (g : EvidenceGraph)

def functionVa (id : NodeId) : Option Nat :=
  match g.node id with
  | some (.function va) => some va
  | _ => none

/-- The functions that a call site hangs under. -/
def callingFunctions (callsite : NodeId) : List Nat :=
  (g.incomingOfKind callsite .controlFlow).filterMap (functionVa g)

def sinksOfCall (callsite : NodeId) : List (String × Nat) :=
  (g.outgoingOfKind callsite .dataFlow).filterMap fun id =>
    match g.node id with
    | some (.sink api siteVa) => some (api, siteVa)
    | _ => none

/-- Changes a summary that is there. -/
def modify (va : Nat) (f : CallSummary → CallSummary) (out : SummaryMap) : SummaryMap :=
  match out.lookup va with
  | some summary => out.insert va (f summary)
  | none => out

def pushSink (sink : String × Nat) (summary : CallSummary) : CallSummary :=
  { summary with sinksReached := summary.sinksReached ++ [sink] }

def insertEmpty (out : SummaryMap) (function : NodeId × NodePayload) : SummaryMap :=
  match functionVa g function.1 with
  | some va => out.insert va CallSummary.empty
  | none => out

def emptySummaries : SummaryMap := (g.nodesOfKind .function).foldl (insertEmpty g) ∅

/-- What a call site adds to the summaries of its functions. -/
def populate (out : SummaryMap) (callsite : NodeId × NodePayload) : SummaryMap :=
  match callsite.2 with
  | .callSite _ (some api) =>
    let callers := callingFunctions g callsite.1
    let out := callers.foldl (fun out va => modify va (applyApiSemantics api) out) out
    (sinksOfCall g callsite.1).foldl (fun out sink =>
      callers.foldl (fun out va => modify va (pushSink sink) out) out) out
  | _ => out

def directSummaries : SummaryMap :=
  (g.nodesOfKind .callSite).foldl (populate g) (emptySummaries g)

/-- The calls between functions, by address, the caller first. -/
def callEdges : List (Nat × Nat) :=
  (g.nodesOfKind .function).flatMap fun (id, _) =>
    match functionVa g id with
    | some caller => ((g.outgoingOfKind id .calls).filterMap (functionVa g)).map (caller, ·)
    | none => []

end Facts

/-- A caller takes over the summary of its callee. -/
def mergeCall (state : SummaryMap × Bool) (call : Nat × Nat) : SummaryMap × Bool :=
  match state.1.lookup call.2, state.1.lookup call.1 with
  | some callee, some caller =>
    (state.1.insert call.1 (mergeSummary caller callee).1,
      state.2 || (mergeSummary caller callee).2)
  | _, _ => state

def summaryRound (calls : List (Nat × Nat)) (summaries : SummaryMap) : SummaryMap × Bool :=
  calls.foldl mergeCall (summaries, false)

def propagateSummaryFixpoint (g : EvidenceGraph) (summaries : SummaryMap) : SummaryMap :=
  Saturation.run (summaryRound (callEdges g)) (max summaries.entries.length 1) summaries

def computeSummaries (g : EvidenceGraph) : SummaryMap :=
  propagateSummaryFixpoint g (directSummaries g)

/-- What a summary can say. -/
inductive Fact where
  | taintIn (i : Nat)
  | taintOut (i : Nat)
  | sink (site : String × Nat)
  | allocation (va : Nat)
  | freeCall (va : Nat)
  deriving DecidableEq

namespace CallSummary

def Has (s : CallSummary) : Fact → Prop
  | .taintIn i => s.taintIn[i]? = some true
  | .taintOut i => s.taintOut[i]? = some true
  | .sink site => site ∈ s.sinksReached
  | .allocation va => va ∈ s.allocations
  | .freeCall va => va ∈ s.freeCalls

structure Sized (s : CallSummary) : Prop where
  taintIn : s.taintIn.length = summaryBits
  taintOut : s.taintOut.length = summaryBits

end CallSummary

section Operations
variable {bits dst src : List Bool} {i k : Nat} {indexes : List Nat} {fact : Fact}

theorem setBit_true :
    (CallSummary.setBit bits k)[i]? = some true ↔ bits[i]? = some true ∨ i = k := by
  rw [CallSummary.setBit, List.getElem?_set]
  split
  · rename_i heq
    subst heq
    have hlt : k < (if bits.length ≤ k then bits ++ List.replicate (k + 1 - bits.length) false
        else bits).length := by
      split
      · rw [List.length_append, List.length_replicate]
        omega
      · omega
    simp [hlt]
  · rename_i hne
    have hold : (if bits.length ≤ k then bits ++ List.replicate (k + 1 - bits.length) false
        else bits)[i]? = some true ↔ bits[i]? = some true := by
      split
      · rw [List.getElem?_append]
        split
        · rfl
        · rename_i hge
          rw [List.getElem?_eq_none (Nat.le_of_not_lt hge), List.getElem?_replicate]
          split <;> simp
      · rfl
    rw [hold]
    exact ⟨.inl, fun h => h.resolve_right (Ne.symm hne)⟩

theorem setBits_true :
    (CallSummary.setBits bits indexes)[i]? = some true ↔ bits[i]? = some true ∨ i ∈ indexes := by
  rw [CallSummary.setBits]
  induction indexes generalizing bits with
  | nil => simp
  | cons k rest ih => rw [List.foldl_cons, ih, setBit_true, List.mem_cons, or_assoc]

theorem length_setBits (h : ∀ k ∈ indexes, k < bits.length) :
    (CallSummary.setBits bits indexes).length = bits.length := by
  rw [CallSummary.setBits]
  induction indexes generalizing bits with
  | nil => rfl
  | cons k rest ih =>
    obtain ⟨hk, hrest⟩ := List.forall_mem_cons.mp h
    have hset : (CallSummary.setBit bits k).length = bits.length := by
      rw [CallSummary.setBit, if_neg (Nat.not_le.mpr hk), List.length_set]
    rw [List.foldl_cons, ih (by rwa [hset]), hset]

/-- What effects say of an API. -/
def EffectFact (effects : List ApiEffect) (api : String) : Fact → Prop
  | .taintIn i => ∃ effect ∈ effects, effect.applies api ∧ i ∈ effect.taintIn
  | .taintOut i => ∃ effect ∈ effects, effect.applies api ∧ i ∈ effect.taintOut
  | _ => False

/-- What the calls of an API say about their function. -/
def ApiFact (api : String) : Fact → Prop := EffectFact apiEffects api

theorem has_applyApiSemantics (api : String) (s : CallSummary) (fact : Fact) :
    (applyApiSemantics api s).Has fact ↔ s.Has fact ∨ ApiFact api fact := by
  rw [applyApiSemantics, ApiFact]
  generalize apiEffects = effects
  induction effects generalizing s with
  | nil => cases fact <;> simp [EffectFact]
  | cons effect rest ih =>
    rw [List.foldl_cons, ih]
    by_cases happ : effect.applies api
    · cases fact <;> simp [happ, CallSummary.Has, EffectFact, setBits_true, or_assoc]
    · cases fact <;> simp [happ, EffectFact]

theorem sized_applyApiSemantics {api : String} {s : CallSummary} (h : s.Sized) :
    (applyApiSemantics api s).Sized := by
  have heffects : ∀ effect ∈ apiEffects, (∀ k ∈ effect.taintIn, k < summaryBits) ∧
      ∀ k ∈ effect.taintOut, k < summaryBits := by decide
  rw [applyApiSemantics]
  generalize apiEffects = effects at heffects
  induction effects generalizing s with
  | nil => exact h
  | cons effect rest ih =>
    obtain ⟨⟨hin, hout⟩, hrest⟩ := List.forall_mem_cons.mp heffects
    refine ih ?_ hrest
    dsimp only
    split
    · constructor
      · exact (length_setBits (by rwa [h.taintIn])).trans h.taintIn
      · exact (length_setBits (by rwa [h.taintOut])).trans h.taintOut
    · exact h

end Operations

section Merges
variable {dst src : List Bool} {i k : Nat} {fact : Fact}

theorem mergeBit_spec (bit changed : Bool) (hk : k < dst.length) :
    (mergeBit (dst, changed) (bit, k)).1.length = dst.length ∧
      (∀ i, (mergeBit (dst, changed) (bit, k)).1[i]? = some true ↔
        dst[i]? = some true ∨ i = k ∧ bit = true) ∧
      ((mergeBit (dst, changed) (bit, k)).2 = false ↔
        changed = false ∧ (bit = true → dst[k]? = some true)) := by
  have hget : dst[k]? = some dst[k] := List.getElem?_eq_getElem hk
  have hgetD : dst.getD k false = dst[k] := by
    rw [List.getD_eq_getElem?_getD, hget, Option.getD_some]
  rw [mergeBit, hgetD]
  cases bit
  · simp
  · cases hold : dst[k]
    · simp only [Bool.not_false, Bool.and_self, if_true, List.length_set, List.getElem?_set, hk,
        hget, hold]
      refine ⟨trivial, fun i => ?_, by simp⟩
      by_cases hik : i = k
      · simp [hik]
      · simp [hik, Ne.symm hik]
    · simp only [Bool.not_true, Bool.and_false, Bool.false_eq_true, if_false, hget, hold]
      refine ⟨trivial, fun i => ?_, by simp⟩
      constructor
      · exact .inl
      · rintro (h | ⟨rfl, -⟩)
        · exact h
        · rw [hget, hold]

/-- The loop of `merge_bits` from its `k`-th bit on. -/
theorem mergeLoop_spec (changed : Bool) (hlen : k + src.length ≤ dst.length) :
    ((src.zipIdx k).foldl mergeBit (dst, changed)).1.length = dst.length ∧
      (∀ i, ((src.zipIdx k).foldl mergeBit (dst, changed)).1[i]? = some true ↔
        dst[i]? = some true ∨ k ≤ i ∧ src[i - k]? = some true) ∧
      (((src.zipIdx k).foldl mergeBit (dst, changed)).2 = false ↔
        changed = false ∧ ∀ j, src[j]? = some true → dst[k + j]? = some true) := by
  induction src generalizing k dst changed with
  | nil => simp
  | cons bit rest ih =>
    rw [List.length_cons] at hlen
    rw [List.zipIdx_cons, List.foldl_cons]
    obtain ⟨hlength, htrue, hsame⟩ := mergeBit_spec bit changed (show k < dst.length by omega)
    generalize mergeBit (dst, changed) (bit, k) = state at hlength htrue hsame
    obtain ⟨dst', changed'⟩ := state
    have hlen' : k + 1 + rest.length ≤ dst'.length := by
      dsimp only at hlength
      omega
    obtain ⟨hlength', htrue', hsame'⟩ := ih changed' hlen'
    refine ⟨hlength'.trans hlength, fun i => ?_, ?_⟩
    · rw [htrue', htrue, or_assoc]
      refine or_congr_right ?_
      by_cases hik : i = k
      · subst hik
        simp
      · by_cases hle : k ≤ i
        · rw [show i - k = (i - (k + 1)) + 1 by omega, List.getElem?_cons_succ]
          exact ⟨fun h => ⟨hle, (h.resolve_left fun h => hik h.1).2⟩,
            fun h => .inr ⟨by omega, h.2⟩⟩
        · exact ⟨fun h => h.elim (fun h => absurd h.1 hik) fun h => absurd h.1 (by omega),
            fun h => absurd h.1 hle⟩
    · rw [hsame', hsame, and_assoc]
      refine and_congr_right fun _ => ?_
      constructor
      · rintro ⟨hfirst, hrest⟩ j hj
        cases j with
        | zero => exact hfirst (by simpa using hj)
        | succ j =>
          have hj' := (htrue _).mp (hrest j (by simpa using hj))
          rw [show k + 1 + j = k + (j + 1) by omega] at hj'
          exact hj'.resolve_right fun h => by omega
      · intro hall
        refine ⟨fun hbit => hall 0 (by simpa using hbit), fun j hj => (htrue _).mpr (.inl ?_)⟩
        rw [show k + 1 + j = k + (j + 1) by omega]
        exact hall (j + 1) (by simpa using hj)

theorem mergeBits_true :
    (mergeBits dst src).1[i]? = some true ↔ dst[i]? = some true ∨ src[i]? = some true := by
  rw [mergeBits, (mergeLoop_spec _ (by simp; omega)).2.1]
  have hold : (dst ++ List.replicate (src.length - dst.length) false)[i]? = some true ↔
      dst[i]? = some true := by
    rw [List.getElem?_append]
    split
    · rfl
    · rename_i hge
      rw [List.getElem?_eq_none (Nat.le_of_not_lt hge), List.getElem?_replicate]
      split <;> simp
  rw [hold]
  simp

theorem mergeBits_unchanged (hlen : src.length = dst.length) :
    (mergeBits dst src).1.length = dst.length ∧
      ((mergeBits dst src).2 = false ↔ ∀ i : Nat, src[i]? = some true → dst[i]? = some true) := by
  have hpad : dst ++ List.replicate (src.length - dst.length) false = dst := by simp [hlen]
  have hshort : decide (dst.length < src.length) = false := by simp [hlen]
  rw [mergeBits, hpad, hshort]
  obtain ⟨hlength, -, hsame⟩ :=
    mergeLoop_spec false (show 0 + src.length ≤ dst.length by omega)
  refine ⟨hlength, hsame.trans ?_⟩
  simp

theorem mergeUnique_spec {α : Type} [DecidableEq α] {dst src : List α} :
    (∀ x, x ∈ (mergeUnique dst src).1 ↔ x ∈ dst ∨ x ∈ src) ∧
      ((mergeUnique dst src).2 = false ↔ ∀ x ∈ src, x ∈ dst) := by
  rw [mergeUnique]
  have hfold : ∀ (src dst : List α) (changed : Bool),
      (∀ x, x ∈ (src.foldl mergeItem (dst, changed)).1 ↔ x ∈ dst ∨ x ∈ src) ∧
        ((src.foldl mergeItem (dst, changed)).2 = false ↔
          changed = false ∧ ∀ x ∈ src, x ∈ dst) := by
    intro src
    induction src with
    | nil => intro dst changed; simp
    | cons item rest ih =>
      intro dst changed
      rw [List.foldl_cons, mergeItem]
      split
      · rename_i hmem
        obtain ⟨hall, hsame⟩ := ih dst changed
        refine ⟨fun x => ?_, ?_⟩
        · rw [hall, List.mem_cons]
          constructor
          · exact fun h => h.imp_right .inr
          · rintro (h | rfl | h)
            · exact .inl h
            · exact .inl hmem
            · exact .inr h
        · rw [hsame, List.forall_mem_cons]
          exact and_congr_right fun _ => ⟨fun h => ⟨hmem, h⟩, And.right⟩
      · rename_i hmem
        obtain ⟨hall, hsame⟩ := ih (dst ++ [item]) true
        refine ⟨fun x => ?_, ?_⟩
        · rw [hall, List.mem_append, List.mem_singleton, List.mem_cons, or_assoc]
        · rw [hsame, List.forall_mem_cons]
          exact ⟨fun h => absurd h.1 (Bool.noConfusion), fun h => absurd h.2.1 hmem⟩
  obtain ⟨hall, hsame⟩ := hfold src dst false
  exact ⟨hall, hsame.trans (by simp)⟩

theorem has_mergeSummary {dst src : CallSummary} :
    (mergeSummary dst src).1.Has fact ↔ dst.Has fact ∨ src.Has fact := by
  cases fact with
  | taintIn i => exact mergeBits_true
  | taintOut i => exact mergeBits_true
  | sink site => exact mergeUnique_spec.1 site
  | allocation va => exact mergeUnique_spec.1 va
  | freeCall va => exact mergeUnique_spec.1 va

theorem sized_mergeSummary {dst src : CallSummary} (hdst : dst.Sized) (hsrc : src.Sized) :
    (mergeSummary dst src).1.Sized := by
  constructor
  · exact (mergeBits_unchanged (hsrc.taintIn.trans hdst.taintIn.symm)).1.trans hdst.taintIn
  · exact (mergeBits_unchanged (hsrc.taintOut.trans hdst.taintOut.symm)).1.trans hdst.taintOut

/-- A merge changes nothing just where the other summary says nothing new. -/
theorem mergeSummary_unchanged {dst src : CallSummary} (hdst : dst.Sized) (hsrc : src.Sized) :
    (mergeSummary dst src).2 = false ↔ ∀ fact, src.Has fact → dst.Has fact := by
  have hin := (mergeBits_unchanged (hsrc.taintIn.trans hdst.taintIn.symm)).2
  have hout := (mergeBits_unchanged (hsrc.taintOut.trans hdst.taintOut.symm)).2
  rw [mergeSummary]
  simp only [Bool.or_eq_false_iff, hin, hout, mergeUnique_spec.2]
  constructor
  · rintro ⟨⟨⟨⟨hin, hout⟩, hsinks⟩, hallocs⟩, hfrees⟩ fact hfact
    cases fact with
    | taintIn i => exact hin i hfact
    | taintOut i => exact hout i hfact
    | sink site => exact hsinks site hfact
    | allocation va => exact hallocs va hfact
    | freeCall va => exact hfrees va hfact
  · intro hall
    exact ⟨⟨⟨⟨fun i => hall (.taintIn i), fun i => hall (.taintOut i)⟩,
      fun site => hall (.sink site)⟩, fun va => hall (.allocation va)⟩,
      fun va => hall (.freeCall va)⟩

end Merges

end Axe.Vuln
