import Axe.Unpack.OepDetector

/-!
# Evidence and the order of events

A candidate has the signals of the events behind its first execution. What comes before is lost,
so that two orders of the same events agree where the same signals come behind it.
-/
namespace Axe.Unpack

open OepDetector

section Scores

theorem formatVa_inj {a b : Nat} (h : formatVa a = formatVa b) : a = b := by
  have hread : ∀ va k, Concolic.digits 16 (List.replicate k '0' ++ Nat.toDigits 16 va) = some va :=
    fun va k => Concolic.digits_padded (by decide) (Nat.le_refl 16) va k
  have hlist := congrArg (fun s : String => s.toList.drop 2) h
  simp only [formatVa, String.toList_ofList, List.drop_succ_cons, List.drop_zero] at hlist
  have heq := (hread a _).symm.trans ((congrArg _ hlist).trans (hread b _))
  exact Option.some.inj heq

theorem manifestOep_inj {row row' : Nat × Entry} (h : manifestOep row = manifestOep row') :
    row = row' := by
  simp only [manifestOep, OepCandidate.mk.injEq] at h
  obtain ⟨hva, hregion, hsignals, -⟩ := h
  exact Prod.ext (formatVa_inj hva) (Prod.ext hsignals hregion)

theorem mem_scoreAll {d : OepDetector} {c : OepCandidate} :
    c ∈ d.scoreAll ↔ ∃ va signals region, d.candidates.get va = some (signals, region) ∧
      manifestOep (va, signals, region) = c := by
  rw [scoreAll, List.mem_mergeSort, List.mem_map]
  constructor
  · rintro ⟨⟨va, signals, region⟩, hrow, rfl⟩
    exact ⟨va, signals, region, OrderedMap.get_eq_some.mpr hrow, rfl⟩
  · rintro ⟨va, signals, region, hget, rfl⟩
    exact ⟨(va, signals, region), OrderedMap.get_eq_some.mp hget, rfl⟩

/-- The scores tell all that there is of the candidates. -/
theorem scoreAll_eq_iff {d d' : OepDetector} :
    d.scoreAll = d'.scoreAll ↔ ∀ va, d.candidates.get va = d'.candidates.get va := by
  constructor
  · intro h va
    have hsome : ∀ e : OepDetector, ∀ entry, e.candidates.get va = some entry ↔
        manifestOep (va, entry) ∈ e.scoreAll := by
      intro e entry
      rw [mem_scoreAll]
      constructor
      · exact fun hget => ⟨va, entry.1, entry.2, hget, rfl⟩
      · rintro ⟨va', signals, region, hget, heq⟩
        obtain ⟨rfl, rfl⟩ := Prod.mk.inj (manifestOep_inj heq)
        exact hget
    exact Option.ext fun entry => by rw [hsome, hsome, h]
  · intro h
    rw [scoreAll, scoreAll, OrderedMap.ext_get h]

end Scores

section Steps
variable {decode : List Byte → Nat → Option Insn} {d : OepDetector} {e : Event} {va region : Nat}
  {signals : OepCorroboration}

namespace Event

/-- An event that says that the entropy of a region dropped. -/
def drops (region : Nat) : Event → Bool
  | .entropyDrop r => r = region
  | _ => false

/-- A scan that finds a prologue at an address. -/
def showsPrologue (va : Nat) : Event → Bool
  | .prologueScan buffer => buffer.holds va && buffer.prologueAt va
  | _ => false

/-- A scan that finds a call of an import behind an address. -/
def showsIatCall (decode : List Byte → Nat → Option Insn) (va : Nat) : Event → Bool
  | .iatScan buffer iatRvas windowBytes =>
    buffer.holds va && iatCallAt decode buffer iatRvas windowBytes va
  | _ => false

def isExecution (va : Nat) : Event → Bool
  | .execution v _ => v = va
  | _ => false

def allocates (va : Nat) : Event → Bool
  | .allocation base size => (AllocatedRange.mk base size).contains va
  | _ => false

end Event

/-- The signals of a candidate after some events. -/
def evidence (decode : List Byte → Nat → Option Insn) (va region : Nat)
    (signals : OepCorroboration) (events : List Event) : OepCorroboration where
  entropyDrop := signals.entropyDrop || events.any (Event.drops region)
  executeFromNewlyAllocated := true
  functionPrologueMatch := signals.functionPrologueMatch || events.any (Event.showsPrologue va)
  iatCallPattern := signals.iatCallPattern || events.any (Event.showsIatCall decode va)

theorem evidence_cons (events : List Event) :
    evidence decode va region signals (e :: events) =
      evidence decode va region (evidence decode va region signals [e]) events := by
  simp only [evidence, List.any_cons, List.any_nil, Bool.or_false, Bool.or_assoc]

theorem mem_candidateVas {buffer : RegionBuffer} :
    va ∈ d.candidateVas buffer ↔
      (∃ entry, d.candidates.get va = some entry) ∧ buffer.holds va = true := by
  rw [candidateVas, List.mem_filter, OrderedMap.mem_keys]

/-- An event that does not concern a candidate. -/
theorem evidence_of_none (hexec : signals.executeFromNewlyAllocated = true)
    (hdrop : e.drops region = false) (hprologue : e.showsPrologue va = false)
    (hcall : e.showsIatCall decode va = false) :
    evidence decode va region signals [e] = signals := by
  simp only [evidence, List.any_cons, List.any_nil, hdrop, hprologue, hcall, Bool.or_false]
  rw [← hexec]

/-- A scan sets its signal on the candidates of the buffer that it finds something at. -/
theorem scan_get {buffer : RegionBuffer} (found : Nat → Bool) (f : Entry → Entry)
    (hf : ∀ entry, f (f entry) = f entry) :
    ((d.candidateVas buffer).foldl (fun candidates va =>
      if found va then candidates.modify va f else candidates) d.candidates).get va =
      if buffer.holds va && found va then (d.candidates.get va).map f
      else d.candidates.get va := by
  rw [OrderedMap.get_foldl_modify hf]
  cases hget : d.candidates.get va with
  | none =>
    rw [Option.map_none, ite_self, ite_self]
  | some entry =>
    have hiff : va ∈ d.candidateVas buffer ↔ buffer.holds va = true := by
      rw [mem_candidateVas]
      exact and_iff_right ⟨entry, hget⟩
    simp only [hiff, Bool.and_eq_true]

/-- One event, on a candidate that there is. -/
theorem step_get_some (hget : d.candidates.get va = some (signals, region))
    (hexec : signals.executeFromNewlyAllocated = true) :
    (d.step decode e).candidates.get va =
      some (evidence decode va region signals [e], region) := by
  have hsame : setExecution (signals, region) = (signals, region) := by
    rw [setExecution, ← hexec]
  cases e with
  | allocation base size =>
    rw [step, recordAllocation, evidence_of_none hexec rfl rfl rfl]
    exact hget
  | execution v r =>
    rw [step, recordExecution, evidence_of_none hexec rfl rfl rfl]
    split
    · exact hget
    · dsimp only
      rw [OrderedMap.get_insert]
      split
      · rename_i hv
        rw [← hv, hget, Option.getD_some, hsame]
      · exact hget
  | entropyDrop r =>
    rw [step, recordEntropyDrop, OrderedMap.get_mapValues, hget, Option.map_some]
    by_cases hr : region = r
    · rw [if_pos hr]
      simp [evidence, setEntropyDrop, Event.drops, Event.showsPrologue, Event.showsIatCall, hr,
        hexec]
    · have hother : Event.drops region (.entropyDrop r) = false := decide_eq_false (Ne.symm hr)
      rw [if_neg hr, evidence_of_none hexec hother rfl rfl]
  | prologueScan buffer =>
    rw [step, scanForFunctionPrologues]
    refine (scan_get _ setPrologue fun _ => rfl).trans ?_
    rw [hget, Option.map_some]
    split
    · rename_i hfound
      simp [evidence, setPrologue, Event.drops, Event.showsPrologue, Event.showsIatCall, hexec,
        hfound]
    · rename_i hnone
      have hother : Event.showsPrologue va (.prologueScan buffer) = false :=
        Bool.eq_false_iff.mpr hnone
      rw [evidence_of_none hexec rfl hother rfl]
  | iatScan buffer iatRvas windowBytes =>
    rw [step, scanForIatCalls]
    refine (scan_get _ setIatCall fun _ => rfl).trans ?_
    rw [hget, Option.map_some]
    split
    · rename_i hfound
      simp [evidence, setIatCall, Event.drops, Event.showsPrologue, Event.showsIatCall, hexec,
        hfound]
    · rename_i hnone
      have hother : Event.showsIatCall decode va (.iatScan buffer iatRvas windowBytes) = false :=
        Bool.eq_false_iff.mpr hnone
      rw [evidence_of_none hexec rfl rfl hother]

/-- Events, on a candidate that there is. -/
theorem foldl_get_some (events : List Event)
    (hget : d.candidates.get va = some (signals, region))
    (hexec : signals.executeFromNewlyAllocated = true) :
    (events.foldl (·.step decode) d).candidates.get va =
      some (evidence decode va region signals events, region) := by
  induction events generalizing d signals with
  | nil =>
    simp only [List.foldl_nil, hget, evidence, List.any_nil, Bool.or_false]
    rw [← hexec]
  | cons e events ih =>
    rw [List.foldl_cons, ih (step_get_some hget hexec) rfl, ← evidence_cons]

/-- One event that makes no candidate. -/
theorem step_get_none (hget : d.candidates.get va = none)
    (hnone : e.isExecution va = true → d.allocations.any (·.contains va) = false) :
    (d.step decode e).candidates.get va = none := by
  cases e with
  | allocation base size => exact hget
  | execution v r =>
    rw [step, recordExecution]
    split
    · exact hget
    · rename_i hin
      dsimp only
      rw [OrderedMap.get_insert]
      split
      · rename_i hv
        rw [← hv, hnone (decide_eq_true hv.symm)] at hin
        exact absurd rfl hin
      · exact hget
  | entropyDrop r =>
    rw [step, recordEntropyDrop, OrderedMap.get_mapValues, hget, Option.map_none]
  | prologueScan buffer =>
    rw [step, scanForFunctionPrologues]
    refine (scan_get _ setPrologue fun _ => rfl).trans ?_
    rw [hget, Option.map_none, ite_self]
  | iatScan buffer iatRvas windowBytes =>
    rw [step, scanForIatCalls]
    refine (scan_get _ setIatCall fun _ => rfl).trans ?_
    rw [hget, Option.map_none, ite_self]

/-- The allocations are those of the events. -/
theorem step_allocations :
    (d.step decode e).allocations.any (·.contains va) =
      (d.allocations.any (·.contains va) || e.allocates va) := by
  cases e with
  | allocation base size =>
    rw [step, recordAllocation, List.any_append, List.any_cons, List.any_nil, Bool.or_false]
    rfl
  | execution v r =>
    simp only [step, recordExecution, Event.allocates, Bool.or_false]
    split <;> rfl
  | entropyDrop r => exact (Bool.or_false _).symm
  | prologueScan buffer => exact (Bool.or_false _).symm
  | iatScan buffer iatRvas windowBytes => exact (Bool.or_false _).symm

theorem foldl_allocations (events : List Event) :
    (events.foldl (·.step decode) d).allocations.any (·.contains va) =
      (d.allocations.any (·.contains va) || events.any (Event.allocates va)) := by
  induction events generalizing d with
  | nil => rw [List.foldl_nil, List.any_nil, Bool.or_false]
  | cons e events ih => rw [List.foldl_cons, ih, step_allocations, List.any_cons, Bool.or_assoc]

/-- Events that make no candidate: none executes the address, or none allocates it. -/
theorem foldl_get_none (events : List Event) (hget : d.candidates.get va = none)
    (hnone : events.any (Event.isExecution va) = true →
      (d.allocations.any (·.contains va) || events.any (Event.allocates va)) = false) :
    (events.foldl (·.step decode) d).candidates.get va = none := by
  induction events generalizing d with
  | nil => exact hget
  | cons e events ih =>
    rw [List.any_cons, List.any_cons, ← Bool.or_assoc] at hnone
    rw [List.foldl_cons]
    refine ih (step_get_none hget fun he => ?_) fun hrest => ?_
    · have h := hnone (by rw [he, Bool.true_or])
      rw [Bool.or_eq_false_iff, Bool.or_eq_false_iff] at h
      exact h.1.1
    · rw [step_allocations]
      exact hnone (by rw [hrest, Bool.or_true])

end Steps

section Order
variable {decode : List Byte → Nat → Option Insn} {events events' : List Event} {va region : Nat}

/-- The region of the first execution of an address, and the events behind it. -/
def firstExecution (va : Nat) : List Event → Option (Nat × List Event)
  | [] => none
  | .execution v region :: after =>
    if v = va then some (region, after) else firstExecution va after
  | _ :: after => firstExecution va after

/-- Executions come behind an allocation that holds their address, where there is one. -/
def AllocatedFirst (events : List Event) : Prop :=
  ∀ va region before after, events = before ++ .execution va region :: after →
    events.any (Event.allocates va) = true → before.any (Event.allocates va) = true

theorem firstExecution_cons_of_not {e : Event} (h : e.isExecution va = false) :
    firstExecution va (e :: events) = firstExecution va events := by
  cases e with
  | execution v region => exact if_neg (of_decide_eq_false h)
  | allocation base size => rfl
  | entropyDrop region => rfl
  | prologueScan buffer => rfl
  | iatScan buffer iatRvas windowBytes => rfl

/-- Where the first execution of an address stands. -/
theorem firstExecution_spec (va : Nat) (events : List Event) :
    firstExecution va events = none ∧ events.any (Event.isExecution va) = false ∨
      ∃ before region after, firstExecution va events = some (region, after) ∧
        events = before ++ .execution va region :: after ∧
        before.any (Event.isExecution va) = false := by
  induction events with
  | nil => exact .inl ⟨rfl, rfl⟩
  | cons e events ih =>
    cases hexec : e.isExecution va with
    | false =>
      rw [firstExecution_cons_of_not hexec]
      rcases ih with ⟨hnone, hall⟩ | ⟨before, region, after, hsome, rfl, hbefore⟩
      · exact .inl ⟨hnone, by rw [List.any_cons, hexec, hall, Bool.false_or]⟩
      · exact .inr ⟨e :: before, region, after, hsome, rfl,
          by rw [List.any_cons, hexec, hbefore, Bool.false_or]⟩
    | true =>
      cases e with
      | execution v region =>
        obtain rfl : v = va := of_decide_eq_true hexec
        exact .inr ⟨[], region, events, if_pos rfl, rfl, rfl⟩
      | allocation base size => cases hexec
      | entropyDrop region => cases hexec
      | prologueScan buffer => cases hexec
      | iatScan buffer iatRvas windowBytes => cases hexec

/-- What a run has for an address. -/
theorem run_get (hfirst : AllocatedFirst events) (va : Nat) :
    (run decode events).candidates.get va =
      if events.any (Event.allocates va) = true then
        (firstExecution va events).map fun f =>
          (evidence decode va f.1 defaultCorroboration f.2, f.1)
      else none := by
  split
  · rename_i halloc
    rcases firstExecution_spec va events with
      ⟨hnone, hall⟩ | ⟨before, region, after, hsome, heq, hbefore⟩
    · rw [hnone, Option.map_none]
      refine foldl_get_none events rfl fun hexec => ?_
      rw [hall] at hexec
      cases hexec
    · rw [hsome, Option.map_some, run, heq, List.foldl_append, List.foldl_cons]
      have hnone : (before.foldl (·.step decode) OepDetector.new).candidates.get va = none := by
        refine foldl_get_none before rfl fun hexec => ?_
        rw [hbefore] at hexec
        cases hexec
      have hstep : ((before.foldl (·.step decode) OepDetector.new).step decode
          (.execution va region)).candidates.get va =
            some (setExecution (defaultCorroboration, region)) := by
        rw [step, recordExecution, foldl_allocations, hfirst va region before after heq halloc,
          Bool.or_true, Bool.not_true, if_neg Bool.false_ne_true]
        dsimp only
        rw [hnone, Option.getD_none, OrderedMap.get_insert_self]
      have hall : (after.foldl (OepDetector.step decode) _).candidates.get va = _ :=
        foldl_get_some after hstep rfl
      exact hall
  · rename_i halloc
    refine foldl_get_none events rfl fun _ => ?_
    rw [Bool.not_eq_true] at halloc
    rw [halloc]
    rfl

/-- An address that is executed in memory that the run allocates. -/
def Counted (events : List Event) (va : Nat) : Prop :=
  events.any (Event.isExecution va) = true ∧ events.any (Event.allocates va) = true

theorem exists_firstExecution (h : events.any (Event.isExecution va) = true) :
    ∃ region after, firstExecution va events = some (region, after) := by
  rcases firstExecution_spec va events with ⟨-, hall⟩ | ⟨-, region, after, hsome, -⟩
  · rw [h] at hall
    cases hall
  · exact ⟨region, after, hsome⟩

theorem run_get_counted (decode : List Byte → Nat → Option Insn)
    (hfirst : AllocatedFirst events) (hva : Counted events va)
    {after : List Event} (h : firstExecution va events = some (region, after)) :
    (run decode events).candidates.get va =
      some (evidence decode va region defaultCorroboration after, region) := by
  rw [run_get hfirst, if_pos hva.2, h, Option.map_some]

theorem run_get_none (hfirst : AllocatedFirst events) (hva : ¬ Counted events va) :
    (run decode events).candidates.get va = none := by
  rw [run_get hfirst]
  split
  · rename_i halloc
    rcases firstExecution_spec va events with ⟨hnone, -⟩ | ⟨before, region, after, -, heq, -⟩
    · rw [hnone, Option.map_none]
    · refine absurd ⟨?_, halloc⟩ hva
      rw [heq, List.any_append, List.any_cons, Event.isExecution, decide_eq_true rfl,
        Bool.true_or, Bool.or_true]
  · rfl

theorem any_drops : events.any (Event.drops region) = true ↔ Event.entropyDrop region ∈ events := by
  rw [List.any_eq_true]
  constructor
  · rintro ⟨e, he, hdrop⟩
    cases e with
    | entropyDrop r =>
      obtain rfl : r = region := of_decide_eq_true hdrop
      exact he
    | allocation base size => cases hdrop
    | execution v r => cases hdrop
    | prologueScan buffer => cases hdrop
    | iatScan buffer iatRvas windowBytes => cases hdrop
  · exact fun h => ⟨_, h, decide_eq_true rfl⟩

/-- The candidates of a region have the drops of its entropy. -/
def DropsKept (decode : List Byte → Nat → Option Insn) (events : List Event) : Prop :=
  ∀ c ∈ (run decode events).scoreAll, Event.entropyDrop c.regionId ∈ events →
    c.corroboration.entropyDrop = true

/-- Two orders have the same evidence behind the first execution of an address, and a drop of the
region is not before it alone. -/
def SameBehind (decode : List Byte → Nat → Option Insn) (events events' : List Event) (va : Nat) :
    Prop :=
  ∃ region after after', firstExecution va events = some (region, after) ∧
    firstExecution va events' = some (region, after') ∧
    after.any (Event.drops region) = after'.any (Event.drops region) ∧
    after.any (Event.showsPrologue va) = after'.any (Event.showsPrologue va) ∧
    after.any (Event.showsIatCall decode va) = after'.any (Event.showsIatCall decode va) ∧
    (Event.entropyDrop region ∈ events → Event.entropyDrop region ∈ after)

theorem counted_perm (hperm : events.Perm events') : Counted events va ↔ Counted events' va := by
  rw [Counted, Counted, hperm.any_eq, hperm.any_eq]

/-- Two orders of the same events give the same scores and keep the drops exactly if the same
evidence comes behind the first execution of each candidate. -/
theorem scoreAll_order_iff (hperm : events.Perm events') (hfirst : AllocatedFirst events)
    (hfirst' : AllocatedFirst events') :
    ((run decode events).scoreAll = (run decode events').scoreAll ∧ DropsKept decode events) ↔
      ∀ va, Counted events va → SameBehind decode events events' va := by
  constructor
  · rintro ⟨hscores, hdrops⟩ va hva
    obtain ⟨region, after, hafter⟩ := exists_firstExecution hva.1
    obtain ⟨region', after', hafter'⟩ := exists_firstExecution ((counted_perm hperm).mp hva).1
    have hget := run_get_counted decode hfirst hva hafter
    have hget' := run_get_counted decode hfirst' ((counted_perm hperm).mp hva) hafter'
    have heq := scoreAll_eq_iff.mp hscores va
    rw [hget, hget', Option.some.injEq, Prod.mk.injEq] at heq
    obtain ⟨hsignals, rfl⟩ := heq
    simp only [evidence, defaultCorroboration, OepCorroboration.mk.injEq, Bool.false_or, true_and]
      at hsignals
    refine ⟨region, after, after', hafter, hafter', hsignals.1, hsignals.2.1, hsignals.2.2,
      fun hdrop => ?_⟩
    have hkept := hdrops _ (mem_scoreAll.mpr ⟨va, _, _, hget, rfl⟩) hdrop
    rw [← any_drops]
    exact hkept
  · intro hsame
    refine ⟨scoreAll_eq_iff.mpr fun va => ?_, fun c hc hdrop => ?_⟩
    · by_cases hva : Counted events va
      · obtain ⟨region, after, after', hafter, hafter', hdrop, hprologue, hcall, -⟩ := hsame va hva
        rw [run_get_counted decode hfirst hva hafter,
          run_get_counted decode hfirst' ((counted_perm hperm).mp hva) hafter', evidence, evidence,
          hdrop, hprologue, hcall]
      · rw [run_get_none hfirst hva, run_get_none hfirst' (mt (counted_perm hperm).mpr hva)]
    · obtain ⟨va, signals, region, hget, rfl⟩ := mem_scoreAll.mp hc
      have hva : Counted events va := by
        by_contra hnot
        rw [run_get_none hfirst hnot] at hget
        cases hget
      obtain ⟨r, after, -, hafter, -, -, -, -, hkept⟩ := hsame va hva
      rw [run_get_counted decode hfirst hva hafter, Option.some.injEq, Prod.mk.injEq] at hget
      obtain ⟨rfl, rfl⟩ := hget
      exact any_drops.mpr (hkept hdrop)

end Order

/-- Memory is allocated, its entropy drops, and it is executed. -/
def decryptThenExecute : List Event :=
  [.allocation 0x140001000 0x1000, .entropyDrop 0, .execution 0x140001100 0]

def executeThenDecrypt : List Event :=
  [.allocation 0x140001000 0x1000, .execution 0x140001100 0, .entropyDrop 0]

theorem allocatedFirst_of_head {base size : Nat} {rest : List Event}
    (h : ∀ va, rest.any (Event.allocates va) = false) :
    AllocatedFirst (.allocation base size :: rest) := by
  intro va region before after heq halloc
  cases before with
  | nil => cases heq
  | cons e before =>
    obtain ⟨rfl, -⟩ := List.cons.inj heq
    rw [List.any_cons, h, Bool.or_false] at halloc
    rw [List.any_cons, halloc, Bool.true_or]

theorem scoreAll_order_iff_decrypt :
    ((run (fun _ _ => none) decryptThenExecute).scoreAll =
        (run (fun _ _ => none) executeThenDecrypt).scoreAll ∧
      DropsKept (fun _ _ => none) decryptThenExecute) ↔
      ∀ va, Counted decryptThenExecute va →
        SameBehind (fun _ _ => none) decryptThenExecute executeThenDecrypt va :=
  scoreAll_order_iff (by decide) (allocatedFirst_of_head fun _ => rfl)
    (allocatedFirst_of_head fun _ => rfl)

/-- The drop is lost where it comes before the first execution of its region. -/
theorem decrypt_order_counts :
    decryptThenExecute.Perm executeThenDecrypt ∧ AllocatedFirst decryptThenExecute ∧
      AllocatedFirst executeThenDecrypt ∧
      (run (fun _ _ => none) decryptThenExecute).scoreAll ≠
        (run (fun _ _ => none) executeThenDecrypt).scoreAll ∧
      ¬ DropsKept (fun _ _ => none) decryptThenExecute := by
  refine ⟨by decide, allocatedFirst_of_head fun _ => rfl, allocatedFirst_of_head fun _ => rfl,
    fun h => ?_, fun h => ?_⟩
  · have hget := scoreAll_eq_iff.mp h 0x140001100
    revert hget
    decide
  · have hget : (run (fun _ _ => none) decryptThenExecute).candidates.get 0x140001100 =
        some (⟨false, true, false, false⟩, 0) := rfl
    have hdrop := h _ (mem_scoreAll.mpr ⟨_, _, _, hget, rfl⟩) (by decide)
    cases hdrop

end Axe.Unpack
