import Axe.Vuln.Confirmation
import Axe.Concolic.Digits

/-!
# Rows and confirmations

The rows that orchestration leaves for a harness are the accepted ones among its own rows,
followed by one row for every requested source that none of them has. A confirmation is read off
these alone, and its status off the strongest of them: one that scores, else the last.
-/
namespace Axe.Vuln

open Concolic (digits u64FromStrRadix)
open Pe (trimStartMatches)

variable {Value : Type}

/-- Padded digits are neither a sign nor another prefix. -/
theorem padded_hex (n k : Nat) :
    ∀ c ∈ List.replicate k '0' ++ Nat.toDigits 16 n, Smt.isHexDigit c = true := by
  intro c hc
  rcases List.mem_append.mp hc with hc | hc
  · rw [List.eq_of_mem_replicate hc]; decide
  · exact Smt.isHexDigit_toDigits n c hc

theorem trimStartMatches_eq {x : Char} {s : List Char} (hx : x ∉ s) :
    trimStartMatches x s = s := by
  unfold trimStartMatches
  split
  · rename_i y rest
    have hy : y ≠ x := fun h => hx (by simp [h])
    rw [if_neg hy]
  · rfl

theorem u64FromStrRadix_padded (va : BitVec 64) (k : Nat) :
    u64FromStrRadix (List.replicate k '0' ++ Nat.toDigits 16 va.toNat) 16 = some va := by
  have hplus : ∀ s, (∀ c ∈ s, Smt.isHexDigit c = true) → ∀ ds, s ≠ '+' :: ds := by
    intro s hs ds h
    have := hs '+' (by simp [h])
    exact absurd this (by decide)
  have hsign := hplus _ (padded_hex va.toNat k)
  have hd := Concolic.digits_padded (show 2 ≤ 16 by decide) (Nat.le_refl 16) va.toNat k
  generalize List.replicate k '0' ++ Nat.toDigits 16 va.toNat = s at hsign hd
  unfold u64FromStrRadix
  split
  · exact absurd rfl (hsign _)
  · simp [hd, va.isLt]

theorem sinkPcMatches_formatSinkPc {e : DynamicEvidence Value} {va : BitVec 64}
    (he : e.sinkPc = formatSinkPc va) : e.sinkPcMatches va = true := by
  have hhex := padded_hex va.toNat (16 - (Nat.toDigits 16 va.toNat).length)
  have hread := u64FromStrRadix_padded va (16 - (Nat.toDigits 16 va.toNat).length)
  generalize hs : List.replicate (16 - (Nat.toDigits 16 va.toNat).length) '0' ++
    Nat.toDigits 16 va.toNat = s at hhex hread
  have hx : 'x' ∉ s := fun h => absurd (hhex _ h) (by decide)
  have hX : 'X' ∉ s := fun h => absurd (hhex _ h) (by decide)
  have htrim : trimStartMatches 'x' ('0' :: 'x' :: s) = s := by
    rw [trimStartMatches, if_pos rfl, trimStartMatches_eq hx]
  rw [DynamicEvidence.sinkPcMatches, he, formatSinkPc]
  simp only [String.toList_ofList, hs, htrim, trimStartMatches_eq hX, hread, decide_true]

def own (h : Harness) (rows : List (DynamicEvidence Value)) : List (DynamicEvidence Value) :=
  rows.filter (ofHarness h)

def accepted (requested : List String) (h : Harness) (rows : List (DynamicEvidence Value)) :
    List (DynamicEvidence Value) :=
  (own h rows).filter (sourceAccepted requested)

/-- What the back-fill adds for a harness with these rows. -/
def filled (requested : List String) (h : Harness) (rows : List (DynamicEvidence Value)) :
    List (DynamicEvidence Value) :=
  (requested.filter fun source => !rows.any (hasSource h source)).map (unavailableRow h)

theorem get?_of_mem {hs : HarnessMap} {h : Harness} (hmem : h ∈ hs.rows) :
    hs.get? h.chainId = some h := by
  have hd := hs.distinct
  unfold HarnessMap.get?
  generalize hs.rows = rows at hmem hd
  induction rows with
  | nil => cases hmem
  | cons g rows ih =>
    obtain ⟨hg, hd⟩ := List.nodup_cons.mp hd
    rcases List.mem_cons.mp hmem with rfl | hmem
    · simp
    · have hne : g.chainId ≠ h.chainId := fun heq =>
        hg (heq ▸ List.mem_map_of_mem hmem)
      simpa [List.find?_cons, hne] using ih hmem hd

theorem own_own (h : Harness) (rows : List (DynamicEvidence Value)) :
    own h (own h rows) = own h rows := by
  simp [own]

theorem own_kept {hs : HarnessMap} {h : Harness} (hmem : h ∈ hs.rows) (requested : List String)
    (rows : List (DynamicEvidence Value)) :
    own h (rows.filter (kept requested hs)) = accepted requested h rows := by
  rw [own, accepted, own, List.filter_filter, List.filter_filter]
  refine List.filter_congr fun e _ => ?_
  by_cases hc : e.chainId = h.chainId
  · simp only [ofHarness, kept, hc, get?_of_mem hmem, decide_true, Bool.true_and]
    rw [Bool.and_comm, Bool.and_assoc, Bool.and_self]
  · simp [ofHarness, hc]

theorem ofHarness_of_hasSource {h : Harness} {source : String} {e : DynamicEvidence Value}
    (he : hasSource h source e = true) : ofHarness h e = true := by
  simp only [hasSource, ofHarness, Bool.and_eq_true] at he ⊢
  exact ⟨he.1.1, he.2⟩

theorem ofHarness_unavailableRow (h : Harness) (source : String) :
    ofHarness h (unavailableRow h source : DynamicEvidence Value) = true := by
  simp [ofHarness, unavailableRow, sinkPcMatches_formatSinkPc]

theorem not_ofHarness_unavailableRow {g h : Harness} (hne : g.chainId ≠ h.chainId)
    (source : String) :
    ofHarness h (unavailableRow g source : DynamicEvidence Value) = false := by
  simp [ofHarness, unavailableRow, hne]

theorem any_hasSource_own (h : Harness) (source : String)
    (rows : List (DynamicEvidence Value)) :
    (own h rows).any (hasSource h source) = rows.any (hasSource h source) := by
  rw [Bool.eq_iff_iff, List.any_eq_true, List.any_eq_true]
  constructor
  · rintro ⟨e, he, hs⟩
    exact ⟨e, (List.mem_filter.mp he).1, hs⟩
  · rintro ⟨e, he, hs⟩
    exact ⟨e, List.mem_filter.mpr ⟨he, ofHarness_of_hasSource hs⟩, hs⟩

theorem own_backFill_self (h : Harness) (rows : List (DynamicEvidence Value))
    (source : String) : own h (backFill h rows source) = backFill h (own h rows) source := by
  unfold backFill
  rw [any_hasSource_own]
  split
  · rfl
  · simp [own, ofHarness_unavailableRow]

theorem own_backFill_other {g h : Harness} (hne : g.chainId ≠ h.chainId)
    (rows : List (DynamicEvidence Value)) (source : String) :
    own h (backFill g rows source) = own h rows := by
  unfold backFill
  split
  · rfl
  · simp [own, not_ofHarness_unavailableRow hne]

theorem own_backFills_self (h : Harness) (requested : List String)
    (rows : List (DynamicEvidence Value)) :
    own h (requested.foldl (backFill h) rows) = requested.foldl (backFill h) (own h rows) := by
  induction requested generalizing rows with
  | nil => rfl
  | cons s requested ih => rw [List.foldl_cons, List.foldl_cons, ih, own_backFill_self]

theorem own_backFills_other {g h : Harness} (hne : g.chainId ≠ h.chainId)
    (requested : List String) (rows : List (DynamicEvidence Value)) :
    own h (requested.foldl (backFill g) rows) = own h rows := by
  induction requested generalizing rows with
  | nil => rfl
  | cons s requested ih => rw [List.foldl_cons, ih, own_backFill_other hne]

theorem own_otherHarnesses {h : Harness} {gs : List Harness}
    (hne : ∀ g ∈ gs, g.chainId ≠ h.chainId) (requested : List String)
    (rows : List (DynamicEvidence Value)) :
    own h (gs.foldl (fun rows g => requested.foldl (backFill g) rows) rows) = own h rows := by
  induction gs generalizing rows with
  | nil => rfl
  | cons g gs ih =>
    rw [List.foldl_cons, ih (fun g' hg' => hne g' (List.mem_cons_of_mem _ hg')),
      own_backFills_other (hne g List.mem_cons_self)]

theorem own_allHarnesses {hs : HarnessMap} {h : Harness} (hmem : h ∈ hs.rows)
    (requested : List String) (rows : List (DynamicEvidence Value)) :
    own h (hs.rows.foldl (fun rows g => requested.foldl (backFill g) rows) rows) =
      requested.foldl (backFill h) (own h rows) := by
  obtain ⟨before, after, hrows⟩ := List.append_of_mem hmem
  have hd := hs.distinct
  rw [hrows, List.map_append, List.map_cons, List.nodup_middle, List.nodup_cons,
    List.mem_append, not_or] at hd
  have hbefore : ∀ g ∈ before, g.chainId ≠ h.chainId := fun g hg heq =>
    hd.1.1 (heq ▸ List.mem_map_of_mem hg)
  have hafter : ∀ g ∈ after, g.chainId ≠ h.chainId := fun g hg heq =>
    hd.1.2 (heq ▸ List.mem_map_of_mem hg)
  rw [hrows, List.foldl_append, List.foldl_cons, own_otherHarnesses hafter,
    own_backFills_self, own_otherHarnesses hbefore]

/-- Sources that are spelled differently up to case. -/
def Distinct (requested : List String) : Prop :=
  requested.Pairwise fun a b => eqIgnoreAsciiCase a b = false

theorem hasSource_unavailableRow {h : Harness} {a b : String}
    (hab : eqIgnoreAsciiCase a b = false) :
    hasSource h b (unavailableRow h a : DynamicEvidence Value) = false := by
  simp [hasSource, unavailableRow, hab]

theorem backFills_eq (h : Harness) {requested : List String} (hd : Distinct requested)
    (rows : List (DynamicEvidence Value)) :
    requested.foldl (backFill h) rows = rows ++ filled requested h rows := by
  induction requested generalizing rows with
  | nil => simp [filled]
  | cons s requested ih =>
    obtain ⟨hs, hd⟩ := List.pairwise_cons.mp hd
    rw [List.foldl_cons, ih hd, backFill]
    split
    · rename_i hany
      simp [filled, hany]
    · rename_i hany
      have hrest : filled requested h (rows ++ [unavailableRow h s]) =
          filled requested h rows := by
        unfold filled
        congr 1
        refine List.filter_congr fun t ht => ?_
        simp [List.any_append, hasSource_unavailableRow (hs t ht)]
      rw [hrest, List.append_assoc]
      simp [filled, hany]

theorem distinct_requestedDynamicSources (selector : String) (includeControlledFixture : Bool) :
    Distinct (requestedDynamicSources selector includeControlledFixture) := by
  unfold requestedDynamicSources Distinct
  cases includeControlledFixture <;> repeat' split
  all_goals decide +kernel

/-- The rows of a harness after orchestration. -/
theorem own_orchestrate {hs : HarnessMap} {h : Harness} (hmem : h ∈ hs.rows)
    (explicitEvidence : List (DynamicEvidence Value)) (requestedSources : String)
    (includeControlledFixture : Bool) :
    own h (orchestrate hs explicitEvidence requestedSources includeControlledFixture) =
      let requested := requestedDynamicSources requestedSources includeControlledFixture
      let rows := accepted requested h explicitEvidence
      rows ++ filled requested h rows := by
  have hd := distinct_requestedDynamicSources requestedSources includeControlledFixture
  simp only [orchestrate]
  generalize requestedDynamicSources requestedSources includeControlledFixture = requested at hd
  split
  · rename_i hnone
    simp [hnone, own, accepted, filled]
  · split
    · rename_i hnone
      rw [own_kept hmem]
      simp [hnone, filled]
    · rw [own_allHarnesses hmem, own_kept hmem, backFills_eq h hd]

theorem strongestStatus_concat (l : List DynamicStatus) (s : DynamicStatus) :
    strongestStatus (l ++ [s]) = some ((strongestStatus l).elim s (stronger · s)) := by
  cases l with
  | nil => rfl
  | cons first rest => simp [strongestStatus]

theorem stronger_noScore {a b : DynamicStatus} (ha : a.contributesToScore = false) :
    stronger a b = b := by
  cases a <;> cases b <;> first | rfl | cases ha

theorem strongestStatus_confirmed (l : List DynamicStatus) :
    strongestStatus l = some .confirmedTrigger ↔ .confirmedTrigger ∈ l := by
  induction l using List.reverseRecOn with
  | nil => simp [strongestStatus]
  | append_singleton l s ih =>
    rw [strongestStatus_concat, List.mem_append, List.mem_singleton, ← ih]
    cases strongestStatus l with
    | none => simp [eq_comm]
    | some a => cases a <;> cases s <;> decide

theorem strongestStatus_reached (l : List DynamicStatus) :
    strongestStatus l = some .reachedOnly ↔ .reachedOnly ∈ l ∧ .confirmedTrigger ∉ l := by
  induction l using List.reverseRecOn with
  | nil => simp [strongestStatus]
  | append_singleton l s ih =>
    have hc := strongestStatus_confirmed l
    rw [strongestStatus_concat, List.mem_append, List.mem_append, List.mem_singleton,
      List.mem_singleton, ← hc]
    rw [← hc] at ih
    cases hl : strongestStatus l with
    | none => cases s <;> simp_all
    | some a => cases a <;> cases s <;> simp_all [stronger, DynamicStatus.scoringWeight]

/-- Without a status that scores the last one stands. -/
theorem strongestStatus_last (l : List DynamicStatus) (s : DynamicStatus)
    (hl : ∀ a ∈ l, a.contributesToScore = false) : strongestStatus (l ++ [s]) = some s := by
  rw [strongestStatus_concat]
  cases h : strongestStatus l with
  | none => rfl
  | some a =>
    have ha : a.contributesToScore = false := by
      cases a with
      | confirmedTrigger => exact hl _ ((strongestStatus_confirmed l).mp h)
      | reachedOnly => exact hl _ ((strongestStatus_reached l).mp h).1
      | notObserved => rfl
      | unavailable => rfl
    simp [stronger_noScore ha]

theorem aggregateForChain_own (h : Harness) (rows : List (DynamicEvidence Value)) :
    aggregateForChain h (own h rows) = aggregateForChain h rows := by
  have hown : (own h rows).filter (ofHarness h) = rows.filter (ofHarness h) := own_own h rows
  simp only [aggregateForChain, hown]

/-- The confirmation of a chain after orchestration. -/
def confirm (hs : HarnessMap) (requestedSources : String) (includeControlledFixture : Bool)
    (h : Harness) (explicitEvidence : List (DynamicEvidence Value)) :
    Option (ChainConfirmation Value) :=
  aggregateForChain h (orchestrate hs explicitEvidence requestedSources includeControlledFixture)

/-- The confirmation of a harness by its accepted rows. -/
def confirmRows (requested : List String) (h : Harness) (rows : List (DynamicEvidence Value)) :
    Option (ChainConfirmation Value) :=
  aggregateForChain h (rows ++ filled requested h rows)

theorem confirm_eq {hs : HarnessMap} {h : Harness} (hmem : h ∈ hs.rows)
    (requestedSources : String) (includeControlledFixture : Bool)
    (explicitEvidence : List (DynamicEvidence Value)) :
    confirm hs requestedSources includeControlledFixture h explicitEvidence =
      let requested := requestedDynamicSources requestedSources includeControlledFixture
      confirmRows requested h (accepted requested h explicitEvidence) := by
  rw [confirm, ← aggregateForChain_own, own_orchestrate hmem]
  rfl

/-- What a confirmation says apart from values and reproducers. -/
def tally (c : ChainConfirmation Value) : DynamicStatus × Nat × List String :=
  (c.status, c.sourceEvidenceCount, c.evidenceSources)

theorem mem_pushNews {source : String} (sources acc : List String) :
    source ∈ sources.foldl pushNew acc ↔ source ∈ acc ∨ source ∈ sources ∧ source ≠ "" := by
  induction sources generalizing acc with
  | nil => simp
  | cons s sources ih =>
    rw [List.foldl_cons, ih, pushNew]
    split
    · rename_i hs
      grind
    · rename_i hs
      grind

theorem nodup_pushNews (sources : List String) {acc : List String} (hacc : acc.Nodup) :
    (sources.foldl pushNew acc).Nodup := by
  induction sources generalizing acc with
  | nil => exact hacc
  | cons s sources ih =>
    refine ih ?_
    rw [pushNew]
    split
    · rename_i hs
      exact List.nodup_append.mpr ⟨hacc, by simp, by grind⟩
    · exact hacc

theorem sortedSources_perm {sources sources' : List String} (hp : sources.Perm sources') :
    (sources.foldl pushNew []).insertionSort (· ≤ ·) =
      (sources'.foldl pushNew []).insertionSort (· ≤ ·) := by
  have hmem : (sources.foldl pushNew []).Perm (sources'.foldl pushNew []) := by
    refine (List.perm_ext_iff_of_nodup (nodup_pushNews _ List.nodup_nil)
      (nodup_pushNews _ List.nodup_nil)).mpr fun a => ?_
    rw [mem_pushNews, mem_pushNews, hp.mem_iff]
  refine List.Perm.eq_of_pairwise' (r := (· ≤ ·)) (List.pairwise_insertionSort _ _)
    (List.pairwise_insertionSort _ _) ?_
  exact (List.perm_insertionSort _ _).trans (hmem.trans (List.perm_insertionSort _ _).symm)

theorem tally_perm {h : Harness} {rows rows' : List (DynamicEvidence Value)}
    (hp : (own h rows).Perm (own h rows'))
    (hs : strongestStatus ((own h rows).map (·.status)) =
      strongestStatus ((own h rows').map (·.status))) :
    (aggregateForChain h rows).map tally = (aggregateForChain h rows').map tally := by
  unfold own at hp hs
  simp only [aggregateForChain, hs]
  cases strongestStatus ((rows'.filter (ofHarness h)).map DynamicEvidence.status) with
  | none => rfl
  | some strongest =>
    have hc := hp.filter (contributes strongest)
    by_cases hu : strongest = .unavailable
    · simp only [hu, if_true]
    · simp only [hu, if_false, Option.map_some, tally, hc.length_eq, sortedSources_perm (hc.map _)]

theorem status_aggregate {h : Harness} {rows : List (DynamicEvidence Value)}
    (hown : own h rows = rows) :
    (aggregateForChain h rows).map (·.status) =
      (strongestStatus (rows.map (·.status))).filter (· ≠ .unavailable) := by
  unfold own at hown
  simp only [aggregateForChain, hown]
  cases strongestStatus (rows.map (·.status)) with
  | none => rfl
  | some strongest => by_cases hu : strongest = .unavailable <;> simp [hu, Option.filter]

theorem strongestStatus_perm {l l' : List DynamicStatus} (hp : l.Perm l')
    (hscore : ∃ a ∈ l, a.contributesToScore = true) : strongestStatus l = strongestStatus l' := by
  by_cases hc : .confirmedTrigger ∈ l
  · rw [(strongestStatus_confirmed l).mpr hc,
      (strongestStatus_confirmed l').mpr (hp.mem_iff.mp hc)]
  · have hr : .reachedOnly ∈ l := by
      obtain ⟨a, ha, hs⟩ := hscore
      cases a with
      | confirmedTrigger => exact absurd ha hc
      | reachedOnly => exact ha
      | notObserved | unavailable => cases hs
    rw [(strongestStatus_reached l).mpr ⟨hr, hc⟩, (strongestStatus_reached l').mpr
      ⟨hp.mem_iff.mp hr, fun h => hc (hp.mem_iff.mpr h)⟩]

theorem strongestStatus_noScore {l : List DynamicStatus} (hne : l ≠ [])
    (hl : ∀ a ∈ l, a.contributesToScore = false) : strongestStatus l = some (l.getLast hne) := by
  have h := strongestStatus_last l.dropLast (l.getLast hne)
    fun a ha => hl a (List.mem_of_mem_dropLast ha)
  rwa [List.dropLast_concat_getLast] at h

/-- A row that passes although no requested source has its name. -/
def letThrough (requested : List String) (e : DynamicEvidence Value) : Prop :=
  requested = [] ∨ e.evidenceSource = ""

/-- The confirmation of a chain comes from its own rows, and from requested sources. -/
structure Attributed (hs : HarnessMap) (requestedSources : String)
    (includeControlledFixture : Bool) (h : Harness)
    (explicitEvidence : List (DynamicEvidence Value)) : Prop where
  other_rows : ∀ explicitEvidence' : List (DynamicEvidence Value),
    own h explicitEvidence' = own h explicitEvidence →
    confirm hs requestedSources includeControlledFixture h explicitEvidence' =
      confirm hs requestedSources includeControlledFixture h explicitEvidence
  own_order : ∀ explicitEvidence' : List (DynamicEvidence Value),
    (own h explicitEvidence').Perm (own h explicitEvidence) →
    (confirm hs requestedSources includeControlledFixture h explicitEvidence').map tally =
      (confirm hs requestedSources includeControlledFixture h explicitEvidence).map tally
  scoring : ∀ c ∈ confirm hs requestedSources includeControlledFixture h explicitEvidence,
    c.status.contributesToScore = true → ∃ e ∈ explicitEvidence, e.chainId = h.chainId ∧
      e.sinkPcMatches h.intendedSinkVa = true ∧ e.status = c.status ∧
      sourceRequested (requestedDynamicSources requestedSources includeControlledFixture)
        e.evidenceSource = true
  every_source :
    ∀ source ∈ requestedDynamicSources requestedSources includeControlledFixture,
    ∃ e ∈ orchestrate hs explicitEvidence requestedSources includeControlledFixture,
      hasSource h source e = true

/-- Rows that did not observe the sink and rows that were not available weigh the same. They are
not tied where another row scores or where a back-filled row comes after them. -/
def Untied (requested : List String) (h : Harness)
    (explicitEvidence : List (DynamicEvidence Value)) : Prop :=
  ∀ e ∈ accepted requested h explicitEvidence, e.status = .notObserved →
    ∀ e' ∈ accepted requested h explicitEvidence, e'.status = .unavailable →
    (∃ e'' ∈ accepted requested h explicitEvidence, e''.status.contributesToScore = true) ∨
    ∃ source ∈ requested, ∀ e'' ∈ accepted requested h explicitEvidence,
      hasSource h source e'' = false

/-- A row that is let through neither is the only one with the status it gives, nor are rows
tied. -/
structure Attributable (requested : List String) (h : Harness)
    (explicitEvidence : List (DynamicEvidence Value)) : Prop where
  confirmed : ∀ e ∈ own h explicitEvidence, letThrough requested e →
    e.status = .confirmedTrigger → ∃ e' ∈ own h explicitEvidence,
      e'.status = .confirmedTrigger ∧ sourceRequested requested e'.evidenceSource = true
  reached : ∀ e ∈ own h explicitEvidence, letThrough requested e → e.status = .reachedOnly →
    (∃ e' ∈ accepted requested h explicitEvidence, e'.status = .confirmedTrigger) ∨
    ∃ e' ∈ own h explicitEvidence,
      e'.status = .reachedOnly ∧ sourceRequested requested e'.evidenceSource = true
  untied : Untied requested h explicitEvidence

/-- The confirmation of a chain comes from its own rows, and from requested sources or rows that
are let through. -/
structure Accounted (hs : HarnessMap) (requestedSources : String)
    (includeControlledFixture : Bool) (h : Harness)
    (explicitEvidence : List (DynamicEvidence Value)) : Prop where
  other_rows : ∀ explicitEvidence' : List (DynamicEvidence Value),
    own h explicitEvidence' = own h explicitEvidence →
    confirm hs requestedSources includeControlledFixture h explicitEvidence' =
      confirm hs requestedSources includeControlledFixture h explicitEvidence
  own_order :
    Untied (requestedDynamicSources requestedSources includeControlledFixture) h
      explicitEvidence →
    ∀ explicitEvidence' : List (DynamicEvidence Value),
    (own h explicitEvidence').Perm (own h explicitEvidence) →
    (confirm hs requestedSources includeControlledFixture h explicitEvidence').map tally =
      (confirm hs requestedSources includeControlledFixture h explicitEvidence).map tally
  scoring : ∀ c ∈ confirm hs requestedSources includeControlledFixture h explicitEvidence,
    c.status.contributesToScore = true → ∃ e ∈ explicitEvidence, e.chainId = h.chainId ∧
      e.sinkPcMatches h.intendedSinkVa = true ∧ e.status = c.status ∧
      sourceAccepted (requestedDynamicSources requestedSources includeControlledFixture) e = true
  every_source :
    ∀ source ∈ requestedDynamicSources requestedSources includeControlledFixture,
    ∃ e ∈ orchestrate hs explicitEvidence requestedSources includeControlledFixture,
      hasSource h source e = true

theorem own_accepted (requested : List String) (h : Harness)
    (rows : List (DynamicEvidence Value)) :
    own h (accepted requested h rows) = accepted requested h rows := by
  refine List.filter_eq_self.mpr fun e he => ?_
  exact (List.mem_filter.mp (List.mem_filter.mp he).1).2

theorem own_rows_filled {requested : List String} {h : Harness}
    {rows : List (DynamicEvidence Value)} (hown : own h rows = rows) :
    own h (rows ++ filled requested h rows) = rows ++ filled requested h rows := by
  have hfill : (filled requested h rows).filter (ofHarness h) = filled requested h rows := by
    refine List.filter_eq_self.mpr fun e he => ?_
    obtain ⟨source, -, rfl⟩ := List.mem_map.mp he
    exact ofHarness_unavailableRow h source
  unfold own at hown ⊢
  rw [List.filter_append, hown, hfill]

theorem status_of_mem_filled {requested : List String} {h : Harness}
    {rows : List (DynamicEvidence Value)} {e : DynamicEvidence Value}
    (he : e ∈ filled requested h rows) : e.status = .unavailable := by
  obtain ⟨source, -, rfl⟩ := List.mem_map.mp he
  rfl

theorem filled_perm (requested : List String) {h : Harness}
    {rows rows' : List (DynamicEvidence Value)} (hp : rows.Perm rows') :
    filled requested h rows = filled requested h rows' := by
  unfold filled
  congr 1
  refine List.filter_congr fun source _ => ?_
  rw [Bool.eq_iff_iff]
  simp [hp.mem_iff]

theorem mem_accepted {requested : List String} {h : Harness}
    {rows : List (DynamicEvidence Value)} {e : DynamicEvidence Value} :
    e ∈ accepted requested h rows ↔ e ∈ own h rows ∧
      (letThrough requested e ∨ sourceRequested requested e.evidenceSource = true) := by
  simp [accepted, sourceAccepted, letThrough]

theorem status_confirmRows (requested : List String) {h : Harness}
    {rows : List (DynamicEvidence Value)} (hown : own h rows = rows) :
    (confirmRows requested h rows).map (·.status) =
      (strongestStatus ((rows ++ filled requested h rows).map (·.status))).filter
        (· ≠ .unavailable) :=
  status_aggregate (own_rows_filled hown)

/-- A confirmation that scores has a row with its status. -/
theorem exists_row_of_scoring {requested : List String} {h : Harness}
    {rows : List (DynamicEvidence Value)} (hown : own h rows = rows)
    {c : ChainConfirmation Value} (hc : c ∈ confirmRows requested h rows)
    (hscore : c.status.contributesToScore = true) :
    ∃ e ∈ rows, e.status = c.status := by
  have hst := status_confirmRows requested hown
  rw [hc, Option.map_some, eq_comm, Option.filter_eq_some_iff] at hst
  have hmem : c.status ∈ (rows ++ filled requested h rows).map (·.status) := by
    cases hcs : c.status with
    | confirmedTrigger => exact (strongestStatus_confirmed _).mp (hcs ▸ hst.1)
    | reachedOnly => exact ((strongestStatus_reached _).mp (hcs ▸ hst.1)).1
    | notObserved | unavailable => simp [hcs, DynamicStatus.contributesToScore] at hscore
  obtain ⟨e, he, hes⟩ := List.mem_map.mp hmem
  rcases List.mem_append.mp he with he | he
  · exact ⟨e, he, hes⟩
  · rw [← hes, status_of_mem_filled he] at hscore
    cases hscore

/-- A confirmed row would have been the stronger one. -/
theorem no_confirmed_of_reached {requested : List String} {h : Harness}
    {rows : List (DynamicEvidence Value)} (hown : own h rows = rows)
    {c : ChainConfirmation Value} (hc : c ∈ confirmRows requested h rows)
    (hcs : c.status = .reachedOnly) : ∀ e ∈ rows, e.status ≠ .confirmedTrigger := by
  intro e he hes
  have hst := status_confirmRows requested hown
  rw [hc, Option.map_some, hcs, eq_comm, Option.filter_eq_some_iff] at hst
  have hno := ((strongestStatus_reached _).mp hst.1).2
  exact hno (List.mem_map.mpr ⟨e, List.mem_append_left _ he, hes⟩)

theorem strongestStatus_filled {requested : List String} {h : Harness}
    {rows : List (DynamicEvidence Value)} (hfill : filled requested h rows ≠ [])
    (hrows : ∀ e ∈ rows, e.status.contributesToScore = false) :
    strongestStatus ((rows ++ filled requested h rows).map (·.status)) = some .unavailable := by
  have hne : (rows ++ filled requested h rows).map (·.status) ≠ [] := by simp [hfill]
  have hnone : ∀ a ∈ (rows ++ filled requested h rows).map (·.status),
      a.contributesToScore = false := by
    intro a ha
    obtain ⟨e, he, rfl⟩ := List.mem_map.mp ha
    rcases List.mem_append.mp he with he | he
    · exact hrows e he
    · rw [status_of_mem_filled he]; rfl
  have hlast : (rows ++ filled requested h rows).getLast (by simp [hfill]) =
      (filled requested h rows).getLast hfill := List.getLast_append_of_ne_nil _ hfill
  rw [strongestStatus_noScore hne hnone, List.getLast_map, hlast,
    status_of_mem_filled (List.getLast_mem hfill)]

theorem noScore_cases {a : DynamicStatus} (ha : a.contributesToScore = false) :
    a = .notObserved ∨ a = .unavailable := by
  cases a with
  | confirmedTrigger | reachedOnly => cases ha
  | notObserved => exact .inl rfl
  | unavailable => exact .inr rfl

theorem status_eq_of_untied {l l' : List DynamicStatus} (hp : l.Perm l')
    (hnone : ∀ a ∈ l, a.contributesToScore = false)
    (huntied : .notObserved ∈ l → .unavailable ∉ l) : strongestStatus l = strongestStatus l' := by
  by_cases hne : l = []
  · subst hne
    rw [List.nil_perm.mp hp]
  have hne' : l' ≠ [] := fun h => hne (List.perm_nil.mp (h ▸ hp))
  rw [strongestStatus_noScore hne hnone,
    strongestStatus_noScore hne' fun a ha => hnone a (hp.mem_iff.mpr ha)]
  have hx := List.getLast_mem hne
  have hy := hp.mem_iff.mpr (List.getLast_mem hne')
  rcases noScore_cases (hnone _ hx) with hnx | hnx <;>
    rcases noScore_cases (hnone _ hy) with hny | hny <;> rw [hnx, hny]
  · exact absurd (hny ▸ hy) (huntied (hnx ▸ hx))
  · exact absurd (hnx ▸ hx) (huntied (hny ▸ hy))

/-- Unless rows are tied, their order does not matter. -/
theorem confirmRows_perm {requested : List String} {h : Harness}
    {rows rows' : List (DynamicEvidence Value)} (hp : rows.Perm rows')
    (hown : own h rows = rows)
    (huntied : ∀ e ∈ rows, e.status = .notObserved → ∀ e' ∈ rows, e'.status = .unavailable →
      (∃ e'' ∈ rows, e''.status.contributesToScore = true) ∨ filled requested h rows ≠ []) :
    (confirmRows requested h rows).map tally = (confirmRows requested h rows').map tally := by
  have hown' : own h rows' = rows' := List.filter_eq_self.mpr fun e he =>
    List.filter_eq_self.mp hown e (hp.mem_iff.mpr he)
  have hfill := filled_perm requested (h := h) hp
  have hp' : (rows ++ filled requested h rows).Perm (rows' ++ filled requested h rows') := by
    rw [hfill]
    exact hp.append_right _
  refine tally_perm ?_ ?_
  · rw [own_rows_filled hown, own_rows_filled hown']
    exact hp'
  rw [own_rows_filled hown, own_rows_filled hown']
  by_cases hscore : ∃ e ∈ rows, e.status.contributesToScore = true
  · obtain ⟨e, he, hs⟩ := hscore
    exact strongestStatus_perm (hp'.map _)
      ⟨_, List.mem_map_of_mem (List.mem_append_left _ he), hs⟩
  have hrows : ∀ e ∈ rows, e.status.contributesToScore = false := fun e he =>
    Bool.eq_false_iff.mpr fun hs => hscore ⟨e, he, hs⟩
  by_cases hnil : filled requested h rows = []
  · rw [← hfill, hnil, List.append_nil, List.append_nil]
    refine status_eq_of_untied (hp.map _) ?_ fun hno hun => ?_
    · intro a ha
      obtain ⟨e, he, rfl⟩ := List.mem_map.mp ha
      exact hrows e he
    · obtain ⟨e, he, hes⟩ := List.mem_map.mp hno
      obtain ⟨e', he', hes'⟩ := List.mem_map.mp hun
      rcases huntied e he hes e' he' hes' with hs | hs
      · exact hscore hs
      · exact hs hnil
  · rw [strongestStatus_filled hnil hrows, strongestStatus_filled (hfill ▸ hnil)
      fun e he => hrows e (hp.mem_iff.mpr he)]

/-- Any accepted row can be the last one, in another order of the same rows. -/
theorem exists_order_with_last {requested : List String} {h : Harness}
    {rows : List (DynamicEvidence Value)} {e : DynamicEvidence Value}
    (he : e ∈ accepted requested h rows) :
    ∃ rows', (own h rows').Perm (own h rows) ∧
      ∃ before, accepted requested h rows' = before ++ [e] := by
  obtain ⟨heown, hacc⟩ := List.mem_filter.mp he
  obtain ⟨s, t, hst⟩ := List.append_of_mem heown
  have hall : ∀ r ∈ own h rows, ofHarness h r = true := fun r hr => (List.mem_filter.mp hr).2
  have hown : own h (s ++ t ++ [e]) = s ++ t ++ [e] := by
    refine List.filter_eq_self.mpr fun r hr => hall r ?_
    rw [hst]
    grind
  refine ⟨s ++ t ++ [e], ?_, (s ++ t).filter (sourceAccepted requested), ?_⟩
  · rw [hown, hst, List.append_assoc]
    exact List.Perm.append_left s List.perm_append_comm
  · rw [accepted, hown, List.filter_append, List.filter_cons, if_pos hacc, List.filter_nil]

/-- Where rows are tied, a permutation changes the confirmation. -/
theorem confirm_of_last {hs : HarnessMap} {h : Harness} (hmem : h ∈ hs.rows)
    {requestedSources : String} {includeControlledFixture : Bool}
    {explicitEvidence : List (DynamicEvidence Value)} {e : DynamicEvidence Value}
    (he : e ∈ accepted (requestedDynamicSources requestedSources includeControlledFixture) h
      explicitEvidence)
    (hnone : ∀ e ∈ accepted (requestedDynamicSources requestedSources includeControlledFixture) h
      explicitEvidence, e.status.contributesToScore = false)
    (hfill : filled (requestedDynamicSources requestedSources includeControlledFixture) h
      (accepted (requestedDynamicSources requestedSources includeControlledFixture) h
        explicitEvidence) = []) :
    ∃ explicitEvidence', (own h explicitEvidence').Perm (own h explicitEvidence) ∧
      (confirm hs requestedSources includeControlledFixture h explicitEvidence').map (·.status) =
        (some e.status).filter (· ≠ .unavailable) := by
  generalize hreq : requestedDynamicSources requestedSources includeControlledFixture = requested
    at he hnone hfill
  obtain ⟨explicitEvidence', hperm, before, hlast⟩ := exists_order_with_last he
  have hp : (accepted requested h explicitEvidence').Perm
      (accepted requested h explicitEvidence) := hperm.filter _
  refine ⟨explicitEvidence', hperm, ?_⟩
  have hconf := confirm_eq hmem requestedSources includeControlledFixture explicitEvidence'
  simp only [hreq] at hconf
  rw [hconf, status_confirmRows _ (own_accepted _ _ _), filled_perm _ hp, hfill, List.append_nil,
    hlast, List.map_append, List.map_cons, List.map_nil, strongestStatus_last]
  intro a ha
  obtain ⟨r, hr, rfl⟩ := List.mem_map.mp ha
  exact hnone r (hp.mem_iff.mp (by rw [hlast]; exact List.mem_append_left _ hr))

theorem filled_ne_nil {requested : List String} {h : Harness}
    {rows : List (DynamicEvidence Value)} :
    filled requested h rows ≠ [] ↔
      ∃ source ∈ requested, ∀ e ∈ rows, hasSource h source e = false := by
  simp [filled, List.filter_eq_nil_iff]

theorem every_source {hs : HarnessMap} {h : Harness} (hmem : h ∈ hs.rows)
    (explicitEvidence : List (DynamicEvidence Value)) {requestedSources : String}
    {includeControlledFixture : Bool} {source : String}
    (hsource : source ∈ requestedDynamicSources requestedSources includeControlledFixture) :
    ∃ e ∈ orchestrate hs explicitEvidence requestedSources includeControlledFixture,
      hasSource h source e = true := by
  have hown := own_orchestrate hmem explicitEvidence requestedSources includeControlledFixture
  simp only at hown
  by_cases hany : (accepted (requestedDynamicSources requestedSources includeControlledFixture) h
      explicitEvidence).any (hasSource h source) = true
  · obtain ⟨e, he, hs⟩ := List.any_eq_true.mp hany
    have := List.mem_append_left (filled (requestedDynamicSources requestedSources
      includeControlledFixture) h (accepted (requestedDynamicSources requestedSources
      includeControlledFixture) h explicitEvidence)) he
    rw [← hown] at this
    exact ⟨e, (List.mem_filter.mp this).1, hs⟩
  · refine ⟨unavailableRow h source, ?_, ?_⟩
    · have : unavailableRow h source ∈ own h (orchestrate hs explicitEvidence requestedSources
          includeControlledFixture) := by
        rw [hown]
        refine List.mem_append_right _ (List.mem_map_of_mem (List.mem_filter.mpr ⟨hsource, ?_⟩))
        simpa using hany
      exact (List.mem_filter.mp this).1
    · simp [hasSource, unavailableRow, eqIgnoreAsciiCase, sinkPcMatches_formatSinkPc]

/-- A row of the chain and the sink is one of the harness's own. -/
theorem mem_own {h : Harness} {rows : List (DynamicEvidence Value)} {e : DynamicEvidence Value} :
    e ∈ own h rows ↔
      e ∈ rows ∧ e.chainId = h.chainId ∧ e.sinkPcMatches h.intendedSinkVa = true := by
  simp [own, ofHarness]

theorem accounted {hs : HarnessMap} {h : Harness} (hmem : h ∈ hs.rows)
    (explicitEvidence : List (DynamicEvidence Value)) (requestedSources : String)
    (includeControlledFixture : Bool) :
    Accounted hs requestedSources includeControlledFixture h explicitEvidence where
  other_rows explicitEvidence' hown := by
    simp only [confirm_eq hmem, accepted, hown]
  own_order huntied explicitEvidence' hperm := by
    simp only [confirm_eq hmem]
    refine (confirmRows_perm (hperm.symm.filter _) (own_accepted _ _ _) ?_).symm
    intro e he hes e' he' hes'
    rw [filled_ne_nil]
    exact huntied e he hes e' he' hes'
  scoring c hc hscore := by
    rw [confirm_eq hmem] at hc
    obtain ⟨e, he, hes⟩ := exists_row_of_scoring (own_accepted _ _ _) hc hscore
    obtain ⟨heown, hacc⟩ := List.mem_filter.mp he
    obtain ⟨hin, hchain, hpc⟩ := mem_own.mp heown
    exact ⟨e, hin, hchain, hpc, hes, hacc⟩
  every_source _ hsource := every_source hmem explicitEvidence hsource

theorem attributed_of_attributable {hs : HarnessMap} {h : Harness} (hmem : h ∈ hs.rows)
    {explicitEvidence : List (DynamicEvidence Value)} {requestedSources : String}
    {includeControlledFixture : Bool}
    (ha : Attributable (requestedDynamicSources requestedSources includeControlledFixture) h
      explicitEvidence) :
    Attributed hs requestedSources includeControlledFixture h explicitEvidence where
  other_rows := (accounted hmem explicitEvidence _ _).other_rows
  own_order := (accounted hmem explicitEvidence _ _).own_order ha.untied
  scoring c hc hscore := by
    rw [confirm_eq hmem] at hc
    obtain ⟨e, he, hes⟩ := exists_row_of_scoring (own_accepted _ _ _) hc hscore
    suffices hown : ∃ e' ∈ own h explicitEvidence, e'.status = c.status ∧
        sourceRequested (requestedDynamicSources requestedSources includeControlledFixture)
          e'.evidenceSource = true by
      obtain ⟨e', he', hs', hr'⟩ := hown
      obtain ⟨hin, hchain, hpc⟩ := mem_own.mp he'
      exact ⟨e', hin, hchain, hpc, hs', hr'⟩
    obtain ⟨heown, hlet | hreq⟩ := mem_accepted.mp he
    · cases hcs : c.status with
      | confirmedTrigger => exact ha.confirmed e heown hlet (hes.trans hcs)
      | reachedOnly =>
        rcases ha.reached e heown hlet (hes.trans hcs) with hconf | hown
        · obtain ⟨e', he', hconf⟩ := hconf
          exact absurd hconf (no_confirmed_of_reached (own_accepted _ _ _) hc hcs e' he')
        · exact hown
      | notObserved | unavailable => simp [hcs, DynamicStatus.contributesToScore] at hscore
    · exact ⟨e, heown, hes, hreq⟩
  every_source := (accounted hmem explicitEvidence _ _).every_source

theorem attributable_of_attributed {hs : HarnessMap} {h : Harness} (hmem : h ∈ hs.rows)
    {explicitEvidence : List (DynamicEvidence Value)} {requestedSources : String}
    {includeControlledFixture : Bool}
    (ha : Attributed hs requestedSources includeControlledFixture h explicitEvidence) :
    Attributable (requestedDynamicSources requestedSources includeControlledFixture) h
      explicitEvidence := by
  generalize hreq : requestedDynamicSources requestedSources includeControlledFixture = requested
  have hconf := confirm_eq hmem requestedSources includeControlledFixture explicitEvidence
  have hst := status_confirmRows requested (own_accepted requested h explicitEvidence)
  simp only [hreq] at hconf
  rw [← hconf] at hst
  -- a scoring status of the rows is the confirmation's, and so that of a requested row
  have hscored : ∀ status : DynamicStatus, status.contributesToScore = true →
      strongestStatus ((accepted requested h explicitEvidence ++ filled requested h
        (accepted requested h explicitEvidence)).map (·.status)) = some status →
      ∃ e' ∈ own h explicitEvidence, e'.status = status ∧
        sourceRequested requested e'.evidenceSource = true := by
    intro status hscore hstrong
    have hne : status ≠ .unavailable := by rintro rfl; cases hscore
    rw [hstrong, Option.filter_some_pos (by simpa using hne)] at hst
    obtain ⟨c, hc, hcs⟩ := Option.map_eq_some_iff.mp hst
    obtain ⟨e, he, hchain, hpc, hes, hr⟩ := ha.scoring c hc (hcs ▸ hscore)
    rw [hreq] at hr
    exact ⟨e, mem_own.mpr ⟨he, hchain, hpc⟩, hes.trans hcs, hr⟩
  have hin : ∀ e ∈ accepted requested h explicitEvidence,
      e.status ∈ (accepted requested h explicitEvidence ++ filled requested h
        (accepted requested h explicitEvidence)).map (·.status) := fun e he =>
    List.mem_map_of_mem (List.mem_append_left _ he)
  refine ⟨fun e he hlet hes => ?_, fun e he hlet hes => ?_, fun e he hes e' he' hes' => ?_⟩
  · exact hscored .confirmedTrigger rfl
      ((strongestStatus_confirmed _).mpr (hes ▸ hin e (mem_accepted.mpr ⟨he, .inl hlet⟩)))
  · by_cases hc : ∃ e' ∈ accepted requested h explicitEvidence, e'.status = .confirmedTrigger
    · exact .inl hc
    · refine .inr (hscored .reachedOnly rfl ((strongestStatus_reached _).mpr
        ⟨hes ▸ hin e (mem_accepted.mpr ⟨he, .inl hlet⟩), fun hmem => hc ?_⟩))
      obtain ⟨e', he', hes'⟩ := List.mem_map.mp hmem
      rcases List.mem_append.mp he' with he' | he'
      · exact ⟨e', he', hes'⟩
      · rw [status_of_mem_filled he'] at hes'
        cases hes'
  · by_cases hscore : ∃ e'' ∈ accepted requested h explicitEvidence,
        e''.status.contributesToScore = true
    · exact .inl hscore
    rw [← filled_ne_nil]
    refine .inr fun hfill => ?_
    have hnone : ∀ r ∈ accepted requested h explicitEvidence,
        r.status.contributesToScore = false := fun r hr =>
      Bool.eq_false_iff.mpr fun hs => hscore ⟨r, hr, hs⟩
    subst hreq
    obtain ⟨rows, hperm, hrows⟩ := confirm_of_last hmem he hnone hfill
    obtain ⟨rows', hperm', hrows'⟩ := confirm_of_last hmem he' hnone hfill
    have heq := congrArg (Option.map Prod.fst)
      ((ha.own_order rows hperm).trans (ha.own_order rows' hperm').symm)
    rw [Option.map_map, Option.map_map] at heq
    have hbad := (hrows.symm.trans heq).trans hrows'
    rw [hes, hes'] at hbad
    exact absurd hbad (by decide)

/-- Confirmations are attributed to their own chains and to requested sources exactly where
rows that are let through decide no status and no rows are tied. -/
theorem attributed_iff (hs : HarnessMap) (explicitEvidence : List (DynamicEvidence Value))
    (requestedSources : String) (includeControlledFixture : Bool) :
    (∀ h ∈ hs.rows, Attributed hs requestedSources includeControlledFixture h explicitEvidence) ↔
      ∀ h ∈ hs.rows, Attributable
        (requestedDynamicSources requestedSources includeControlledFixture) h
        explicitEvidence :=
  ⟨fun ha h hmem => attributable_of_attributed hmem (ha h hmem),
    fun ha h hmem => attributed_of_attributable hmem (ha h hmem)⟩

/-- One harness, and a row for it that no tool has signed. -/
def soleHarness : Harness := ⟨"chain-1", "harness-1", 0x401000⟩

def soleHarnessMap : HarnessMap := ⟨[soleHarness], List.nodup_singleton _⟩

def unsignedRow : DynamicEvidence Unit where
  chainId := "chain-1"
  harnessId := "harness-1"
  sinkPc := "0x401000"
  status := .confirmedTrigger
  evidenceSource := ""
  observedArgumentValues := []
  reproducerId := ""
  confidenceDelta := DynamicStatus.confirmedTrigger.confidenceDelta

/-- A second chain, with a row of the fuzzer at the sink of the first. -/
def twoHarnesses : HarnessMap where
  rows := [soleHarness, ⟨"chain-2", "harness-2", 0x402000⟩]
  distinct := by decide

def mixedRows : List (DynamicEvidence Unit) :=
  [{ unsignedRow with status := .notObserved, evidenceSource := "FUZZ" }, unsignedRow,
    { unsignedRow with chainId := "chain-2", evidenceSource := "fuzz" }]

end Axe.Vuln
