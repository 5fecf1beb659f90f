import Mathlib.Data.List.Nodup
import Axe.Facts.Confidence
import Axe.Trace.Event

/-!
# Behaviour facts

Six detectors look for events that show a behaviour. A fact cites the events that it counted.
What the lower case of a text is, is a parameter.
-/
namespace Axe.Trace

open Facts (Confidence)

structure LossMeta where
  eventsDropped : Nat

structure BehaviorFact where
  schema : String
  factId : String
  runId : String
  category : String
  claim : String
  confidence : Confidence
  evidence : List String
  uncertainty : Option String
  deriving DecidableEq

def factSchema : String := "dynamic_trace.behavior_fact.v1"

/-- A counter with at least four digits. -/
def nextFactId (n : Nat) : String :=
  let digits := Nat.toDigits 10 n
  "fact_" ++ String.ofList (List.replicate (4 - digits.length) '0' ++ digits)

def uncertaintyOf (loss : LossMeta) : Option String :=
  if 0 < loss.eventsDropped then
    some ("captured_stream_had_" ++ toString loss.eventsDropped ++ "_dropped_events; negative " ++
      "claims (e.g. no_network_activity) should not be trusted")
  else none

def buildFact (runId factId category claim : String) (confidence : Rat) (evidence : List String)
    (loss : LossMeta) : BehaviorFact :=
  ⟨factSchema, factId, runId, category, claim, Confidence.fromScore confidence, evidence,
    uncertaintyOf loss⟩

def scoreFromHits (base : Rat) (hits : Nat) : Rat :=
  let score := base + (min hits 4 : Nat) * (4 / 100)
  if score ≤ 96 / 100 then score else 96 / 100

/-- What a detector cites, and what it says of the events. -/
structure Detector where
  category : String
  base : Rat
  hits : List TraceEvent → List String
  claim : List TraceEvent → String

/-- One fact when there is something to cite. -/
def Detector.detect (d : Detector) (runId : String) (events : List TraceEvent) (nextId : Nat)
    (loss : LossMeta) : List BehaviorFact × Nat :=
  let hits := d.hits events
  if hits = [] then ([], nextId)
  else ([buildFact runId (nextFactId nextId) d.category (d.claim events)
    (scoreFromHits d.base hits.length) hits loss], nextId + 1)

/-- A detector that cites the events of one kind. -/
def filterDetector (category : String) (base : Rat) (before after : String)
    (shows : TraceEvent → Bool) : Detector where
  category := category
  base := base
  hits := fun events => (events.filter shows).map TraceEvent.eventId
  claim := fun events => before ++ toString (events.filter shows).length ++ after

def containsText (text pattern : String) : Bool :=
  text.toList.tails.any fun rest => pattern.toList.isPrefixOf rest

section Detectors
variable (lower : String → String)

def objectContains (event : TraceEvent) (pattern : String) : Bool :=
  event.object.any fun obj => containsText (lower obj.id) pattern

def showsPersistence (event : TraceEvent) : Bool :=
  match event.eventType with
  | .registryWrite =>
    objectContains lower event "\\software\\microsoft\\windows\\currentversion\\run"
  | .fileWrite => objectContains lower event "\\system32\\tasks\\"
  | _ => false

def detectPersistence : Detector :=
  filterDetector "persistence" (72 / 100) "Process wrote to "
    " persistence mechanism(s) (Run key or scheduled-task file)." (showsPersistence lower)

def showsDefenseEvasion (event : TraceEvent) : Bool :=
  event.eventType = .registryWrite &&
    (objectContains lower event "\\windows defender" ||
      objectContains lower event "\\policies\\microsoft\\windows defender")

def detectDefenseEvasion : Detector :=
  filterDetector "defense_evasion" (82 / 100) "Process modified "
    " Windows Defender registry key(s)." (showsDefenseEvasion lower)

def isTempWrite (event : TraceEvent) : Bool :=
  event.eventType = .fileWrite &&
    (objectContains lower event "\\temp\\" ||
      objectContains lower event "\\appdata\\local\\temp\\" ||
      objectContains lower event "/tmp/")

def isNetworkSend (event : TraceEvent) : Bool :=
  event.eventType = .networkSend || event.eventType = .networkConnect

/-- The writes stand before the sends, and eight of them all are cited. -/
def exfilHits (events : List TraceEvent) : List String :=
  let tempWrites := events.filter (isTempWrite lower)
  let networkSends := events.filter isNetworkSend
  if tempWrites = [] ∨ networkSends = [] then []
  else ((tempWrites ++ networkSends).take 8).map TraceEvent.eventId

def detectExfilStaging : Detector where
  category := "exfil_staging"
  base := 55 / 100
  hits := exfilHits lower
  claim := fun events => "Process wrote " ++
    toString (events.filter (isTempWrite lower)).length ++ " file(s) to temp + made " ++
    toString (events.filter isNetworkSend).length ++ " outbound network send/connect(s)."

def discoveryToolNames : List String :=
  ["whoami.exe", "net.exe", "net1.exe", "systeminfo.exe", "tasklist.exe", "ipconfig.exe",
    "nltest.exe", "ping.exe", "arp.exe", "route.exe"]

/-- What stands after the last separator of a path. -/
def basename (path : String) : String :=
  String.ofList (path.toList.reverse.takeWhile fun c => c ≠ '\\' && c ≠ '/').reverse

def spawnedImage (event : TraceEvent) : String :=
  (((event.arg "image").bind ArgValue.asStr).orElse fun _ => event.processImage).getD ""

def showsDiscovery (event : TraceEvent) : Bool :=
  event.eventType = .processStart &&
    discoveryToolNames.contains (lower (basename (spawnedImage event)))

def detectDiscovery : Detector :=
  filterDetector "discovery" (78 / 100) "Process spawned " " system-discovery tool(s)."
    (showsDiscovery lower)

/-- What stands after the first occurrence of a pattern. -/
def afterFirst (pattern : List Char) : List Char → Option (List Char)
  | [] => none
  | c :: rest =>
    if pattern.isPrefixOf (c :: rest) then some ((c :: rest).drop pattern.length)
    else afterFirst pattern rest

/-- The name of a service ends at the next separator. -/
def extractServiceName (text : String) : String :=
  ((afterFirst "\\services\\".toList text.toList).map fun tail =>
    String.ofList (tail.takeWhile fun c => c ≠ '\\')).getD "<unknown>"

def isServiceWrite (event : TraceEvent) : Bool :=
  event.eventType = .registryWrite &&
    objectContains lower event "\\system\\currentcontrolset\\services\\" &&
    objectContains lower event "\\imagepath"

def serviceName (event : TraceEvent) : String :=
  extractServiceName (event.object.elim "" fun obj => lower obj.id)

/-- The services that were seen, and the events that are cited. -/
def serviceStep (acc : List String × List String) (event : TraceEvent) :
    List String × List String :=
  if isServiceWrite lower event && !acc.1.contains (serviceName lower event) then
    (acc.1 ++ [serviceName lower event], acc.2 ++ [event.eventId])
  else acc

def serviceHits (events : List TraceEvent) : List String :=
  (events.foldl (serviceStep lower) ([], [])).2

def detectServiceCreation : Detector where
  category := "service_creation"
  base := 86 / 100
  hits := serviceHits lower
  claim := fun events => "Process created or modified " ++
    toString (serviceHits lower events).length ++ " service(s)."

def browserDbPatterns : List String :=
  ["\\chrome\\user data\\", "\\chromium\\user data\\", "\\edge\\user data\\",
    "\\mozilla\\firefox\\profiles\\", "login data", "cookies", "web data", "places.sqlite",
    "key4.db", "logins.json"]

def showsBrowserAccess (event : TraceEvent) : Bool :=
  (event.eventType = .fileRead || event.eventType = .fileOpen) &&
    browserDbPatterns.any (objectContains lower event)

def detectBrowserCredentialAccess : Detector :=
  filterDetector "browser_credential_access" (88 / 100) "Process read "
    " browser credential / profile file(s)." (showsBrowserAccess lower)

def detectors : List Detector :=
  [detectPersistence lower, detectDefenseEvasion lower, detectExfilStaging lower,
    detectDiscovery lower, detectServiceCreation lower, detectBrowserCredentialAccess lower]

def runDetector (runId : String) (events : List TraceEvent) (loss : LossMeta)
    (acc : List BehaviorFact × Nat) (d : Detector) : List BehaviorFact × Nat :=
  let found := d.detect runId events acc.2 loss
  (acc.1 ++ found.1, found.2)

def extractFacts (runId : String) (events : List TraceEvent) (loss : LossMeta) :
    List BehaviorFact :=
  ((detectors lower).foldl (runDetector runId events loss) ([], 1)).1

end Detectors

def citedEvents (events : List TraceEvent) (fact : BehaviorFact) : List TraceEvent :=
  events.filter fun event => fact.evidence.contains event.eventId

def WriteBeforeSend (lower : String → String) (events : List TraceEvent) : Prop :=
  ∃ write send, [write, send].Sublist events ∧ isTempWrite lower write = true ∧
    isNetworkSend send = true

/-- The evidence of a fact is in the list, and shows the behaviour by itself. -/
structure Supported (lower : String → String) (runId : String) (events : List TraceEvent)
    (loss : LossMeta) (fact : BehaviorFact) : Prop where
  listed : ∀ id ∈ fact.evidence, id ∈ events.map TraceEvent.eventId
  once : fact.evidence.Nodup
  again : ∃ found ∈ extractFacts lower runId (citedEvents events fact) loss,
    found.category = fact.category
  staged : fact.category = "exfil_staging" → WriteBeforeSend lower events

/-- All the writes to temporary directories fit the citation, and one comes before a send. -/
def StagingFits (lower : String → String) (events : List TraceEvent) : Prop :=
  events.filter (isTempWrite lower) = [] ∨ events.filter isNetworkSend = [] ∨
    (events.filter (isTempWrite lower)).length ≤ 7 ∧ WriteBeforeSend lower events

/-- The fact of a detector, numbered. -/
def Detector.fact (d : Detector) (runId : String) (events : List TraceEvent) (loss : LossMeta)
    (n : Nat) : BehaviorFact :=
  buildFact runId (nextFactId n) d.category (d.claim events)
    (scoreFromHits d.base (d.hits events).length) (d.hits events) loss

section Facts
variable {lower : String → String} {runId : String} {events chosen : List TraceEvent}
  {loss : LossMeta} {fact : BehaviorFact} {d : Detector} {event : TraceEvent}

theorem mem_runDetector {acc : List BehaviorFact × Nat} :
    fact ∈ (runDetector runId events loss acc d).1 ↔
      fact ∈ acc.1 ∨ d.hits events ≠ [] ∧ fact = d.fact runId events loss acc.2 := by
  rw [runDetector, Detector.detect]
  by_cases hhits : d.hits events = []
  · simp [hhits]
  · simp [hhits, Detector.fact]

/-- Every fact is that of a detector that found something. -/
theorem detector_of_mem (h : fact ∈ extractFacts lower runId events loss) :
    ∃ d ∈ detectors lower, d.hits events ≠ [] ∧ ∃ n, fact = d.fact runId events loss n := by
  have hfold : ∀ (ds : List Detector) acc, fact ∈ (ds.foldl (runDetector runId events loss) acc).1 →
      fact ∈ acc.1 ∨
        ∃ d ∈ ds, d.hits events ≠ [] ∧ ∃ n, fact = d.fact runId events loss n := by
    intro ds
    induction ds with
    | nil => exact fun _ hmem => .inl hmem
    | cons d ds ih =>
      intro acc hmem
      rcases ih _ hmem with hmem | ⟨d', hd', hfact⟩
      · rcases mem_runDetector.mp hmem with hmem | ⟨hhits, hfact⟩
        · exact .inl hmem
        · exact .inr ⟨d, List.mem_cons_self, hhits, _, hfact⟩
      · exact .inr ⟨d', List.mem_cons_of_mem _ hd', hfact⟩
  rcases hfold _ _ h with hmem | hfound
  · exact absurd hmem List.not_mem_nil
  · exact hfound

/-- A detector that finds something has a fact. -/
theorem exists_fact (hd : d ∈ detectors lower) (hhits : d.hits events ≠ []) :
    ∃ n, d.fact runId events loss n ∈ extractFacts lower runId events loss := by
  have hkeep : ∀ (ds : List Detector) acc fact, fact ∈ acc.1 →
      fact ∈ (ds.foldl (runDetector runId events loss) acc).1 := by
    intro ds
    induction ds with
    | nil => exact fun _ _ hmem => hmem
    | cons d ds ih => exact fun acc fact hmem => ih _ _ (mem_runDetector.mpr (.inl hmem))
  have hfold : ∀ (ds : List Detector) acc, d ∈ ds →
      ∃ n, d.fact runId events loss n ∈ (ds.foldl (runDetector runId events loss) acc).1 := by
    intro ds
    induction ds with
    | nil => exact fun _ hmem => absurd hmem List.not_mem_nil
    | cons d' ds ih =>
      intro acc hmem
      rcases List.mem_cons.mp hmem with rfl | hmem
      · exact ⟨acc.2, hkeep ds _ _ (mem_runDetector.mpr (.inr ⟨hhits, rfl⟩))⟩
      · exact ih _ hmem
  exact hfold _ _ hd

theorem categories_distinct (lower : String → String) :
    ((detectors lower).map Detector.category).Nodup := by
  change ["persistence", "defense_evasion", "exfil_staging", "discovery", "service_creation",
    "browser_credential_access"].Nodup
  decide

/-- A category has a fact when its detector finds something. -/
theorem exists_category_iff (hd : d ∈ detectors lower) :
    (∃ fact ∈ extractFacts lower runId events loss, fact.category = d.category) ↔
      d.hits events ≠ [] := by
  constructor
  · rintro ⟨fact, hfact, hcategory⟩
    obtain ⟨d', hd', hhits, n, rfl⟩ := detector_of_mem hfact
    obtain rfl := List.inj_on_of_nodup_map (categories_distinct lower) hd' hd hcategory
    exact hhits
  · intro hhits
    obtain ⟨n, hmem⟩ := exists_fact hd hhits
    exact ⟨_, hmem, rfl⟩

/-- The events whose identifiers are those of chosen ones are the chosen ones. -/
theorem mem_filter_ids (hids : (events.map TraceEvent.eventId).Nodup)
    (hchosen : ∀ event ∈ chosen, event ∈ events) :
    event ∈ events.filter (fun e => (chosen.map TraceEvent.eventId).contains e.eventId) ↔
      event ∈ chosen := by
  rw [List.mem_filter, List.contains_iff_mem, List.mem_map]
  constructor
  · rintro ⟨hevent, e, he, heq⟩
    exact List.inj_on_of_nodup_map hids (hchosen e he) hevent heq ▸ he
  · exact fun hevent => ⟨hchosen event hevent, event, hevent, rfl⟩

/-- What a detector cites are chosen events, and it finds something in them again. -/
structure Detector.Cites (d : Detector) (events chosen : List TraceEvent) : Prop where
  hits_eq : d.hits events = chosen.map TraceEvent.eventId
  mem : ∀ event ∈ chosen, event ∈ events
  nodup : (chosen.map TraceEvent.eventId).Nodup
  again : chosen ≠ [] → ∀ found : List TraceEvent, (∀ event, event ∈ found ↔ event ∈ chosen) →
    d.hits found ≠ []

theorem filterDetector_cites (hids : (events.map TraceEvent.eventId).Nodup)
    (category before after : String) (base : Rat) (shows : TraceEvent → Bool) :
    (filterDetector category base before after shows).Cites events (events.filter shows) where
  hits_eq := rfl
  mem := fun _ hevent => (List.mem_filter.mp hevent).1
  nodup := hids.sublist (List.filter_sublist.map _)
  again := by
    intro hne found hfound hnil
    obtain ⟨event, hevent⟩ := List.exists_mem_of_ne_nil _ hne
    have hmem : event ∈ found.filter shows :=
      List.mem_filter.mpr ⟨(hfound event).mpr hevent, (List.mem_filter.mp hevent).2⟩
    rw [List.map_eq_nil_iff.mp hnil] at hmem
    exact List.not_mem_nil hmem

/-- The services that are cited are among the writes of services, and one is when there is one. -/
theorem serviceHits_spec (lower : String → String) (events : List TraceEvent) :
    ∃ chosen, serviceHits lower events = chosen.map TraceEvent.eventId ∧
      chosen.Sublist (events.filter (isServiceWrite lower)) ∧
      (events.filter (isServiceWrite lower) ≠ [] → chosen ≠ []) := by
  have hfold : ∀ (events : List TraceEvent) acc, ∃ chosen,
      (events.foldl (serviceStep lower) acc).2 = acc.2 ++ chosen.map TraceEvent.eventId ∧
        chosen.Sublist (events.filter (isServiceWrite lower)) ∧
        (acc.1 = [] → events.filter (isServiceWrite lower) ≠ [] → chosen ≠ []) := by
    intro events
    induction events with
    | nil => exact fun acc => ⟨[], by simp, by simp, fun _ h => h⟩
    | cons event events ih =>
      intro acc
      obtain ⟨chosen, heq, hsub, hne⟩ := ih (serviceStep lower acc event)
      rw [List.foldl_cons, heq]
      by_cases hwrite : isServiceWrite lower event = true
      · rw [List.filter_cons_of_pos hwrite]
        by_cases hseen : acc.1.contains (serviceName lower event) = true
        · refine ⟨chosen, by simp only [serviceStep, hwrite, hseen]; rfl, hsub.cons _, ?_⟩
          intro hnil
          rw [hnil] at hseen
          exact absurd hseen (by simp)
        · refine ⟨event :: chosen, ?_, hsub.cons_cons _, fun _ _ => List.cons_ne_nil _ _⟩
          rw [serviceStep, if_pos (by rw [hwrite, Bool.eq_false_iff.mpr hseen]; rfl),
            List.append_assoc]
          rfl
      · rw [List.filter_cons_of_neg hwrite]
        have hstep : serviceStep lower acc event = acc := by simp [serviceStep, hwrite]
        rw [hstep] at hne ⊢
        exact ⟨chosen, rfl, hsub, hne⟩
  obtain ⟨chosen, heq, hsub, hne⟩ := hfold events ([], [])
  exact ⟨chosen, heq, hsub, hne rfl⟩

theorem detectServiceCreation_cites (hids : (events.map TraceEvent.eventId).Nodup) :
    ∃ chosen, (detectServiceCreation lower).Cites events chosen := by
  obtain ⟨chosen, heq, hsub, hne⟩ := serviceHits_spec lower events
  refine ⟨chosen, heq, fun event hevent => (List.mem_filter.mp (hsub.subset hevent)).1,
    hids.sublist ((hsub.trans List.filter_sublist).map _), fun hchosen found hfound hnil => ?_⟩
  obtain ⟨chosen', heq', -, hne'⟩ := serviceHits_spec lower found
  obtain ⟨event, hevent⟩ := List.exists_mem_of_ne_nil _ hchosen
  have hmem : event ∈ found.filter (isServiceWrite lower) :=
    List.mem_filter.mpr ⟨(hfound event).mpr hevent, (List.mem_filter.mp (hsub.subset hevent)).2⟩
  exact hne' (List.ne_nil_of_mem hmem) (List.map_eq_nil_iff.mp (heq'.symm.trans hnil))

theorem not_isTempWrite_of_isNetworkSend (h : isNetworkSend event = true) :
    isTempWrite lower event = false := by
  rw [isNetworkSend, Bool.or_eq_true, decide_eq_true_iff, decide_eq_true_iff] at h
  rw [isTempWrite, Bool.and_eq_false_iff, decide_eq_false_iff_not]
  refine .inl fun hwrite => ?_
  rw [hwrite] at h
  rcases h with h | h <;> cases h

section Staging

/-- The writes, then the sends. -/
def staged (lower : String → String) (events : List TraceEvent) : List TraceEvent :=
  events.filter (isTempWrite lower) ++ events.filter isNetworkSend

theorem exfilHits_eq (hwrites : events.filter (isTempWrite lower) ≠ [])
    (hsends : events.filter isNetworkSend ≠ []) :
    exfilHits lower events = ((staged lower events).take 8).map TraceEvent.eventId := by
  rw [exfilHits, if_neg (not_or.mpr ⟨hwrites, hsends⟩)]
  rfl

theorem exfilHits_ne_nil_iff : exfilHits lower events ≠ [] ↔
    (∃ write ∈ events, isTempWrite lower write = true) ∧
      ∃ send ∈ events, isNetworkSend send = true := by
  have hfilter : ∀ p : TraceEvent → Bool, events.filter p ≠ [] ↔ ∃ e ∈ events, p e = true := by
    simp
  rw [← hfilter, ← hfilter]
  by_cases hnil : events.filter (isTempWrite lower) = [] ∨ events.filter isNetworkSend = []
  · rw [exfilHits, if_pos hnil]
    exact iff_of_false (not_not.mpr rfl) (not_and_or.mpr (hnil.imp not_not.mpr not_not.mpr))
  · rw [not_or] at hnil
    refine iff_of_true ?_ hnil
    rw [exfilHits_eq hnil.1 hnil.2]
    simp [staged, hnil.1]

theorem mem_staged : event ∈ staged lower events ↔
    event ∈ events ∧ (isTempWrite lower event = true ∨ isNetworkSend event = true) := by
  rw [staged, List.mem_append, List.mem_filter, List.mem_filter, and_or_left]

theorem nodup_staged (hids : (events.map TraceEvent.eventId).Nodup) :
    ((staged lower events).map TraceEvent.eventId).Nodup := by
  rw [staged, List.map_append, List.nodup_append]
  refine ⟨hids.sublist (List.filter_sublist.map _), hids.sublist (List.filter_sublist.map _), ?_⟩
  intro id hwrite id' hsend heq
  obtain ⟨write, hw, rfl⟩ := List.mem_map.mp hwrite
  obtain ⟨send, hs, rfl⟩ := List.mem_map.mp hsend
  rw [List.mem_filter] at hw hs
  obtain rfl := List.inj_on_of_nodup_map hids hw.1 hs.1 heq
  exact absurd hw.2 (by rw [not_isTempWrite_of_isNetworkSend hs.2]; exact Bool.false_ne_true)

/-- The first eight have both a write and a send when there are at most seven writes. -/
theorem take_staged_iff (hwrites : events.filter (isTempWrite lower) ≠ [])
    (hsends : events.filter isNetworkSend ≠ []) :
    ((∃ write ∈ (staged lower events).take 8, isTempWrite lower write = true) ∧
        ∃ send ∈ (staged lower events).take 8, isNetworkSend send = true) ↔
      (events.filter (isTempWrite lower)).length ≤ 7 := by
  constructor
  · rintro ⟨-, send, hsend, hs⟩
    by_contra hlong
    rw [staged, List.take_append_of_le_length (by omega)] at hsend
    have hwrite := (List.mem_filter.mp (List.mem_of_mem_take hsend)).2
    rw [not_isTempWrite_of_isNetworkSend hs] at hwrite
    exact Bool.false_ne_true hwrite
  · intro hshort
    obtain ⟨write, hwrite⟩ := List.exists_mem_of_ne_nil _ hwrites
    obtain ⟨send, sends, hsend⟩ := List.exists_cons_of_ne_nil hsends
    have htake : (staged lower events).take 8 = events.filter (isTempWrite lower) ++
        send :: sends.take (7 - (events.filter (isTempWrite lower)).length) := by
      rw [staged, List.take_append, List.take_of_length_le (by omega), hsend,
        show 8 - (events.filter (isTempWrite lower)).length =
          7 - (events.filter (isTempWrite lower)).length + 1 by omega, List.take_succ_cons]
    rw [htake]
    have hmem : send ∈ events.filter isNetworkSend := hsend ▸ List.mem_cons_self
    exact ⟨⟨write, List.mem_append_left _ hwrite, (List.mem_filter.mp hwrite).2⟩,
      send, List.mem_append_right _ List.mem_cons_self, (List.mem_filter.mp hmem).2⟩

end Staging

theorem supported_iff (hd : d ∈ detectors lower)
    (hhits : d.hits events = chosen.map TraceEvent.eventId)
    (hmem : ∀ event ∈ chosen, event ∈ events) (hnodup : (chosen.map TraceEvent.eventId).Nodup)
    (n : Nat) : Supported lower runId events loss (d.fact runId events loss n) ↔
      d.hits (events.filter fun e => (chosen.map TraceEvent.eventId).contains e.eventId) ≠ [] ∧
        (d.category = "exfil_staging" → WriteBeforeSend lower events) := by
  have hevidence : (d.fact runId events loss n).evidence = chosen.map TraceEvent.eventId := hhits
  have hcited : citedEvents events (d.fact runId events loss n) =
      events.filter fun e => (chosen.map TraceEvent.eventId).contains e.eventId := by
    rw [citedEvents, hevidence]
  rw [← hcited, ← exists_category_iff hd]
  constructor
  · exact fun h => ⟨h.again, h.staged⟩
  · rintro ⟨hagain, hstaged⟩
    refine ⟨fun id hid => ?_, hevidence ▸ hnodup, hagain, hstaged⟩
    rw [hevidence] at hid
    obtain ⟨event, hevent, rfl⟩ := List.mem_map.mp hid
    exact List.mem_map_of_mem (hmem event hevent)

theorem supported_of_cites (hids : (events.map TraceEvent.eventId).Nodup)
    (hd : d ∈ detectors lower) (hcites : d.Cites events chosen) (hhits : d.hits events ≠ [])
    (hcategory : d.category ≠ "exfil_staging") (n : Nat) :
    Supported lower runId events loss (d.fact runId events loss n) := by
  refine (supported_iff hd hcites.hits_eq hcites.mem hcites.nodup n).mpr
    ⟨hcites.again (fun hnil => hhits ?_) _ fun event => mem_filter_ids hids hcites.mem,
      fun h => absurd h hcategory⟩
  rw [hcites.hits_eq, hnil, List.map_nil]

theorem mem_detectors_staging (lower : String → String) :
    detectExfilStaging lower ∈ detectors lower := by
  simp [detectors]

theorem supported_staging_iff (hids : (events.map TraceEvent.eventId).Nodup)
    (hwrites : events.filter (isTempWrite lower) ≠ [])
    (hsends : events.filter isNetworkSend ≠ []) (n : Nat) :
    Supported lower runId events loss ((detectExfilStaging lower).fact runId events loss n) ↔
      (events.filter (isTempWrite lower)).length ≤ 7 ∧ WriteBeforeSend lower events := by
  have hmem : ∀ event ∈ (staged lower events).take 8, event ∈ events :=
    fun event hevent => (mem_staged.mp (List.mem_of_mem_take hevent)).1
  rw [supported_iff (mem_detectors_staging lower) (exfilHits_eq hwrites hsends) hmem
    ((nodup_staged hids).sublist ((List.take_sublist _ _).map _)) n]
  refine and_congr ?_ (forall_prop_of_true rfl)
  have hfound := fun event => @mem_filter_ids _ _ event hids hmem
  exact exfilHits_ne_nil_iff.trans (((and_congr (exists_congr fun event =>
    and_congr_left' (hfound event)) (exists_congr fun event =>
      and_congr_left' (hfound event)))).trans (take_staged_iff hwrites hsends))

end Facts

theorem extractFacts_supported_iff (lower : String → String) (runId : String) (loss : LossMeta)
    {events : List TraceEvent} (hids : (events.map TraceEvent.eventId).Nodup) :
    (∀ fact ∈ extractFacts lower runId events loss, Supported lower runId events loss fact) ↔
      StagingFits lower events := by
  constructor
  · intro h
    by_cases hwrites : events.filter (isTempWrite lower) = []
    · exact .inl hwrites
    by_cases hsends : events.filter isNetworkSend = []
    · exact .inr (.inl hsends)
    have hhits : exfilHits lower events ≠ [] := by
      rw [exfilHits_eq hwrites hsends]
      simp [staged, hwrites]
    obtain ⟨n, hfact⟩ := exists_fact (mem_detectors_staging lower) hhits
    exact .inr (.inr ((supported_staging_iff hids hwrites hsends n).mp (h _ hfact)))
  · intro h fact hfact
    obtain ⟨d, hd, hhits, n, rfl⟩ := detector_of_mem hfact
    have hcases := hd
    simp only [detectors, List.mem_cons, List.not_mem_nil, or_false] at hcases
    rcases hcases with rfl | rfl | rfl | rfl | rfl | rfl
    · exact supported_of_cites hids hd (filterDetector_cites hids ..) hhits
        (show "persistence" ≠ _ by decide) n
    · exact supported_of_cites hids hd (filterDetector_cites hids ..) hhits
        (show "defense_evasion" ≠ _ by decide) n
    · have hne : events.filter (isTempWrite lower) ≠ [] ∧ events.filter isNetworkSend ≠ [] := by
        refine not_or.mp fun hnil => hhits ?_
        change exfilHits lower events = []
        rw [exfilHits, if_pos hnil]
      refine (supported_staging_iff hids hne.1 hne.2 n).mpr ?_
      exact (h.resolve_left hne.1).resolve_left hne.2
    · exact supported_of_cites hids hd (filterDetector_cites hids ..) hhits
        (show "discovery" ≠ _ by decide) n
    · obtain ⟨chosen, hcites⟩ := @detectServiceCreation_cites lower events hids
      exact supported_of_cites hids hd hcites hhits
        (show "service_creation" ≠ _ by decide) n
    · exact supported_of_cites hids hd (filterDetector_cites hids ..) hhits
        (show "browser_credential_access" ≠ _ by decide) n

def tempWrite (id : String) (tsNs : BitVec 64) : TraceEvent :=
  ⟨id, tsNs, 4210, none, .fileWrite, "op", ⟨.process, "proc:4210@t", none⟩,
    some ⟨.file, "file:c:\\temp\\x", none⟩, []⟩

def networkSend (id : String) (tsNs : BitVec 64) : TraceEvent :=
  ⟨id, tsNs, 4210, none, .networkSend, "op", ⟨.process, "proc:4210@t", none⟩,
    some ⟨.socket, "sock:0.0.0.0:0->1.2.3.4:80", none⟩, []⟩

/-- A send, then a write and the upload of what was written. -/
def upload : List TraceEvent :=
  [networkSend "evt_1" 100, tempWrite "evt_2" 200, networkSend "evt_3" 300]

theorem extractFacts_supported_iff_upload :
    (extractFacts id "run" upload ⟨0⟩).length = 1 ∧
      ∀ fact ∈ extractFacts id "run" upload ⟨0⟩, Supported id "run" upload ⟨0⟩ fact := by
  refine ⟨by decide, (extractFacts_supported_iff id "run" ⟨0⟩ (by decide)).mpr ?_⟩
  refine .inr (.inr ⟨by decide, tempWrite "evt_2" 200, networkSend "evt_3" 300, ?_⟩)
  exact ⟨List.sublist_cons_self .., by decide⟩

/-- A send that no write comes before. -/
theorem earlySend_unsupported :
    ¬ ∀ fact ∈ extractFacts id "run" [networkSend "evt_1" 100, tempWrite "evt_2" 200] ⟨0⟩,
      Supported id "run" [networkSend "evt_1" 100, tempWrite "evt_2" 200] ⟨0⟩ fact := by
  intro h
  have hhits : (detectExfilStaging id).hits
      [networkSend "evt_1" 100, tempWrite "evt_2" 200] ≠ [] := by
    decide
  obtain ⟨n, hfact⟩ := exists_fact (mem_detectors_staging id) hhits
  obtain ⟨write, send, hsub, hwrite, -⟩ := (h _ hfact).staged rfl
  have heq := hsub.eq_of_length rfl
  rw [(List.cons.inj heq).1] at hwrite
  exact absurd hwrite (by decide)

end Axe.Trace
