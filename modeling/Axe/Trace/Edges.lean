import Mathlib.Data.List.Induction
import Mathlib.Data.Prod.Lex
import Mathlib.Data.String.Basic
import Axe.Lib.OrderedMap
import Axe.Trace.Event

/-!
# Summaries of edges

Two accumulators summarize the observations of an edge. The store keeps the first and the last
timestamp to come in, as signed numbers, and the entity graph the least and the greatest.
-/
namespace Axe.Trace

/-- The primary key of the edges: source, destination and type. -/
abbrev EdgeKey := String ×ₗ String ×ₗ String

structure Observation where
  src : String
  dst : String
  edgeType : String
  tsNs : BitVec 64
  eventId : String
  deriving DecidableEq

def edgeKey (src dst edgeType : String) : EdgeKey := toLex (src, toLex (dst, edgeType))

def Observation.key (o : Observation) : EdgeKey := edgeKey o.src o.dst o.edgeType

/-- The columns of a row besides its key. -/
structure EdgeRow where
  firstTsNs : Int
  lastTsNs : Int
  count : Int
  eventRefs : List String
  deriving DecidableEq

def capRefs (refs : List String) : List String := refs.drop (refs.length - 128)

def upsertRow (o : Observation) : Option EdgeRow → EdgeRow
  | some row =>
    { row with
      lastTsNs := o.tsNs.toInt
      count := row.count + 1
      eventRefs := capRefs (row.eventRefs ++ [o.eventId]) }
  | none => ⟨o.tsNs.toInt, o.tsNs.toInt, 1, [o.eventId]⟩

def upsertEdge (edges : OrderedMap EdgeKey EdgeRow) (o : Observation) :
    OrderedMap EdgeKey EdgeRow :=
  edges.upsert o.key (upsertRow o)

def upsertEdges (observations : List Observation) : OrderedMap EdgeKey EdgeRow :=
  observations.foldl upsertEdge .empty

structure EntityNode where
  id : String
  kind : String
  name : Option String
  deriving DecidableEq

structure EntityEdge where
  fromId : String
  toId : String
  edgeType : String
  firstTsNs : BitVec 64
  lastTsNs : BitVec 64
  count : Nat
  eventRefs : List String
  deriving DecidableEq

structure EntityGraph where
  nodes : OrderedMap String EntityNode
  edges : OrderedMap EdgeKey EntityEdge

def insertNode (nodes : OrderedMap String EntityNode) (e : EntityRef) :
    OrderedMap String EntityNode :=
  nodes.upsert e.id fun old => old.getD ⟨e.id, e.kind.name, e.name⟩

def addEvent (event : TraceEvent) (obj : EntityRef) (old : Option EntityEdge) : EntityEdge :=
  let entry := old.getD
    ⟨event.subject.id, obj.id, event.operation, event.tsNs, event.tsNs, 0, []⟩
  { entry with
    lastTsNs := if entry.lastTsNs ≤ event.tsNs then event.tsNs else entry.lastTsNs
    firstTsNs := if event.tsNs ≤ entry.firstTsNs then event.tsNs else entry.firstTsNs
    count := entry.count + 1
    eventRefs := if entry.eventRefs.length < 32 then entry.eventRefs ++ [event.eventId]
      else entry.eventRefs }

def graphStep (graph : EntityGraph) (event : TraceEvent) : EntityGraph :=
  let nodes := insertNode graph.nodes event.subject
  match event.object with
  | none => { graph with nodes := nodes }
  | some obj =>
    ⟨insertNode nodes obj, graph.edges.upsert (edgeKey event.subject.id obj.id event.operation)
      (addEvent event obj)⟩

def entityGraph (events : List TraceEvent) : EntityGraph :=
  events.foldl graphStep ⟨.empty, .empty⟩

/-- What an event tells of an edge. -/
def TraceEvent.observation (event : TraceEvent) : Option Observation :=
  event.object.map fun obj =>
    ⟨event.subject.id, obj.id, event.operation, event.tsNs, event.eventId⟩

/-- The timestamps of an edge. -/
def timesOf (key : EdgeKey) (observations : List Observation) : List Nat :=
  (observations.filter fun o => o.key = key).map fun o => o.tsNs.toNat

/-- The least and the greatest of some timestamps, and how many there are. -/
structure Summary (times : List Nat) (first last count : Int) : Prop where
  first_mem : ∃ t ∈ times, (t : Int) = first
  first_le : ∀ t ∈ times, first ≤ t
  last_mem : ∃ t ∈ times, (t : Int) = last
  le_last : ∀ t ∈ times, (t : Int) ≤ last
  count_eq : count = times.length

section Summary
variable {times times' : List Nat} {first last count first' last' count' : Int}

theorem Summary.unique (h : Summary times first last count)
    (h' : Summary times first' last' count') : first = first' ∧ last = last' ∧ count = count' := by
  obtain ⟨t₁, ht₁, rfl⟩ := h.first_mem
  obtain ⟨t₂, ht₂, rfl⟩ := h.last_mem
  obtain ⟨t₃, ht₃, rfl⟩ := h'.first_mem
  obtain ⟨t₄, ht₄, rfl⟩ := h'.last_mem
  exact ⟨le_antisymm (h.first_le _ ht₃) (h'.first_le _ ht₁),
    le_antisymm (h'.le_last _ ht₂) (h.le_last _ ht₄), h.count_eq.trans h'.count_eq.symm⟩

theorem Summary.perm (h : Summary times first last count) (hperm : times.Perm times') :
    Summary times' first last count := by
  obtain ⟨t₁, ht₁, heq₁⟩ := h.first_mem
  obtain ⟨t₂, ht₂, heq₂⟩ := h.last_mem
  exact ⟨⟨t₁, hperm.mem_iff.mp ht₁, heq₁⟩, fun t ht => h.first_le t (hperm.mem_iff.mpr ht),
    ⟨t₂, hperm.mem_iff.mp ht₂, heq₂⟩, fun t ht => h.le_last t (hperm.mem_iff.mpr ht),
    by rw [h.count_eq, hperm.length_eq]⟩

theorem summary_singleton (t : Nat) : Summary [t] t t 1 where
  first_mem := ⟨t, List.mem_singleton_self t, rfl⟩
  first_le := fun _ hu => by rw [List.mem_singleton.mp hu]
  last_mem := ⟨t, List.mem_singleton_self t, rfl⟩
  le_last := fun _ hu => by rw [List.mem_singleton.mp hu]
  count_eq := rfl

/-- One more timestamp. -/
theorem Summary.snoc (h : Summary times first last count) (t : Nat) :
    Summary (times ++ [t]) (min first t) (max last t) (count + 1) := by
  obtain ⟨t₁, ht₁, rfl⟩ := h.first_mem
  obtain ⟨t₂, ht₂, rfl⟩ := h.last_mem
  have hmem : ∀ u, u ∈ times ++ [t] ↔ u ∈ times ∨ u = t := fun u => by
    rw [List.mem_append, List.mem_singleton]
  refine ⟨?_, fun u hu => ?_, ?_, fun u hu => ?_, ?_⟩
  · rcases le_total t₁ t with hle | hle
    · exact ⟨t₁, (hmem _).mpr (.inl ht₁), by omega⟩
    · exact ⟨t, (hmem _).mpr (.inr rfl), by omega⟩
  · rcases (hmem u).mp hu with hu | rfl
    · exact le_trans (min_le_left _ _) (h.first_le u hu)
    · exact min_le_right _ _
  · rcases le_total t₂ t with hle | hle
    · exact ⟨t, (hmem _).mpr (.inr rfl), by omega⟩
    · exact ⟨t₂, (hmem _).mpr (.inl ht₂), by omega⟩
  · rcases (hmem u).mp hu with hu | rfl
    · exact le_trans (h.le_last u hu) (le_max_left _ _)
    · exact le_max_right _ _
  · rw [h.count_eq, List.length_append, List.length_singleton]
    exact (Int.natCast_succ _).symm

end Summary

/-- The first timestamp to come in is the least, the last the greatest, and it fits a signed
number. -/
def InOrder (times : List Nat) : Prop :=
  ∀ first ∈ times.head?, ∀ last ∈ times.getLast?,
    last < 2 ^ 63 ∧ ∀ t ∈ times, first ≤ t ∧ t ≤ last

/-- There is a row for an edge that was observed, it summarizes the observations, and the graph
has the same summary. -/
def SummarizedAt (observations : List Observation) (events : List TraceEvent) (key : EdgeKey) :
    Prop :=
  ((∃ row, (upsertEdges observations).get key = some row) ↔ ∃ o ∈ observations, o.key = key) ∧
    ∀ row, (upsertEdges observations).get key = some row →
      Summary (timesOf key observations) row.firstTsNs row.lastTsNs row.count ∧
      ∃ edge, (entityGraph events).edges.get key = some edge ∧
        row.firstTsNs = edge.firstTsNs.toNat ∧ row.lastTsNs = edge.lastTsNs.toNat ∧
        row.count = edge.count

section Rows
variable {o : Observation} {observations rest : List Observation} {row : EdgeRow}

theorem upsertEdges_get (observations : List Observation) (key : EdgeKey) :
    (upsertEdges observations).get key =
      (observations.filter fun o => o.key = key).foldl (fun row o => some (upsertRow o row))
        none :=
  OrderedMap.get_foldl_upsert Observation.key upsertRow observations

/-- A row keeps its first timestamp and takes the last one to come in. -/
theorem foldl_upsertRow (rest : List Observation) (row : EdgeRow) :
    ∃ row', rest.foldl (fun row o => some (upsertRow o row)) (some row) = some row' ∧
      row'.firstTsNs = row.firstTsNs ∧
      row'.lastTsNs = (rest.getLast?.map fun o => o.tsNs.toInt).getD row.lastTsNs ∧
      row'.count = row.count + rest.length := by
  induction rest using List.reverseRecOn with
  | nil => exact ⟨row, rfl, rfl, rfl, (Int.add_zero _).symm⟩
  | append_singleton rest o ih =>
    obtain ⟨row', hrow, hfirst, -, hcount⟩ := ih
    refine ⟨upsertRow o (some row'), ?_, hfirst, ?_, ?_⟩
    · rw [List.foldl_append, hrow, List.foldl_cons, List.foldl_nil]
    · rw [List.getLast?_concat]
      rfl
    · rw [List.length_append, List.length_singleton]
      change row'.count + 1 = _
      omega

theorem foldl_upsertRow_cons (o : Observation) (rest : List Observation) :
    ∃ row, (o :: rest).foldl (fun row o => some (upsertRow o row)) none = some row ∧
      row.firstTsNs = o.tsNs.toInt ∧
      row.lastTsNs = ((o :: rest).getLast (List.cons_ne_nil _ _)).tsNs.toInt ∧
      row.count = (o :: rest).length := by
  obtain ⟨row, hrow, hfirst, hlast, hcount⟩ := foldl_upsertRow rest (upsertRow o none)
  refine ⟨row, hrow, hfirst, ?_, ?_⟩
  · rw [hlast]
    cases rest with
    | nil => rfl
    | cons o' rest =>
      rw [List.getLast?_eq_some_getLast (List.cons_ne_nil _ _),
        List.getLast_cons (List.cons_ne_nil _ _)]
      rfl
  · rw [hcount, List.length_cons]
    change (1 : Int) + _ = _
    omega

theorem toInt_nonneg {t : BitVec 64} (h : 0 ≤ t.toInt) : t.toInt = t.toNat ∧ t.toNat < 2 ^ 63 := by
  rw [BitVec.toInt_eq_toNat_cond] at h ⊢
  have := t.isLt
  split at h <;> omega

theorem toInt_of_lt {t : BitVec 64} (h : t.toNat < 2 ^ 63) : t.toInt = t.toNat := by
  rw [BitVec.toInt_eq_toNat_cond, if_pos (by omega)]

end Rows

section Graph
variable {events : List TraceEvent} {graph : EntityGraph}

def TraceEvent.withObject (event : TraceEvent) : Option (TraceEvent × EntityRef) :=
  event.object.map fun obj => (event, obj)

def observationOf (p : TraceEvent × EntityRef) : Observation :=
  ⟨p.1.subject.id, p.2.id, p.1.operation, p.1.tsNs, p.1.eventId⟩

theorem filterMap_observation (events : List TraceEvent) :
    events.filterMap TraceEvent.observation =
      (events.filterMap TraceEvent.withObject).map observationOf := by
  rw [List.map_filterMap]
  refine congrArg (List.filterMap · events) (funext fun event => ?_)
  rw [TraceEvent.withObject, Option.map_map]
  rfl

theorem foldl_graphStep_edges (events : List TraceEvent) (graph : EntityGraph) :
    (events.foldl graphStep graph).edges =
      (events.filterMap TraceEvent.withObject).foldl
        (fun edges p => edges.upsert (observationOf p).key (addEvent p.1 p.2)) graph.edges := by
  induction events generalizing graph with
  | nil => rfl
  | cons event events ih =>
    rw [List.foldl_cons, ih, List.filterMap_cons]
    cases hobj : event.object with
    | none => simp only [graphStep, TraceEvent.withObject, hobj, Option.map_none]
    | some obj =>
      simp only [graphStep, TraceEvent.withObject, hobj, Option.map_some, List.foldl_cons]
      rfl

theorem entityGraph_get (events : List TraceEvent) (key : EdgeKey) :
    (entityGraph events).edges.get key =
      ((events.filterMap TraceEvent.withObject).filter fun p => (observationOf p).key = key).foldl
        (fun edge p => some (addEvent p.1 p.2 edge)) none := by
  rw [entityGraph, foldl_graphStep_edges]
  exact OrderedMap.get_foldl_upsert (fun p => (observationOf p).key) (fun p => addEvent p.1 p.2) _

/-- The edge of the graph summarizes its events, in whatever order they come. -/
theorem foldl_addEvent (ps : List (TraceEvent × EntityRef)) (h : ps ≠ []) :
    ∃ edge, ps.foldl (fun edge p => some (addEvent p.1 p.2 edge)) none = some edge ∧
      Summary (ps.map fun p => p.1.tsNs.toNat) edge.firstTsNs.toNat edge.lastTsNs.toNat
        edge.count := by
  induction ps using List.reverseRecOn with
  | nil => exact absurd rfl h
  | append_singleton ps p ih =>
    rw [List.foldl_append, List.map_append]
    rcases eq_or_ne ps [] with rfl | hne
    · refine ⟨addEvent p.1 p.2 none, rfl, ?_⟩
      simp only [addEvent, Option.getD_none, ite_self]
      exact summary_singleton _
    · obtain ⟨edge, hedge, hsum⟩ := ih hne
      refine ⟨addEvent p.1 p.2 (some edge), by rw [hedge]; rfl, ?_⟩
      have hfirst : ((addEvent p.1 p.2 (some edge)).firstTsNs.toNat : Int) =
          min (edge.firstTsNs.toNat : Int) p.1.tsNs.toNat := by
        simp only [addEvent, Option.getD_some, BitVec.le_def]
        split <;> omega
      have hlast : ((addEvent p.1 p.2 (some edge)).lastTsNs.toNat : Int) =
          max (edge.lastTsNs.toNat : Int) p.1.tsNs.toNat := by
        simp only [addEvent, Option.getD_some, BitVec.le_def]
        split <;> omega
      rw [hfirst, hlast]
      exact hsum.snoc _

end Graph

section Main
variable {observations : List Observation} {events : List TraceEvent} {key : EdgeKey}

theorem timesOf_perm {observations' : List Observation} (h : observations.Perm observations') :
    (timesOf key observations).Perm (timesOf key observations') :=
  (h.filter _).map _

theorem timesOf_events :
    timesOf key (events.filterMap TraceEvent.observation) =
      ((events.filterMap TraceEvent.withObject).filter fun p => (observationOf p).key = key).map
        fun p => p.1.tsNs.toNat := by
  rw [timesOf, filterMap_observation, List.filter_map, List.map_map]
  rfl

/-- The graph has the edge of observations, with their summary. -/
theorem entityGraph_summary (hsame : (events.filterMap TraceEvent.observation).Perm observations)
    (hne : timesOf key observations ≠ []) :
    ∃ edge, (entityGraph events).edges.get key = some edge ∧
      Summary (timesOf key observations) edge.firstTsNs.toNat edge.lastTsNs.toNat edge.count := by
  have hperm : (timesOf key _).Perm (timesOf key _) := timesOf_perm hsame
  rw [timesOf_events] at hperm
  have hps : ((events.filterMap TraceEvent.withObject).filter
      fun p => (observationOf p).key = key) ≠ [] := by
    intro hnil
    rw [hnil] at hperm
    exact hne hperm.nil_eq.symm
  obtain ⟨edge, hedge, hsum⟩ := foldl_addEvent _ hps
  exact ⟨edge, (entityGraph_get events key).trans hedge, hsum.perm hperm⟩

/-- The first and the last timestamp, as signed numbers, summarize those that come in order. -/
theorem summary_iff_inOrder (o : Observation) (rest : List Observation) :
    Summary ((o :: rest).map fun o => o.tsNs.toNat) o.tsNs.toInt
        ((o :: rest).getLast (List.cons_ne_nil _ _)).tsNs.toInt (o :: rest).length ↔
      InOrder ((o :: rest).map fun o => o.tsNs.toNat) := by
  have hlast : ((o :: rest).map fun o => o.tsNs.toNat).getLast? =
      some ((o :: rest).getLast (List.cons_ne_nil _ _)).tsNs.toNat := by
    rw [List.getLast?_map, List.getLast?_eq_some_getLast (List.cons_ne_nil _ _)]
    rfl
  have hfirst : o.tsNs.toNat ∈ (o :: rest).map fun o => o.tsNs.toNat :=
    List.mem_map_of_mem (f := fun o : Observation => o.tsNs.toNat) List.mem_cons_self
  constructor
  · intro h first hf last hl
    have hf : o.tsNs.toNat = first := Option.some.inj hf
    obtain rfl := Option.some.inj (hlast.symm.trans hl)
    obtain ⟨t₁, -, ht₁⟩ := h.first_mem
    obtain ⟨t₂, -, ht₂⟩ := h.last_mem
    obtain ⟨hfeq, -⟩ := toInt_nonneg (ht₁ ▸ Int.natCast_nonneg t₁)
    obtain ⟨hleq, hlt⟩ := toInt_nonneg (ht₂ ▸ Int.natCast_nonneg t₂)
    refine ⟨hlt, fun t ht => ⟨?_, ?_⟩⟩
    · have hle := h.first_le t ht
      omega
    · have hle := h.le_last t ht
      omega
  · intro h
    obtain ⟨hlt, hall⟩ := h _ rfl _ hlast
    have hle := (hall _ hfirst).2
    rw [toInt_of_lt hlt, toInt_of_lt (lt_of_le_of_lt hle hlt)]
    exact ⟨⟨_, hfirst, rfl⟩, fun t ht => Int.ofNat_le.mpr (hall t ht).1,
      ⟨_, List.mem_of_getLast? hlast, rfl⟩, fun t ht => Int.ofNat_le.mpr (hall t ht).2,
      by rw [List.length_map]⟩

theorem upsertEdges_summary_iff
    (hsame : (events.filterMap TraceEvent.observation).Perm observations) :
    (∀ key, SummarizedAt observations events key) ↔
      ∀ key, InOrder (timesOf key observations) := by
  refine forall_congr' fun key => ?_
  have hget := upsertEdges_get observations key
  cases hkey : observations.filter fun o => o.key = key with
  | nil =>
    have hnone : ∀ o ∈ observations, o.key ≠ key := fun o ho heq =>
      List.not_mem_nil (hkey ▸ List.mem_filter.mpr ⟨ho, decide_eq_true heq⟩)
    rw [hkey, List.foldl_nil] at hget
    rw [SummarizedAt, hget, timesOf, hkey]
    refine iff_of_true ⟨iff_of_false (by simp) ?_, by simp⟩ (by simp [InOrder])
    rintro ⟨o, ho, heq⟩
    exact hnone o ho heq
  | cons o rest =>
    obtain ⟨row, hrow, hfirst, hlast, hcount⟩ := foldl_upsertRow_cons o rest
    rw [hkey, hrow] at hget
    have htimes : timesOf key observations = (o :: rest).map fun o => o.tsNs.toNat := by
      rw [timesOf, hkey]
    obtain ⟨edge, hedge, hsum⟩ := entityGraph_summary hsame
      (htimes ▸ List.cons_ne_nil (o.tsNs.toNat) _ : timesOf key observations ≠ [])
    rw [htimes, ← summary_iff_inOrder, ← hfirst, ← hlast, ← hcount, ← htimes]
    constructor
    · exact fun h => (h.2 row hget).1
    · intro h
      have ho : o ∈ observations.filter fun o => o.key = key := hkey ▸ List.mem_cons_self
      rw [List.mem_filter, decide_eq_true_iff] at ho
      refine ⟨iff_of_true ⟨row, hget⟩ ⟨o, ho⟩, fun row' hrow' => ?_⟩
      obtain rfl := Option.some.inj (hget.symm.trans hrow')
      exact ⟨h, edge, hedge, h.unique hsum⟩

end Main

def write (tsNs : BitVec 64) (eventId : String) : TraceEvent :=
  ⟨eventId, tsNs, 1, none, .fileWrite, "write", ⟨.process, "proc:1@t", none⟩,
    some ⟨.file, "file:/tmp/x", none⟩, []⟩

def writeObserved (tsNs : BitVec 64) (eventId : String) : Observation :=
  ⟨"proc:1@t", "file:/tmp/x", "write", tsNs, eventId⟩

theorem upsertEdges_summary_iff_writes :
    (∀ key, SummarizedAt [writeObserved 100 "evt_1", writeObserved 200 "evt_2"]
      [write 200 "evt_2", write 100 "evt_1"] key) ↔
      ∀ key, InOrder (timesOf key [writeObserved 100 "evt_1", writeObserved 200 "evt_2"]) :=
  upsertEdges_summary_iff (List.Perm.swap _ _ _)

/-- The later write comes in first. -/
theorem lateWrite_misplaced :
    ¬ SummarizedAt [writeObserved 200 "evt_2", writeObserved 100 "evt_1"]
      [write 200 "evt_2", write 100 "evt_1"] (edgeKey "proc:1@t" "file:/tmp/x" "write") := by
  rintro ⟨-, h⟩
  obtain ⟨hsum, -⟩ := h ⟨200, 100, 2, ["evt_2", "evt_1"]⟩ (by decide)
  exact absurd (hsum.first_le 100 (by decide)) (by decide)

end Axe.Trace
