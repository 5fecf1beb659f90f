import Axe.Lib.Runs
import Mathlib.Algebra.Order.Ring.Nat

/-!
# The session that drains the trace collector

The callbacks of the collector send events into a bounded channel and count those that do not
fit. The session takes them out until Ctrl-C, the deadline or the exit of the target, then stops
the collector, reads the counter and finishes `events.ndjson`. Callbacks run at any moment
between the start of the collector and the end of its `stop`. Left out are the SQLite store and
the ledger, which the events only pass by.
-/
namespace Axe.Trace

open Runs

def channelCapacity : Nat := 65536

def eventFlushEvery : Nat := 64

structure DynamicTraceOptions where
  duration : Option Nat
  hasTarget : Bool

/-- What comes next in the session. -/
inductive Phase where
  | starting
  | resuming
  /-- The handler is set and the store and the writer are opened. -/
  | opening
  | looping
  | receiving
  | checkingTarget
  /-- The target is gone and the grace period over. -/
  | draining
  | stopping
  | snapshotting
  | finalizing
  | reporting
  | returned (ok : Bool)
  deriving DecidableEq

/-- How a call ends; a write that fails has taken some bytes. -/
inductive Fate where
  | done
  | failed (taken : Nat)
  deriving DecidableEq

inductive Action (Event : Type) where
  /-- A callback tries to send an event. -/
  | offer (e : Event)
  | tick
  | ctrlC
  | targetExits
  /-- The session goes on. -/
  | proceed (fate : Fate)

/-- `bytes` are those taken over by the buffer or the file. -/
structure TraceEventWriter where
  bytes : List UInt8
  count : Nat
  sinceLastFlush : Nat
  bytesWritten : Nat

/-- A line of `events.ndjson`. -/
def record {Event : Type} (toVec : Event → List UInt8) (e : Event) : List UInt8 := toVec e ++ [10]

/-- A flush that fails has taken the whole record. -/
def TraceEventWriter.append (w : TraceEventWriter) (bytes : List UInt8) :
    Fate → TraceEventWriter
  | .done =>
    { bytes := w.bytes ++ bytes
      count := w.count + 1
      sinceLastFlush := if eventFlushEvery ≤ w.sinceLastFlush + 1 then 0 else w.sinceLastFlush + 1
      bytesWritten := w.bytesWritten + bytes.length }
  | .failed taken => { w with bytes := w.bytes ++ bytes.take taken }

/-- `offered` and `sent` record what the callbacks did; `eventsDropped` and `ndjson` are what the
session reports and leaves behind. -/
structure Session (Event : Type) where
  phase : Phase
  collecting : Bool
  now : Nat
  deadline : Option Nat
  stopFlag : Bool
  targetAlive : Bool
  queue : List Event
  drops : Nat
  writer : TraceEventWriter
  allEvents : List Event
  eventsDropped : Nat
  ndjson : List UInt8
  offered : List Event
  sent : List Event

namespace Session

variable {Event : Type}

def initial : Session Event where
  phase := .starting
  collecting := false
  now := 0
  deadline := none
  stopFlag := false
  targetAlive := true
  queue := []
  drops := 0
  writer := ⟨[], 0, 0, 0⟩
  allEvents := []
  eventsDropped := 0
  ndjson := []
  offered := []
  sent := []

/-- `try_send` in a callback. The channel is disconnected once the session returned. -/
def offer (s : Session Event) (e : Event) : Session Event :=
  match s.phase with
  | .returned _ => { s with offered := s.offered ++ [e] }
  | _ =>
    if s.queue.length < channelCapacity then
      { s with
        queue := s.queue ++ [e]
        offered := s.offered ++ [e]
        sent := s.sent ++ [e] }
    else
      { s with
        drops := (s.drops + 1) % 2 ^ 64
        offered := s.offered ++ [e] }

def expired (s : Session Event) : Bool :=
  match s.deadline with
  | some deadline => deadline ≤ s.now
  | none => false

/-- Takes an event out of the channel, or finds it empty. The result of `append` is ignored. -/
def receive (toVec : Event → List UInt8) (s : Session Event) (fate : Fate)
    (next empty : Phase) : Session Event :=
  match s.queue with
  | [] => { s with phase := empty }
  | e :: rest =>
    { s with
      phase := next
      queue := rest
      writer := s.writer.append (record toVec e) fate
      allEvents := s.allEvents ++ [e] }

def proceed (opts : DynamicTraceOptions) (toVec : Event → List UInt8) (s : Session Event)
    (fate : Fate) : Option (Session Event) :=
  match s.phase, fate with
  | .starting, .done => some { s with phase := .resuming, collecting := true }
  | .resuming, .done => some { s with phase := .opening }
  | .opening, .done =>
    some { s with phase := .looping, deadline := opts.duration.map (s.now + ·) }
  | .looping, .done =>
    some { s with phase := if s.stopFlag || s.expired then .stopping else .receiving }
  | .receiving, fate => some (s.receive toVec fate .looping .checkingTarget)
  | .checkingTarget, .done =>
    some { s with phase := if opts.hasTarget && !s.targetAlive then .draining else .looping }
  | .draining, fate => some (s.receive toVec fate .draining .stopping)
  | .stopping, .done => some { s with phase := .snapshotting, collecting := false }
  | .snapshotting, .done => some { s with phase := .finalizing, eventsDropped := s.drops }
  | .finalizing, .done => some { s with phase := .reporting, ndjson := s.writer.bytes }
  | .reporting, .done => some { s with phase := .returned true }
  | .returned _, _ => none
  -- Reading the clock, the flag or the counter does not fail.
  | .looping, .failed _ | .checkingTarget, .failed _ | .snapshotting, .failed _ => none
  | _, .failed _ => some { s with phase := .returned false }

def step (opts : DynamicTraceOptions) (toVec : Event → List UInt8) (s : Session Event) :
    Action Event → Option (Session Event)
  | .offer e => if s.collecting then some (s.offer e) else none
  | .tick => some { s with now := s.now + 1 }
  -- Before the handler is set, Ctrl-C ends the process.
  | .ctrlC =>
    if s.phase = .starting ∨ s.phase = .resuming then none else some { s with stopFlag := true }
  | .targetExits => some { s with targetAlive := false }
  | .proceed fate => s.proceed opts toVec fate

end Session

variable {Event : Type}

/-- Every event sent is kept and written, and the counter has all others. -/
structure Accounted (toVec : Event → List UInt8) (s : Session Event) : Prop where
  kept : s.allEvents = s.sent
  written : s.ndjson = s.sent.flatMap (record toVec)
  counted : s.sent.length + s.eventsDropped = s.offered.length
  complete : s.eventsDropped = 0 → s.allEvents = s.offered

/-- The channel is empty when `stop` has ended. -/
def StopsEmpty (s : Session Event) (a : Action Event) : Prop :=
  s.phase = .stopping → a = .proceed .done → s.queue = []

/-- `append` fails with the whole record taken if at all. -/
def WritesWhole (toVec : Event → List UInt8) (s : Session Event) (a : Action Event) : Prop :=
  s.phase = .receiving ∨ s.phase = .draining → ∀ taken, a = .proceed (.failed taken) →
    ∀ e, s.queue.head? = some e → (record toVec e).length ≤ taken

/-- A drop fits the counter. -/
def DropFits (s : Session Event) (a : Action Event) : Prop :=
  ∀ e, a = .offer e → channelCapacity ≤ s.queue.length → s.drops + 1 < 2 ^ 64

/-- Nothing is lost silently in a step. -/
def SafeStep (toVec : Event → List UInt8) (s : Session Event) (a : Action Event) : Prop :=
  StopsEmpty s a ∧ WritesWhole toVec s a ∧ DropFits s a

end Axe.Trace
