import Axe.Trace.Session

/-!
# What a session accounts for

Callbacks, the clock, Ctrl-C, the target and the session take their steps in any order. A session
that ends well has lost no event silently just when each of its steps was safe: the channel was
empty at the end of `stop`, each append took its whole record and no drop overflowed the counter.
-/
namespace Axe.Trace

open Runs Session

variable {Event : Type} {opts : DynamicTraceOptions} {toVec : Event → List UInt8}
  {s s' : Session Event} {a : Action Event} {actions : List (Action Event)}

/-- The collector has been stopped. -/
def Phase.isOver : Phase → Bool
  | snapshotting | finalizing | reporting | returned _ => true
  | _ => false

/-- What a step can do that does not end the session with an error. -/
inductive StepSpec (toVec : Event → List UInt8) (s : Session Event) :
    Action Event → Session Event → Prop
  | sent {e : Event} (hcollecting : s.collecting = true) (hroom : s.queue.length < channelCapacity) :
    StepSpec toVec s (.offer e)
      { s with queue := s.queue ++ [e], offered := s.offered ++ [e], sent := s.sent ++ [e] }
  | dropped {e : Event} (hcollecting : s.collecting = true)
    (hfull : channelCapacity ≤ s.queue.length) :
    StepSpec toVec s (.offer e)
      { s with drops := (s.drops + 1) % 2 ^ 64, offered := s.offered ++ [e] }
  | outside {a : Action Event} {now : Nat} {stopFlag targetAlive : Bool}
    (hoffer : ∀ e, a ≠ .offer e) (hproceed : ∀ fate, a ≠ .proceed fate) :
    StepSpec toVec s a { s with now := now, stopFlag := stopFlag, targetAlive := targetAlive }
  | moved {fate : Fate} {phase : Phase} {collecting : Bool} {deadline : Option Nat}
    (hphase : s.phase.isOver = false) (hstopping : s.phase ≠ .stopping)
    (hnext : phase.isOver = false)
    (hempty : s.phase = .receiving ∨ s.phase = .draining → s.queue = []) :
    StepSpec toVec s (.proceed fate)
      { s with phase := phase, collecting := collecting, deadline := deadline }
  | received {fate : Fate} {phase : Phase} {e : Event} {rest : List Event}
    (hphase : s.phase = .receiving ∨ s.phase = .draining) (hqueue : s.queue = e :: rest)
    (hnext : phase.isOver = false) :
    StepSpec toVec s (.proceed fate)
      { s with
        phase := phase
        queue := rest
        writer := s.writer.append (record toVec e) fate
        allEvents := s.allEvents ++ [e] }
  | stopped (hphase : s.phase = .stopping) :
    StepSpec toVec s (.proceed .done) { s with phase := .snapshotting, collecting := false }
  | snapshot (hphase : s.phase = .snapshotting) :
    StepSpec toVec s (.proceed .done) { s with phase := .finalizing, eventsDropped := s.drops }
  | finalized (hphase : s.phase = .finalizing) :
    StepSpec toVec s (.proceed .done) { s with phase := .reporting, ndjson := s.writer.bytes }
  | reported (hphase : s.phase = .reporting) :
    StepSpec toVec s (.proceed .done) { s with phase := .returned true }

/-- A state from which the session may still end well. -/
def Live (s : Session Event) : Prop := s.phase ≠ .returned false

/-- What holds before and after every step. -/
structure Consistent (toVec : Event → List UInt8) (s : Session Event) : Prop where
  halted : s.phase.isOver = true → s.collecting = false
  queued : s.sent = s.allEvents ++ s.queue
  sublist : s.sent.Sublist s.offered
  bytes : s.writer.bytes.length ≤ (s.allEvents.flatMap (record toVec)).length
  drops : s.sent.length + s.drops ≤ s.offered.length
  snapshot : s.phase = .finalizing ∨ s.phase = .reporting ∨ s.phase = .returned true →
    s.eventsDropped = s.drops
  ndjson : s.phase = .reporting ∨ s.phase = .returned true → s.ndjson = s.writer.bytes

theorem receive_spec {fate : Fate} {next empty : Phase}
    (hphase : s.phase = .receiving ∨ s.phase = .draining) (hnext : next.isOver = false)
    (hempty : empty.isOver = false) :
    StepSpec toVec s (.proceed fate) (s.receive toVec fate next empty) := by
  cases hqueue : s.queue with
  | nil =>
    have hreceive : s.receive toVec fate next empty = { s with phase := empty } := by
      simp only [receive, hqueue]
    rw [hreceive]
    refine .moved ?_ ?_ hempty fun _ => hqueue
    · rcases hphase with h | h <;> rw [h] <;> rfl
    · rcases hphase with h | h <;> rw [h] <;> nofun
  | cons e rest =>
    have hreceive : s.receive toVec fate next empty =
        { s with
          phase := next
          queue := rest
          writer := s.writer.append (record toVec e) fate
          allEvents := s.allEvents ++ [e] } := by
      simp only [receive, hqueue]
    rw [hreceive]
    exact .received hphase hqueue hnext

theorem move_spec {phase : Phase} (collecting : Bool) (deadline : Option Nat) {fate : Fate}
    (hphase : s.phase = .starting ∨ s.phase = .resuming ∨ s.phase = .opening ∨
      s.phase = .looping ∨ s.phase = .checkingTarget) (hnext : phase.isOver = false) :
    StepSpec toVec s (.proceed fate)
      { s with phase := phase, collecting := collecting, deadline := deadline } := by
  refine .moved ?_ ?_ hnext fun hreceives => ?_
  · rcases hphase with h | h | h | h | h <;> rw [h] <;> rfl
  · rcases hphase with h | h | h | h | h <;> rw [h] <;> nofun
  · exfalso
    rcases hphase with h | h | h | h | h <;> rw [h] at hreceives <;>
      exact hreceives.elim nofun nofun

theorem proceed_spec {fate : Fate} (h : s.proceed opts toVec fate = some s') (hlive : Live s') :
    StepSpec toVec s (.proceed fate) s' := by
  cases fate with
  | done =>
    cases hphase : s.phase <;> simp only [proceed, hphase, Option.some.injEq] at h
    case returned => cases h
    case starting => exact h ▸ move_spec true s.deadline (by simp [hphase]) rfl
    case resuming => exact h ▸ move_spec s.collecting s.deadline (by simp [hphase]) rfl
    case opening => exact h ▸ move_spec s.collecting _ (by simp [hphase]) rfl
    case looping =>
      exact h ▸ move_spec s.collecting s.deadline (by simp [hphase]) (by split <;> rfl)
    case receiving => exact h ▸ receive_spec (.inl hphase) rfl rfl
    case checkingTarget =>
      exact h ▸ move_spec s.collecting s.deadline (by simp [hphase]) (by split <;> rfl)
    case draining => exact h ▸ receive_spec (.inr hphase) rfl rfl
    case stopping => exact h ▸ .stopped hphase
    case snapshotting => exact h ▸ .snapshot hphase
    case finalizing => exact h ▸ .finalized hphase
    case reporting => exact h ▸ .reported hphase
  | failed taken =>
    cases hphase : s.phase <;> simp only [proceed, hphase, Option.some.injEq] at h
    case receiving => exact h ▸ receive_spec (.inl hphase) rfl rfl
    case draining => exact h ▸ receive_spec (.inr hphase) rfl rfl
    all_goals first | cases h; done | exact (hlive (h ▸ rfl)).elim

theorem step_spec (hhalted : s.phase.isOver = true → s.collecting = false)
    (h : step opts toVec s a = some s') (hlive : Live s') : StepSpec toVec s a s' := by
  cases a with
  | offer e =>
    simp only [step, Option.ite_none_right_eq_some, Option.some.injEq] at h
    obtain ⟨hcollecting, rfl⟩ := h
    have hnotOver : s.phase.isOver ≠ true := fun hover => by
      rw [hhalted hover] at hcollecting
      cases hcollecting
    have hoffer : s.offer e = if s.queue.length < channelCapacity then
        { s with queue := s.queue ++ [e], offered := s.offered ++ [e], sent := s.sent ++ [e] }
        else { s with drops := (s.drops + 1) % 2 ^ 64, offered := s.offered ++ [e] } := by
      cases hphase : s.phase <;> simp only [offer, hphase]
      exact (hnotOver (by rw [hphase]; rfl)).elim
    rw [hoffer]
    split
    · exact .sent hcollecting ‹_›
    · exact .dropped hcollecting (Nat.le_of_not_lt ‹_›)
  | tick =>
    cases h
    exact .outside nofun nofun
  | ctrlC =>
    simp only [step] at h
    split at h <;> cases h
    exact .outside nofun nofun
  | targetExits =>
    cases h
    exact .outside nofun nofun
  | proceed fate => exact proceed_spec h hlive

theorem live_of_step (h : step opts toVec s a = some s') (hlive : Live s') : Live s := by
  intro hphase
  cases a with
  | offer e =>
    simp only [step, Option.ite_none_right_eq_some, Option.some.injEq] at h
    obtain ⟨-, rfl⟩ := h
    rw [offer, hphase] at hlive
    exact hlive rfl
  | tick =>
    cases h
    exact hlive hphase
  | ctrlC =>
    simp only [step, hphase, reduceCtorEq, or_self, if_false, Option.some.injEq] at h
    subst h
    exact hlive rfl
  | targetExits =>
    cases h
    exact hlive hphase
  | proceed fate =>
    simp only [step, proceed, hphase] at h
    cases h

theorem length_append (w : TraceEventWriter) (bytes : List UInt8) (fate : Fate) :
    (w.append bytes fate).bytes.length ≤ w.bytes.length + bytes.length := by
  cases fate with
  | done => simp [TraceEventWriter.append]
  | failed taken => simp [TraceEventWriter.append]

theorem StepSpec.consistent (h : StepSpec toVec s a s') (hs : Consistent toVec s) :
    Consistent toVec s' := by
  cases h with
  | sent hcollecting hroom =>
    exact {
      halted := hs.halted
      queued := by simp only [hs.queued, List.append_assoc]
      sublist := hs.sublist.append (List.Sublist.refl _)
      bytes := hs.bytes
      drops := by simp only [List.length_append, List.length_singleton]; have := hs.drops; omega
      snapshot := hs.snapshot
      ndjson := hs.ndjson }
  | dropped hcollecting hfull =>
    have hdrops := hs.drops
    have hmod := Nat.mod_le (s.drops + 1) (2 ^ 64)
    exact {
      halted := hs.halted
      queued := hs.queued
      sublist := hs.sublist.trans (List.sublist_append_left _ _)
      bytes := hs.bytes
      drops := by simp only [List.length_append, List.length_singleton]; omega
      snapshot := fun hphase => by
        have hover := hs.halted (by rcases hphase with h | h | h <;> rw [h] <;> rfl)
        rw [hcollecting] at hover
        cases hover
      ndjson := hs.ndjson }
  | outside hoffer hproceed => exact { hs with }
  | @moved fate phase collecting deadline hphase hstopping hnext hempty =>
    have hne : ∀ p : Phase, p.isOver = true → phase ≠ p := fun p hp h => by
      rw [h, hp] at hnext
      cases hnext
    exact {
      halted := fun hover => by rw [hnext] at hover; cases hover
      queued := hs.queued
      sublist := hs.sublist
      bytes := hs.bytes
      drops := hs.drops
      snapshot := fun h => by
        rcases h with h | h | h <;> exact (hne _ rfl h).elim
      ndjson := fun h => by
        rcases h with h | h <;> exact (hne _ rfl h).elim }
  | @received fate phase e rest hphase hqueue hnext =>
    have hne : ∀ p : Phase, p.isOver = true → phase ≠ p := fun p hp h => by
      rw [h, hp] at hnext
      cases hnext
    have hbytes := hs.bytes
    have hlength := length_append s.writer (record toVec e) fate
    exact {
      halted := fun hover => by rw [hnext] at hover; cases hover
      queued := by rw [hs.queued, hqueue, List.append_assoc, List.singleton_append]
      sublist := hs.sublist
      bytes := by
        simp only [List.flatMap_append, List.flatMap_singleton, List.length_append]
        omega
      drops := hs.drops
      snapshot := fun h => by
        rcases h with h | h | h <;> exact (hne _ rfl h).elim
      ndjson := fun h => by
        rcases h with h | h <;> exact (hne _ rfl h).elim }
  | stopped hphase => exact { hs with
      halted := fun _ => rfl
      snapshot := fun h => by rcases h with h | h | h <;> cases h
      ndjson := fun h => by rcases h with h | h <;> cases h }
  | snapshot hphase => exact { hs with
      halted := fun _ => hs.halted (by rw [hphase]; rfl)
      snapshot := fun _ => rfl
      ndjson := fun h => by rcases h with h | h <;> cases h }
  | finalized hphase => exact { hs with
      halted := fun _ => hs.halted (by rw [hphase]; rfl)
      snapshot := fun _ => hs.snapshot (.inl hphase)
      ndjson := fun _ => rfl }
  | reported hphase => exact { hs with
      halted := fun _ => hs.halted (by rw [hphase]; rfl)
      snapshot := fun _ => hs.snapshot (.inr (.inl hphase))
      ndjson := fun _ => hs.ndjson (.inl hphase) }

theorem consistent_initial : Consistent toVec (initial : Session Event) where
  halted := nofun
  queued := rfl
  sublist := List.Sublist.refl _
  bytes := Nat.le_refl _
  drops := Nat.le_refl _
  snapshot := fun h => by rcases h with h | h | h <;> cases h
  ndjson := fun h => by rcases h with h | h <;> cases h

theorem consistent_step (h : step opts toVec s a = some s') (hlive : Live s')
    (hs : Consistent toVec s) : Consistent toVec s' :=
  (step_spec hs.halted h hlive).consistent hs

/-- Once the collector is stopped, nothing is left in the channel. -/
def Drained (s : Session Event) : Prop := s.phase.isOver = true → s.queue = []

theorem drained_step (h : step opts toVec s a = some s') (hlive : Live s')
    (hs : Consistent toVec s) : Drained s' ↔ Drained s ∧ StopsEmpty s a := by
  cases step_spec hs.halted h hlive with
  | sent hcollecting hroom =>
    have hnotOver : s.phase.isOver ≠ true := fun hover => by
      rw [hs.halted hover] at hcollecting
      cases hcollecting
    exact ⟨fun _ => ⟨fun hover => (hnotOver hover).elim, fun _ => nofun⟩,
      fun _ hover => (hnotOver hover).elim⟩
  | dropped hcollecting hfull => exact ⟨fun h => ⟨h, fun _ => nofun⟩, fun h => h.1⟩
  | outside hoffer hproceed =>
    exact ⟨fun h => ⟨h, fun _ hdone => (hproceed _ hdone).elim⟩, fun h => h.1⟩
  | moved hphase hstopping hnext hempty =>
    refine ⟨fun _ => ⟨fun hover => ?_, fun h => (hstopping h).elim⟩, fun _ hover => ?_⟩
    · rw [hphase] at hover
      cases hover
    · rw [hnext] at hover
      cases hover
  | received hphase hqueue hnext =>
    refine ⟨fun _ => ⟨fun hover => ?_, fun h => ?_⟩, fun _ hover => ?_⟩
    · rcases hphase with h | h <;> rw [h] at hover <;> cases hover
    · rcases hphase with h' | h' <;> rw [h'] at h <;> cases h
    · rw [hnext] at hover
      cases hover
  | stopped hphase =>
    refine ⟨fun h => ⟨fun hover => ?_, fun _ _ => h rfl⟩, fun h _ => h.2 hphase rfl⟩
    rw [hphase] at hover
    cases hover
  | snapshot hphase | finalized hphase | reported hphase =>
    have hover : s.phase.isOver = true := by rw [hphase]; rfl
    refine ⟨fun h => ⟨fun _ => h rfl, fun hstop => ?_⟩, fun h _ => h.1 hover⟩
    rw [hphase] at hstop
    cases hstop

/-- Every record so far was taken whole. -/
def Whole (toVec : Event → List UInt8) (s : Session Event) : Prop :=
  s.writer.bytes = s.allEvents.flatMap (record toVec)

theorem append_whole_iff {w : TraceEventWriter} {kept bytes : List UInt8} {fate : Fate}
    (hle : w.bytes.length ≤ kept.length) :
    (w.append bytes fate).bytes = kept ++ bytes ↔
      w.bytes = kept ∧ ∀ taken, fate = .failed taken → bytes.length ≤ taken := by
  cases fate with
  | done =>
    simp only [TraceEventWriter.append, List.append_left_inj]
    exact ⟨fun h => ⟨h, nofun⟩, fun h => h.1⟩
  | failed taken =>
    simp only [TraceEventWriter.append, Fate.failed.injEq, forall_eq']
    constructor
    · intro h
      have hlength := congrArg List.length h
      simp only [List.length_append, List.length_take] at hlength
      exact ⟨(List.append_inj h (by omega)).1, by omega⟩
    · rintro ⟨h, htaken⟩
      rw [h, List.take_of_length_le htaken]

theorem whole_step (h : step opts toVec s a = some s') (hlive : Live s')
    (hs : Consistent toVec s) : Whole toVec s' ↔ Whole toVec s ∧ WritesWhole toVec s a := by
  cases step_spec hs.halted h hlive with
  | sent _ _ | dropped _ _ => exact ⟨fun h => ⟨h, fun _ _ => nofun⟩, fun h => h.1⟩
  | outside hoffer hproceed =>
    exact ⟨fun h => ⟨h, fun _ _ hfailed => (hproceed _ hfailed).elim⟩, fun h => h.1⟩
  | moved hphase hstopping hnext hempty =>
    refine ⟨fun h => ⟨h, fun hreceives _ _ e he => ?_⟩, fun h => h.1⟩
    rw [hempty hreceives] at he
    cases he
  | @received fate phase e rest hphase hqueue hnext =>
    have hwrites : WritesWhole toVec s (.proceed fate) ↔
        ∀ taken, fate = .failed taken → (record toVec e).length ≤ taken := by
      simp only [WritesWhole, hqueue, List.head?_cons, Option.some.injEq, forall_eq',
        Action.proceed.injEq]
      exact ⟨fun h => h hphase, fun h _ => h⟩
    rw [hwrites, Whole, Whole, List.flatMap_append, List.flatMap_singleton]
    exact append_whole_iff hs.bytes
  | stopped hphase | snapshot hphase | finalized hphase | reported hphase =>
    exact ⟨fun h => ⟨h, fun _ _ => nofun⟩, fun h => h.1⟩

/-- Every event not sent so far is in the counter. -/
def Counted (s : Session Event) : Prop := s.sent.length + s.drops = s.offered.length

theorem counted_step (h : step opts toVec s a = some s') (hlive : Live s')
    (hs : Consistent toVec s) : Counted s' ↔ Counted s ∧ DropFits s a := by
  cases step_spec hs.halted h hlive with
  | sent hcollecting hroom =>
    simp only [Counted, List.length_append, List.length_singleton]
    exact ⟨fun h => ⟨by omega, fun _ _ hfull => by omega⟩, fun h => by omega⟩
  | @dropped e hcollecting hfull =>
    have hdrops := hs.drops
    have hfits : DropFits s (.offer e) ↔ s.drops + 1 < 2 ^ 64 :=
      ⟨fun h => h e rfl hfull, fun h _ _ _ => h⟩
    simp only [Counted, hfits, List.length_append, List.length_singleton]
    constructor
    · intro h
      have hmod := Nat.mod_le (s.drops + 1) (2 ^ 64)
      have hsmall : s.drops + 1 < 2 ^ 64 :=
        Nat.lt_of_not_le fun hbig => by
          have := Nat.mod_lt (s.drops + 1) (Nat.two_pow_pos 64)
          omega
      exact ⟨by omega, hsmall⟩
    · rintro ⟨h, hsmall⟩
      rw [Nat.mod_eq_of_lt hsmall]
      omega
  | outside hoffer hproceed =>
    exact ⟨fun h => ⟨h, fun _ hoffered => (hoffer _ hoffered).elim⟩, fun h => h.1⟩
  | moved _ _ _ _ | received _ _ _ | stopped _ | snapshot _ | finalized _ | reported _ =>
    exact ⟨fun h => ⟨h, fun _ => nofun⟩, fun h => h.1⟩

/-- In a session that ended well, the events sent are kept, written and complete up to the
counter just when the channel was drained, the records whole and the drops counted. -/
theorem accounted_of_consistent (hs : Consistent toVec s) (hok : s.phase = .returned true) :
    Accounted toVec s ↔ Drained s ∧ Whole toVec s ∧ Counted s := by
  have hover : s.phase.isOver = true := by rw [hok]; rfl
  have hdropped := hs.snapshot (.inr (.inr hok))
  have hndjson := hs.ndjson (.inr hok)
  constructor
  · intro h
    have hqueue : s.queue = [] := by
      have hsent := hs.queued
      rw [h.kept] at hsent
      exact List.self_eq_append_right.mp hsent
    refine ⟨fun _ => hqueue, ?_, ?_⟩
    · rw [Whole, ← hndjson, h.written, h.kept]
    · rw [Counted, ← hdropped, h.counted]
  · rintro ⟨hdrained, hwhole, hcounted⟩
    have hkept : s.allEvents = s.sent := by
      rw [hs.queued, hdrained hover, List.append_nil]
    refine ⟨hkept, by rw [hndjson, hwhole, hkept], by rw [hdropped, hcounted], fun hzero => ?_⟩
    rw [hkept]
    refine hs.sublist.eq_of_length ?_
    rw [← hcounted, ← hdropped, hzero, Nat.add_zero]

/-- No event of a session that ended well is lost silently just when its steps were safe. -/
theorem accounted_iff (hrun : run (step opts toVec) initial actions = some s)
    (hok : s.phase = .returned true) :
    Accounted toVec s ↔ Every (step opts toVec) (SafeStep toVec) initial actions := by
  have hlive : Live s := fun h => by rw [hok] at h; cases h
  have hs := run_keeps (fun _ _ _ => live_of_step) (fun _ _ _ => consistent_step) hrun hlive
    consistent_initial
  have hdrained := holds_iff_every (fun _ _ _ => live_of_step) (fun _ _ _ => consistent_step)
    (fun _ _ _ => drained_step) hrun hlive consistent_initial
  have hwhole := holds_iff_every (fun _ _ _ => live_of_step) (fun _ _ _ => consistent_step)
    (fun _ _ _ => whole_step) hrun hlive consistent_initial
  have hcounted := holds_iff_every (fun _ _ _ => live_of_step) (fun _ _ _ => consistent_step)
    (fun _ _ _ => counted_step) hrun hlive consistent_initial
  have hsafe : Every (step opts toVec) (SafeStep toVec) initial actions ↔
      Every (step opts toVec) StopsEmpty initial actions ∧
        Every (step opts toVec) (WritesWhole toVec) initial actions ∧
        Every (step opts toVec) DropFits initial actions :=
    every_and.trans (and_congr_right fun _ => every_and)
  rw [accounted_of_consistent hs hok, hdrained, hwhole, hcounted, hsafe]
  constructor
  · rintro ⟨⟨-, h₁⟩, ⟨-, h₂⟩, -, h₃⟩
    exact ⟨h₁, h₂, h₃⟩
  · rintro ⟨h₁, h₂, h₃⟩
    exact ⟨⟨fun _ => rfl, h₁⟩, ⟨rfl, h₂⟩, rfl, h₃⟩

def toByte (n : Nat) : List UInt8 := [n.toUInt8]

/-- One event is received before Ctrl-C. -/
def interruptedRun : List (Action Nat) :=
  [.proceed .done, .proceed .done, .proceed .done, .offer 7, .proceed .done, .proceed .done,
    .ctrlC, .proceed .done, .proceed .done, .proceed .done, .proceed .done, .proceed .done]

theorem accounted_iff_interrupted :
    ∃ s, run (step ⟨none, false⟩ toByte) initial interruptedRun = some s ∧ s.allEvents = [7] ∧
      (Accounted toByte s ↔
        Every (step ⟨none, false⟩ toByte) (SafeStep toByte) initial interruptedRun) :=
  ⟨_, rfl, rfl, accounted_iff rfl rfl⟩

/-- One event is sent just before the deadline is seen to be over. -/
def deadlineRun : List (Action Nat) :=
  [.proceed .done, .proceed .done, .proceed .done, .tick, .offer 7, .proceed .done,
    .proceed .done, .proceed .done, .proceed .done, .proceed .done]

theorem late_event_lost :
    ¬ ∀ s, run (step ⟨some 1, false⟩ toByte) initial deadlineRun = some s →
      s.phase = .returned true → Accounted toByte s := by
  intro h
  have hkept := (h _ rfl rfl).kept
  cases hkept

end Axe.Trace
