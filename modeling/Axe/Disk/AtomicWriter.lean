import Mathlib.Algebra.Order.Ring.Nat
import Mathlib.Logic.Function.Basic

/-!
# Atomic writers of one target

Any number of writers of one target take their steps in any order. The disk has the names of
the target and of its temporary file; a name stands for a file, which stays the same when it
is opened again or renamed. A buffered writer may hand bytes on at any moment before its
buffer is gone, and it may be stopped after any step.
-/
namespace Axe.Disk

/-- Where a writer is in its code. -/
inductive Phase where
  /-- `create` is not called yet. -/
  | unopened
  | writing
  /-- `finalize` writes the buffer out. -/
  | flushing
  | syncing
  /-- The rename is next. -/
  | synced
  /-- `finalize` returned `Ok`. -/
  | finished
  /-- `abort` drops the buffer, which writes itself out. -/
  | aborting
  | removing
  /-- The writer is dropped and its buffer writes itself out. -/
  | dropping
  | closed
  deriving DecidableEq

/-- The writer has opened the temporary file and may still write to it or rename it. -/
def Phase.isOpen : Phase → Bool
  | writing | flushing | syncing | synced | aborting | dropping => true
  | unopened | finished | removing | closed => false

/-- The buffer of the writer is not gone. -/
def Phase.hasBuffer : Phase → Bool
  | writing | flushing | aborting | dropping => true
  | _ => false

structure Files where
  content : Nat → List UInt8
  next : Nat
  tmp : Option Nat
  target : Option Nat

/-- `written` are the bytes accepted so far, `pending` those of them still in the buffer.
`alone` records that no other writer held the file since this one opened it. -/
structure AtomicWriter where
  phase : Phase
  fd : Nat
  offset : Nat
  pending : List UInt8
  written : List UInt8
  alone : Prop

structure World (ι : Type) where
  files : Files
  writers : ι → AtomicWriter

/-- A write through a handle, at the handle's own offset. -/
def writeAt (content : List UInt8) (offset : Nat) (bytes : List UInt8) : List UInt8 :=
  content.take offset ++ List.replicate (offset - content.length) 0 ++ bytes ++
    content.drop (offset + bytes.length)

def AtomicWriter.Holds (writer : AtomicWriter) (file : Nat) : Prop :=
  writer.phase.isOpen = true ∧ writer.fd = file

namespace World

variable {ι : Type} [DecidableEq ι]

def setPhase (w : World ι) (i : ι) (phase : Phase) : World ι :=
  { w with writers := Function.update w.writers i { w.writers i with phase := phase } }

/-- Opens the temporary file: one that is there is emptied, else there is a new one. -/
def create (w : World ι) (i : ι) : World ι :=
  let file := w.files.tmp.getD w.files.next
  { files :=
      { w.files with
        content := Function.update w.files.content file []
        next := if w.files.tmp.isSome then w.files.next else w.files.next + 1
        tmp := some file }
    writers := Function.update
      (fun j => { w.writers j with
        alone := (w.writers j).alone ∧ ¬ (w.writers j).Holds file })
      i ⟨.writing, file, 0, [], [], ∀ j, j ≠ i → ¬ (w.writers j).Holds file⟩ }

/-- The buffer takes the bytes. -/
def write (w : World ι) (i : ι) (bytes : List UInt8) : World ι :=
  { w with
    writers := Function.update w.writers i
      { w.writers i with
        pending := (w.writers i).pending ++ bytes
        written := (w.writers i).written ++ bytes } }

/-- The buffer hands on its first bytes. -/
def flush (w : World ι) (i : ι) (n : Nat) : World ι :=
  let writer := w.writers i
  let bytes := writer.pending.take n
  { files :=
      { w.files with
        content := Function.update w.files.content writer.fd
          (writeAt (w.files.content writer.fd) writer.offset bytes) }
    writers := Function.update w.writers i
      { writer with
        offset := writer.offset + bytes.length
        pending := writer.pending.drop n } }

/-- The target becomes the file that has the temporary name. -/
def rename (w : World ι) (i : ι) (file : Nat) : World ι :=
  { files := { w.files with tmp := none, target := some file }
    writers := Function.update w.writers i { w.writers i with phase := .finished } }

def removeTmp (w : World ι) (i : ι) : World ι :=
  { files := { w.files with tmp := none }
    writers := Function.update w.writers i { w.writers i with phase := .closed } }

def targetContent (w : World ι) : Option (List UInt8) :=
  w.files.target.map w.files.content

end World

inductive Event where
  | create | write | flush | finalize | flushed | synced | rename | abort | drop | dropBuffer
  | remove | fail

/-- One step of one writer. A call that fails without an effect on the disk is `fail`; a
failing flush in `finalize` drops the buffer, every other failure ends the writer. A `write`
that fails takes no bytes and is no step. -/
inductive Step {ι : Type} [DecidableEq ι] (w : World ι) (i : ι) : Event → World ι → Prop
  | create (hphase : (w.writers i).phase = .unopened) : Step w i .create (w.create i)
  | createFails (hphase : (w.writers i).phase = .unopened) :
    Step w i .fail (w.setPhase i .closed)
  | write (bytes : List UInt8) (hphase : (w.writers i).phase = .writing) :
    Step w i .write (w.write i bytes)
  | flush (n : Nat) (hphase : (w.writers i).phase.hasBuffer = true) :
    Step w i .flush (w.flush i n)
  | finalize (hphase : (w.writers i).phase = .writing) :
    Step w i .finalize (w.setPhase i .flushing)
  | flushed (hphase : (w.writers i).phase = .flushing) (hempty : (w.writers i).pending = []) :
    Step w i .flushed (w.setPhase i .syncing)
  | flushFails (hphase : (w.writers i).phase = .flushing) :
    Step w i .fail (w.setPhase i .dropping)
  | synced (hphase : (w.writers i).phase = .syncing) :
    Step w i .synced (w.setPhase i .synced)
  | syncFails (hphase : (w.writers i).phase = .syncing) : Step w i .fail (w.setPhase i .closed)
  | rename {file : Nat} (hphase : (w.writers i).phase = .synced)
    (htmp : w.files.tmp = some file) : Step w i .rename (w.rename i file)
  | renameFails (hphase : (w.writers i).phase = .synced) :
    Step w i .fail (w.setPhase i .closed)
  | abort (hphase : (w.writers i).phase = .writing) : Step w i .abort (w.setPhase i .aborting)
  | drop (hphase : (w.writers i).phase = .writing) : Step w i .drop (w.setPhase i .dropping)
  | abortBuffer (hphase : (w.writers i).phase = .aborting) :
    Step w i .dropBuffer (w.setPhase i .removing)
  | dropBuffer (hphase : (w.writers i).phase = .dropping) :
    Step w i .dropBuffer (w.setPhase i .closed)
  | remove (hphase : (w.writers i).phase = .removing) : Step w i .remove (w.removeTmp i)
  | removeFails (hphase : (w.writers i).phase = .removing) :
    Step w i .fail (w.setPhase i .closed)

variable {ι : Type} [DecidableEq ι] {w w' w₀ : World ι} {i j : ι} {e : Event}

/-- The worlds reached by steps that each meet a condition on the world before. -/
inductive Reaches (ok : World ι → ι → Event → Prop) (w₀ : World ι) : World ι → Prop
  | start : Reaches ok w₀ w₀
  | step {w w' : World ι} {i : ι} {e : Event} (h : Reaches ok w₀ w) (hok : ok w i e)
    (hstep : Step w i e w') : Reaches ok w₀ w'

/-- No writer has begun, and the temporary name, if it stands for a file, does not stand for
the target. -/
structure World.Fresh (w : World ι) : Prop where
  unopened : ∀ i, (w.writers i).phase = .unopened
  tmp : ∀ file, w.files.tmp = some file → file < w.files.next ∧ w.files.target ≠ some file
  target : ∀ file, w.files.target = some file → file < w.files.next

/-- The target is as it was at the start or has all bytes of one writer. -/
def TargetWhole (w₀ w : World ι) : Prop :=
  w.targetContent = w₀.targetContent ∨
    ∃ i, (w.writers i).phase = .finished ∧ w.targetContent = some (w.writers i).written

/-- A rename moves the file that the writer opened and that no other writer held since. -/
def RenamesOwn (w : World ι) (i : ι) (e : Event) : Prop :=
  e = .rename → w.files.tmp = some (w.writers i).fd ∧ (w.writers i).alone

theorem writeAt_end (content bytes : List UInt8) :
    writeAt content content.length bytes = content ++ bytes := by
  simp [writeAt, List.drop_eq_nil_of_le]

/-- Only the writer itself writes to the file of a writer that is alone, and nobody to the
file of the target. -/
structure Kept (w₀ w : World ι) : Prop where
  whole : TargetWhole w₀ w
  content : ∀ i, (w.writers i).phase.isOpen = true → (w.writers i).alone →
    w.files.content (w.writers i).fd ++ (w.writers i).pending = (w.writers i).written ∧
      (w.writers i).offset = (w.files.content (w.writers i).fd).length
  apart : ∀ i j, i ≠ j → (w.writers i).phase.isOpen = true → (w.writers i).alone →
    ¬ (w.writers j).Holds (w.writers i).fd
  drained : ∀ i, (w.writers i).phase = .syncing ∨ (w.writers i).phase = .synced →
    (w.writers i).pending = []
  target : ∀ file, w.files.target = some file → file < w.files.next ∧
    w.files.tmp ≠ some file ∧ ∀ i, ¬ (w.writers i).Holds file
  tmp : ∀ file, w.files.tmp = some file → file < w.files.next
  held : ∀ i, (w.writers i).phase.isOpen = true → (w.writers i).fd < w.files.next

omit [DecidableEq ι] in
theorem World.Fresh.kept (h : w₀.Fresh) : Kept w₀ w₀ where
  whole := Or.inl rfl
  content := fun i hopen => by rw [h.unopened i] at hopen; cases hopen
  apart := fun i _ _ hopen => by rw [h.unopened i] at hopen; cases hopen
  drained := fun i hphase => by rw [h.unopened i] at hphase; rcases hphase with h | h <;> cases h
  target := fun file hfile => ⟨h.target file hfile, fun htmp => (h.tmp file htmp).2 hfile,
    fun i hholds => by
      have hopen := hholds.1
      rw [h.unopened i] at hopen
      cases hopen⟩
  tmp := fun file hfile => (h.tmp file hfile).1
  held := fun i hopen => by rw [h.unopened i] at hopen; cases hopen

theorem World.setPhase_self (w : World ι) (i : ι) (phase : Phase) :
    (w.setPhase i phase).writers i = { w.writers i with phase := phase } :=
  Function.update_self i _ _

theorem World.setPhase_of_ne (hne : j ≠ i) (phase : Phase) :
    (w.setPhase i phase).writers j = w.writers j :=
  Function.update_of_ne hne _ _

omit [DecidableEq ι] in
/-- A step keeps the target whole when it changes neither the target nor a finished writer. -/
theorem TargetWhole.of_eq (h : TargetWhole w₀ w) (htarget : w'.targetContent = w.targetContent)
    (hkeep : ∀ i, (w.writers i).phase = .finished →
      (w'.writers i).phase = .finished ∧ (w'.writers i).written = (w.writers i).written) :
    TargetWhole w₀ w' := by
  rcases h with h | ⟨i, hphase, h⟩
  · exact Or.inl (htarget.trans h)
  · obtain ⟨hphase', hwritten⟩ := hkeep i hphase
    exact Or.inr ⟨i, hphase', by rw [htarget, h, hwritten]⟩

theorem Kept.setPhase (h : Kept w₀ w) (phase : Phase) (hold : (w.writers i).phase ≠ .finished)
    (hopen : phase.isOpen = true → (w.writers i).phase.isOpen = true)
    (hdrained : phase = .syncing ∨ phase = .synced → (w.writers i).pending = []) :
    Kept w₀ (w.setPhase i phase) := by
  have hsame : ∀ j, ((w.setPhase i phase).writers j).fd = (w.writers j).fd ∧
      ((w.setPhase i phase).writers j).offset = (w.writers j).offset ∧
      ((w.setPhase i phase).writers j).pending = (w.writers j).pending ∧
      ((w.setPhase i phase).writers j).written = (w.writers j).written ∧
      ((w.setPhase i phase).writers j).alone = (w.writers j).alone ∧
      (((w.setPhase i phase).writers j).phase.isOpen = true →
        (w.writers j).phase.isOpen = true) := by
    intro j
    by_cases hji : j = i
    · subst hji
      rw [World.setPhase_self]
      exact ⟨rfl, rfl, rfl, rfl, rfl, hopen⟩
    · rw [World.setPhase_of_ne hji]
      exact ⟨rfl, rfl, rfl, rfl, rfl, fun h => h⟩
  have hholds : ∀ j file, ((w.setPhase i phase).writers j).Holds file →
      (w.writers j).Holds file := by
    rintro j file ⟨hopen, hfd⟩
    exact ⟨(hsame j).2.2.2.2.2 hopen, (hsame j).1 ▸ hfd⟩
  refine ⟨h.whole.of_eq rfl fun j hj => ?_, fun j hj halone => ?_, fun j k hne hj halone => ?_,
    fun j hj => ?_, fun file hfile => ?_, h.tmp, fun j hj => ?_⟩
  · have hji : j ≠ i := fun heq => hold (heq ▸ hj)
    rw [World.setPhase_of_ne hji]
    exact ⟨hj, rfl⟩
  · obtain ⟨hfd, hoffset, hpending, hwritten, halone', hj'⟩ := hsame j
    rw [hfd, hoffset, hpending, hwritten]
    exact h.content j (hj' hj) (halone' ▸ halone)
  · obtain ⟨hfd, _, _, _, halone', hj'⟩ := hsame j
    rw [hfd]
    exact fun hk => h.apart j k hne (hj' hj) (halone' ▸ halone) (hholds k _ hk)
  · rw [(hsame j).2.2.1]
    by_cases hji : j = i
    · subst hji
      rw [World.setPhase_self] at hj
      exact hdrained hj
    · rw [World.setPhase_of_ne hji] at hj
      exact h.drained j hj
  · obtain ⟨hlt, htmp, hnone⟩ := h.target file hfile
    exact ⟨hlt, htmp, fun j hj => hnone j (hholds j file hj)⟩
  · rw [(hsame j).1]
    exact h.held j ((hsame j).2.2.2.2.2 hj)

theorem Kept.write (h : Kept w₀ w) (hphase : (w.writers i).phase = .writing)
    (bytes : List UInt8) : Kept w₀ (w.write i bytes) := by
  have hself : (w.write i bytes).writers i =
      { w.writers i with
        pending := (w.writers i).pending ++ bytes
        written := (w.writers i).written ++ bytes } := Function.update_self i _ _
  have hother : ∀ j, j ≠ i → (w.write i bytes).writers j = w.writers j :=
    fun j hne => Function.update_of_ne hne _ _
  have hsame : ∀ j, ((w.write i bytes).writers j).phase = (w.writers j).phase ∧
      ((w.write i bytes).writers j).fd = (w.writers j).fd ∧
      ((w.write i bytes).writers j).alone = (w.writers j).alone := by
    intro j
    by_cases hji : j = i
    · subst hji
      rw [hself]
      exact ⟨rfl, rfl, rfl⟩
    · rw [hother j hji]
      exact ⟨rfl, rfl, rfl⟩
  have hholds : ∀ j file, ((w.write i bytes).writers j).Holds file ↔
      (w.writers j).Holds file := by
    intro j file
    rw [AtomicWriter.Holds, AtomicWriter.Holds, (hsame j).1, (hsame j).2.1]
  refine ⟨h.whole.of_eq rfl fun j hj => ?_, fun j hj halone => ?_, fun j k hne hj halone => ?_,
    fun j hj => ?_, fun file hfile => ?_, h.tmp, fun j hj => ?_⟩
  · have hji : j ≠ i := fun heq => by rw [heq, hphase] at hj; cases hj
    rw [hother j hji]
    exact ⟨hj, rfl⟩
  · rw [(hsame j).1] at hj
    rw [(hsame j).2.2] at halone
    obtain ⟨hcontent, hoffset⟩ := h.content j hj halone
    by_cases hji : j = i
    · subst hji
      rw [hself, ← hcontent, List.append_assoc]
      exact ⟨rfl, hoffset⟩
    · rw [hother j hji]
      exact ⟨hcontent, hoffset⟩
  · rw [(hsame j).1] at hj
    rw [(hsame j).2.2] at halone
    rw [(hsame j).2.1, hholds]
    exact h.apart j k hne hj halone
  · rw [(hsame j).1] at hj
    have hji : j ≠ i := fun heq => by rw [heq, hphase] at hj; rcases hj with hj | hj <;> cases hj
    rw [hother j hji]
    exact h.drained j hj
  · obtain ⟨hlt, htmp, hnone⟩ := h.target file hfile
    exact ⟨hlt, htmp, fun j hj => hnone j ((hholds j file).mp hj)⟩
  · rw [(hsame j).1] at hj
    rw [(hsame j).2.1]
    exact h.held j hj

theorem Phase.isOpen_of_hasBuffer {phase : Phase} (h : phase.hasBuffer = true) :
    phase.isOpen = true := by
  cases phase <;> first | rfl | cases h

theorem Kept.flush (h : Kept w₀ w) (hbuffer : (w.writers i).phase.hasBuffer = true) (n : Nat) :
    Kept w₀ (w.flush i n) := by
  have hopen := Phase.isOpen_of_hasBuffer hbuffer
  have hself : (w.flush i n).writers i =
      { w.writers i with
        offset := (w.writers i).offset + ((w.writers i).pending.take n).length
        pending := (w.writers i).pending.drop n } := Function.update_self i _ _
  have hother : ∀ j, j ≠ i → (w.flush i n).writers j = w.writers j :=
    fun j hne => Function.update_of_ne hne _ _
  have hfile : ∀ file, file ≠ (w.writers i).fd →
      (w.flush i n).files.content file = w.files.content file :=
    fun file hne => Function.update_of_ne hne _ _
  have hown : (w.flush i n).files.content (w.writers i).fd =
      writeAt (w.files.content (w.writers i).fd) (w.writers i).offset
        ((w.writers i).pending.take n) := Function.update_self _ _ _
  have hsame : ∀ j, ((w.flush i n).writers j).phase = (w.writers j).phase ∧
      ((w.flush i n).writers j).fd = (w.writers j).fd ∧
      ((w.flush i n).writers j).alone = (w.writers j).alone := by
    intro j
    by_cases hji : j = i
    · subst hji
      rw [hself]
      exact ⟨rfl, rfl, rfl⟩
    · rw [hother j hji]
      exact ⟨rfl, rfl, rfl⟩
  have hholds : ∀ j file, ((w.flush i n).writers j).Holds file ↔ (w.writers j).Holds file := by
    intro j file
    rw [AtomicWriter.Holds, AtomicWriter.Holds, (hsame j).1, (hsame j).2.1]
  have htarget : (w.flush i n).targetContent = w.targetContent := by
    have hfiles : (w.flush i n).files.target = w.files.target := rfl
    rw [World.targetContent, World.targetContent, hfiles]
    cases htarget : w.files.target with
    | none => rfl
    | some file =>
      have hne : file ≠ (w.writers i).fd :=
        fun heq => (h.target file htarget).2.2 i ⟨hopen, heq.symm⟩
      exact congrArg some (hfile file hne)
  refine ⟨h.whole.of_eq htarget fun j hj => ?_, fun j hj halone => ?_,
    fun j k hne hj halone => ?_, fun j hj => ?_, fun file hfile => ?_, h.tmp, fun j hj => ?_⟩
  · have hji : j ≠ i := fun heq => by rw [← heq, hj] at hbuffer; cases hbuffer
    rw [hother j hji]
    exact ⟨hj, rfl⟩
  · rw [(hsame j).1] at hj
    rw [(hsame j).2.2] at halone
    obtain ⟨hcontent, hoffset⟩ := h.content j hj halone
    by_cases hji : j = i
    · subst hji
      have hgrown : (w.flush j n).files.content (w.writers j).fd =
          w.files.content (w.writers j).fd ++ (w.writers j).pending.take n := by
        rw [hown, hoffset, writeAt_end]
      rw [hself]
      simp only [hgrown]
      refine ⟨?_, by rw [hoffset, List.length_append]⟩
      rw [List.append_assoc, List.take_append_drop, hcontent]
    · rw [hother j hji, hfile _ fun heq => h.apart j i hji hj halone ⟨hopen, heq.symm⟩]
      exact ⟨hcontent, hoffset⟩
  · rw [(hsame j).1] at hj
    rw [(hsame j).2.2] at halone
    rw [(hsame j).2.1, hholds]
    exact h.apart j k hne hj halone
  · rw [(hsame j).1] at hj
    by_cases hji : j = i
    · subst hji
      rw [hself]
      simp only [h.drained j hj, List.drop_nil]
    · rw [hother j hji]
      exact h.drained j hj
  · obtain ⟨hlt, htmp, hnone⟩ := h.target file hfile
    exact ⟨hlt, htmp, fun j hj => hnone j ((hholds j file).mp hj)⟩
  · rw [(hsame j).1] at hj
    rw [(hsame j).2.1]
    exact h.held j hj

theorem Kept.create (h : Kept w₀ w) (hphase : (w.writers i).phase = .unopened) :
    Kept w₀ (w.create i) := by
  have hnew : ∃ file, w.files.tmp.getD w.files.next = file ∧
      w.files.target ≠ some file ∧
      w.files.next ≤ (w.create i).files.next ∧ file < (w.create i).files.next ∧
      (w.create i).files.tmp = some file := by
    refine ⟨_, rfl, fun htarget => ?_, ?_, ?_, rfl⟩
    · cases htmp : w.files.tmp with
      | some file =>
        rw [htmp] at htarget
        exact (h.target file htarget).2.1 htmp
      | none =>
        rw [htmp] at htarget
        exact absurd (h.target _ htarget).1 (Nat.lt_irrefl _)
    · simp only [World.create]
      split <;> omega
    · cases htmp : w.files.tmp with
      | some file => simpa [World.create, htmp] using h.tmp file htmp
      | none => simp [World.create, htmp]
  obtain ⟨file, heq, htarget, hnext, hlt, htmp⟩ := hnew
  have hself : (w.create i).writers i =
      ⟨.writing, file, 0, [], [], ∀ j, j ≠ i → ¬ (w.writers j).Holds file⟩ := by
    subst heq
    simp [World.create]
  have hother : ∀ j, j ≠ i → (w.create i).writers j =
      { w.writers j with alone := (w.writers j).alone ∧ ¬ (w.writers j).Holds file } := by
    subst heq
    intro j hne
    simp [World.create, hne]
  have hfile : ∀ other, other ≠ file →
      (w.create i).files.content other = w.files.content other := by
    subst heq
    exact fun other hne => Function.update_of_ne hne _ _
  have hown : (w.create i).files.content file = [] := by
    rw [← heq]
    exact Function.update_self _ _ _
  have hfinished : ∀ j, (w.writers j).phase = .finished → j ≠ i :=
    fun j hj heq => by rw [heq, hphase] at hj; cases hj
  have htargetContent : (w.create i).targetContent = w.targetContent := by
    have hfiles : (w.create i).files.target = w.files.target := rfl
    rw [World.targetContent, World.targetContent, hfiles]
    cases hold : w.files.target with
    | none => rfl
    | some other => exact congrArg some (hfile other fun h => htarget (h ▸ hold))
  refine ⟨h.whole.of_eq htargetContent fun j hj => ?_, fun j hj halone => ?_,
    fun j k hne hj halone hk => ?_, fun j hj => ?_, fun other hfile' => ?_, fun other hother' => ?_,
    fun j hj => ?_⟩
  · rw [hother j (hfinished j hj)]
    exact ⟨hj, rfl⟩
  · by_cases hji : j = i
    · subst hji
      rw [hself, hown]
      exact ⟨rfl, rfl⟩
    · rw [hother j hji] at hj halone ⊢
      simp only at hj halone ⊢
      rw [hfile _ fun h => halone.2 ⟨hj, h⟩]
      exact h.content j hj halone.1
  · by_cases hji : j = i
    · subst hji
      rw [hself] at halone hk
      rw [hother k hne.symm] at hk
      exact halone k hne.symm hk
    · rw [hother j hji] at hj halone hk
      by_cases hki : k = i
      · subst hki
        rw [hself] at hk
        exact halone.2 ⟨hj, hk.2.symm⟩
      · rw [hother k hki] at hk
        exact h.apart j k hne hj halone.1 hk
  · by_cases hji : j = i
    · subst hji
      rw [hself]
    · rw [hother j hji] at hj ⊢
      exact h.drained j hj
  · obtain ⟨hbound, _, hnone⟩ := h.target other hfile'
    refine ⟨Nat.lt_of_lt_of_le hbound hnext, fun h => ?_, fun j hj => ?_⟩
    · rw [htmp, Option.some.injEq] at h
      exact htarget (h ▸ hfile')
    · by_cases hji : j = i
      · subst hji
        rw [hself] at hj
        have hfd : file = other := hj.2
        exact htarget (hfd ▸ hfile')
      · rw [hother j hji] at hj
        exact hnone j hj
  · rw [htmp, Option.some.injEq] at hother'
    exact hother' ▸ hlt
  · by_cases hji : j = i
    · subst hji
      rw [hself]
      exact hlt
    · rw [hother j hji] at hj ⊢
      exact Nat.lt_of_lt_of_le (h.held j hj) hnext

/-- Renaming its own file, a writer that is alone makes its bytes the target's. -/
theorem Kept.rename_content (h : Kept w₀ w) (hphase : (w.writers i).phase = .synced)
    (halone : (w.writers i).alone) :
    (w.rename i (w.writers i).fd).targetContent = some (w.writers i).written := by
  have hopen : (w.writers i).phase.isOpen = true := by rw [hphase]; rfl
  have hcontent := (h.content i hopen halone).1
  rw [h.drained i (Or.inr hphase), List.append_nil] at hcontent
  exact congrArg some hcontent

theorem Kept.rename (h : Kept w₀ w) (hphase : (w.writers i).phase = .synced)
    (halone : (w.writers i).alone) : Kept w₀ (w.rename i (w.writers i).fd) := by
  have hopen : (w.writers i).phase.isOpen = true := by rw [hphase]; rfl
  have hself : (w.rename i (w.writers i).fd).writers i =
      { w.writers i with phase := .finished } := Function.update_self i _ _
  have hother : ∀ j, j ≠ i → (w.rename i (w.writers i).fd).writers j = w.writers j :=
    fun j hne => Function.update_of_ne hne _ _
  have hne : ∀ j, ((w.rename i (w.writers i).fd).writers j).phase.isOpen = true → j ≠ i := by
    intro j hj heq
    rw [heq, hself] at hj
    cases hj
  refine ⟨Or.inr ⟨i, by rw [hself], ?_⟩, fun j hj halone => ?_, fun j k hjk hj halone hk => ?_,
    fun j hj => ?_, fun file hfile => ?_, fun file hfile => absurd hfile.symm (Option.some_ne_none _),
    fun j hj => ?_⟩
  · rw [hself]
    exact h.rename_content hphase halone
  · have hji := hne j hj
    rw [hother j hji] at hj halone ⊢
    exact h.content j hj halone
  · have hji := hne j hj
    have hki := hne k hk.1
    rw [hother j hji] at hj halone hk
    rw [hother k hki] at hk
    exact h.apart j k hjk hj halone hk
  · have hji : j ≠ i := fun heq => by rw [heq, hself] at hj; rcases hj with hj | hj <;> cases hj
    rw [hother j hji] at hj ⊢
    exact h.drained j hj
  · have heq : (w.writers i).fd = file := Option.some.inj hfile
    refine ⟨heq ▸ h.held i hopen, fun htmp => absurd htmp.symm (Option.some_ne_none _),
      fun j hj => ?_⟩
    have hji := hne j hj.1
    rw [hother j hji] at hj
    exact h.apart i j hji.symm hopen halone (heq.symm ▸ hj)
  · have hji := hne j hj
    rw [hother j hji] at hj ⊢
    exact h.held j hj

theorem Kept.removeTmp (h : Kept w₀ w) (hphase : (w.writers i).phase = .removing) :
    Kept w₀ (w.removeTmp i) := by
  have hclosed := h.setPhase (i := i) .closed (by rw [hphase]; exact Phase.noConfusion)
    (fun hopen => by cases hopen) (fun hdrained => by rcases hdrained with h | h <;> cases h)
  exact ⟨hclosed.whole, hclosed.content, hclosed.apart, hclosed.drained,
    fun file hfile => ⟨(hclosed.target file hfile).1,
      fun htmp => absurd htmp.symm (Option.some_ne_none _), (hclosed.target file hfile).2.2⟩,
    fun file hfile => absurd hfile.symm (Option.some_ne_none _), hclosed.held⟩

theorem Kept.step (h : Kept w₀ w) (hok : RenamesOwn w i e) (hstep : Step w i e w') :
    Kept w₀ w' := by
  cases hstep with
  | create hphase => exact h.create hphase
  | write bytes hphase => exact h.write hphase bytes
  | flush n hphase => exact h.flush hphase n
  | flushed hphase hempty =>
    exact h.setPhase _ (by rw [hphase]; exact Phase.noConfusion) (fun _ => by rw [hphase]; rfl)
      fun _ => hempty
  | synced hphase =>
    exact h.setPhase _ (by rw [hphase]; exact Phase.noConfusion) (fun _ => by rw [hphase]; rfl)
      fun _ => h.drained i (Or.inl hphase)
  | rename hphase htmp =>
    obtain ⟨hown, halone⟩ := hok rfl
    rw [htmp, Option.some.injEq] at hown
    exact hown ▸ h.rename hphase halone
  | remove hphase => exact h.removeTmp hphase
  | createFails hphase | syncFails hphase | renameFails hphase | dropBuffer hphase
  | removeFails hphase | abortBuffer hphase =>
    exact h.setPhase _ (by rw [hphase]; exact Phase.noConfusion) (fun hopen => by cases hopen)
      fun hdrained => by rcases hdrained with h | h <;> cases h
  | finalize hphase | flushFails hphase | abort hphase | drop hphase =>
    exact h.setPhase _ (by rw [hphase]; exact Phase.noConfusion) (fun _ => by rw [hphase]; rfl)
      fun hdrained => by rcases hdrained with h | h <;> cases h

theorem Reaches.kept (hfresh : w₀.Fresh) (h : Reaches RenamesOwn w₀ w) : Kept w₀ w := by
  induction h with
  | start => exact hfresh.kept
  | step _ hok hstep ih => exact ih.step hok hstep

/-- Where every rename moves the writer's own file the target is whole in every world, and a
`finalize` that returns `Ok` has just made its bytes the target's. -/
theorem atomic_when_renames_own (hfresh : w₀.Fresh) (h : Reaches RenamesOwn w₀ w) :
    TargetWhole w₀ w ∧ ∀ i w', RenamesOwn w i .rename → Step w i .rename w' →
      w'.targetContent = some (w.writers i).written := by
  have hkept := h.kept hfresh
  refine ⟨hkept.whole, fun i w' hok hstep => ?_⟩
  cases hstep with
  | rename hphase htmp =>
    obtain ⟨hown, halone⟩ := hok rfl
    rw [htmp, Option.some.injEq] at hown
    rw [hown]
    exact hkept.rename_content hphase halone

def unopenedWriter : AtomicWriter := ⟨.unopened, 0, 0, [], [], False⟩

/-- A target that holds one byte, and no temporary file. -/
def oneByteTarget (ι : Type) : World ι where
  files := ⟨fun _ => [7], 1, none, some 0⟩
  writers := fun _ => unopenedWriter

theorem oneByteTarget_fresh (ι : Type) : (oneByteTarget ι).Fresh where
  unopened := fun _ => rfl
  tmp := fun _ h => absurd h.symm (Option.some_ne_none _)
  target := fun file h => by
    rw [← Option.some.inj h]
    exact Nat.zero_lt_one

/-- The writer opens the temporary file and writes it, up to the rename. -/
def World.saved (w : World ι) (i : ι) (bytes : List UInt8) : World ι :=
  (((((w.create i).write i bytes).setPhase i .flushing).flush i bytes.length).setPhase i
    .syncing).setPhase i .synced

theorem reaches_saved (h : Reaches RenamesOwn w₀ w) (hphase : (w.writers i).phase = .unopened)
    (bytes : List UInt8) : Reaches RenamesOwn w₀ (w.saved i bytes) := by
  have hother : ∀ {w : World ι} {e : Event}, e ≠ .rename → RenamesOwn w i e :=
    fun hne he => absurd he hne
  refine .step (.step (.step (.step (.step (.step h (hother ?_) (.create hphase)) (hother ?_)
    (.write bytes ?_)) (hother ?_) (.finalize ?_)) (hother ?_) (.flush bytes.length ?_))
    (hother ?_) (.flushed ?_ ?_)) (hother ?_) (.synced ?_)
  all_goals simp [World.setPhase, World.flush, World.write, World.create, Phase.hasBuffer]

/-- One writer renames its file, then another opens a new one. -/
def secondSaved : World Bool :=
  (((oneByteTarget Bool).saved false [9]).rename false 1).saved true [3, 4]

theorem reaches_secondSaved : Reaches RenamesOwn (oneByteTarget Bool) secondSaved := by
  have hfirst : Reaches RenamesOwn (oneByteTarget Bool) ((oneByteTarget Bool).saved false [9]) :=
    reaches_saved .start rfl [9]
  have hown : RenamesOwn ((oneByteTarget Bool).saved false [9]) false .rename :=
    fun _ => ⟨rfl, fun j _ hholds => Bool.noConfusion hholds.1⟩
  exact reaches_saved (.step hfirst hown (.rename rfl rfl)) rfl [3, 4]

/-- Both writers rename, and each makes its bytes the target's. -/
theorem atomic_when_renames_own_twice :
    TargetWhole (oneByteTarget Bool) secondSaved ∧ secondSaved.targetContent = some [9] ∧
      (secondSaved.rename true 2).targetContent = some [3, 4] := by
  obtain ⟨hwhole, hrename⟩ :=
    atomic_when_renames_own (oneByteTarget_fresh Bool) reaches_secondSaved
  refine ⟨hwhole, rfl, hrename true _ (fun _ => ⟨rfl, ?_⟩) (.rename rfl rfl)⟩
  exact fun j hne hholds => by
    cases j with
    | true => exact hne rfl
    | false => exact Bool.noConfusion hholds.1

/-- Two writers that open the file in turn; the second writes over the first one's byte. -/
def twoWritersSynced : World Bool :=
  (((((((((oneByteTarget Bool).create false).create true).write false [1, 2]).write true
    [3]).setPhase false .flushing).flush false 2).setPhase false .syncing).setPhase false
    .synced).flush true 1

theorem reaches_twoWritersSynced :
    Reaches (fun _ _ _ => True) (oneByteTarget Bool) twoWritersSynced :=
  .step (.step (.step (.step (.step (.step (.step (.step (.step .start trivial
    (.create (i := false) rfl)) trivial (.create (i := true) rfl)) trivial
    (.write (i := false) [1, 2] rfl)) trivial (.write (i := true) [3] rfl)) trivial
    (.finalize (i := false) rfl)) trivial (.flush (i := false) 2 rfl)) trivial
    (.flushed (i := false) rfl rfl)) trivial (.synced (i := false) rfl)) trivial
    (.flush (i := true) 1 rfl)

/-- The first writer's `finalize` returns `Ok` and the target holds bytes of both. -/
theorem shared_tmp_mixes_writers :
    (oneByteTarget Bool).Fresh ∧ ¬ ∀ w, Reaches (fun _ _ _ => True) (oneByteTarget Bool) w →
      TargetWhole (oneByteTarget Bool) w ∧ ∀ i w', Step w i .rename w' →
        w'.targetContent = some (w.writers i).written := by
  refine ⟨oneByteTarget_fresh Bool, fun h => ?_⟩
  have hrename : Step twoWritersSynced false .rename (twoWritersSynced.rename false 1) :=
    .rename rfl rfl
  have hcontent := (h _ reaches_twoWritersSynced).2 false _ hrename
  have hmixed : (twoWritersSynced.rename false 1).targetContent = some [3, 2] := by decide +kernel
  have hown : (twoWritersSynced.writers false).written = [1, 2] := by decide +kernel
  rw [hmixed, hown] at hcontent
  exact absurd hcontent (by decide)

end Axe.Disk
