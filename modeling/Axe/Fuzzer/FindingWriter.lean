import Mathlib.Algebra.Order.Ring.Nat
import Mathlib.Data.Finset.Insert
import Axe.Lib.Lines

/-!
# The writer of findings

A finding is written as one line, unless its hash has been seen. The bytes pass through a buffer,
and every call to the system may fail: some of the pending bytes are in the file then.
-/
namespace Axe.Fuzzer.Findings

abbrev Bytes := List UInt8

inductive FindingKind
  | crash | hang | timeout
  deriving DecidableEq

structure FaultSymbol where
  function : Option String
  demangled : Option String
  sourceFile : Option String
  line : Option Nat
  deriving DecidableEq

structure Finding where
  schema : String
  findingId : String
  inputId : String
  kind : FindingKind
  classification : String
  signal : Option Int
  faultPc : Option Nat
  faultSymbol : Option FaultSymbol
  dedupHash : String
  reproducerPath : String
  targetId : Option String
  distanceAtCrash : Option Nat
  deriving DecidableEq

def newline : UInt8 := 10

/-- How findings are written as JSON and read again. What is written has no line breaks. -/
structure Codec where
  toVec : Finding → Bytes
  parse : Bytes → Option Finding
  oneLine : ∀ finding, newline ∉ toVec finding

/-- How a call goes that hands pending bytes on: how many of them are in the file. -/
structure Transfer where
  ok : Bool
  count : Nat

/-- How the calls of an append go. -/
structure Calls where
  serialize : Bool
  line : Transfer
  newline : Transfer
  flush : Transfer
  sync : Bool

/-- A file with the bytes that it has not got yet. -/
structure BufWriter where
  file : Bytes
  buffer : Bytes

namespace BufWriter

variable (w : BufWriter) (t : Transfer)

/-- Data that fails to be written is refused as long as older bytes are pending. -/
def writeAll (data : Bytes) : BufWriter :=
  if t.ok then ⟨w.file ++ (w.buffer ++ data).take t.count, (w.buffer ++ data).drop t.count⟩
  else if t.count ≤ w.buffer.length then
    ⟨w.file ++ w.buffer.take t.count, w.buffer.drop t.count⟩
  else ⟨w.file ++ (w.buffer ++ data).take t.count, []⟩

def flush : BufWriter :=
  if t.ok then ⟨w.file ++ w.buffer, []⟩
  else ⟨w.file ++ w.buffer.take t.count, w.buffer.drop t.count⟩

/-- The bytes of the file once the pending ones are there. -/
def total : Bytes := w.file ++ w.buffer

end BufWriter

structure FindingWriter where
  inner : BufWriter
  seenHashes : Finset String
  count : Nat
  bytesWritten : Nat

/-- What `append` returns. -/
inductive Appended
  | ok (written : Bool)
  | err
  deriving DecidableEq

def FindingWriter.create : FindingWriter := ⟨⟨[], []⟩, ∅, 0, 0⟩

/-- Writes the line of a finding through to the file. -/
def FindingWriter.writeLine (w : FindingWriter) (line : Bytes) (calls : Calls) :
    FindingWriter × Appended :=
  let written := w.inner.writeAll calls.line line
  if calls.line.ok = false then ({ w with inner := written }, .err)
  else
    let ended := written.writeAll calls.newline [newline]
    if calls.newline.ok = false then ({ w with inner := ended }, .err)
    else
      let flushed := ended.flush calls.flush
      if calls.flush.ok = false || calls.sync = false then ({ w with inner := flushed }, .err)
      else
        ({ w with
          inner := flushed
          bytesWritten := w.bytesWritten + (line.length + 1)
          count := w.count + 1 }, .ok true)

/-- The hash counts as seen before anything is written. -/
def FindingWriter.append (codec : Codec) (w : FindingWriter) (finding : Finding) (calls : Calls) :
    FindingWriter × Appended :=
  if finding.dedupHash ∈ w.seenHashes then (w, .ok false)
  else
    let w := { w with seenHashes := insert finding.dedupHash w.seenHashes }
    if calls.serialize = false then (w, .err)
    else w.writeLine (codec.toVec finding) calls

/-- A writer with the appends that there have been. -/
structure Session where
  writer : FindingWriter
  history : List (Finding × Appended)

def Session.start : Session := ⟨.create, []⟩

def Session.append (codec : Codec) (s : Session) (step : Finding × Calls) : Session :=
  let (writer, result) := s.writer.append codec step.1 step.2
  ⟨writer, s.history ++ [(step.1, result)]⟩

def session (codec : Codec) (steps : List (Finding × Calls)) : Session :=
  steps.foldl (Session.append codec) .start

/-- The lines of the file that parse as findings. -/
def findings (codec : Codec) (w : FindingWriter) : List Finding :=
  (Lines.ended newline w.inner.file).filterMap codec.parse

/-- The findings whose append returned `Ok(true)`. -/
def accepted (history : List (Finding × Appended)) : List Finding :=
  (history.filter fun row => row.2 = .ok true).map Prod.fst

/-- What failed writes must leave true. -/
structure Survives (codec : Codec) (s : Session) : Prop where
  duplicate : ∀ before finding after, s.history = before ++ (finding, .ok false) :: after →
    finding.dedupHash ∈ (accepted before).map Finding.dedupHash
  kept : ∀ finding ∈ accepted s.history, finding ∈ findings codec s.writer
  distinct : ((findings codec s.writer).map Finding.dedupHash).Nodup
  count : s.writer.count = (accepted s.history).length
  bytes : s.writer.bytesWritten =
    ((accepted s.history).map fun finding => (codec.toVec finding).length + 1).sum

/-- An append that no earlier failure can spoil: it does not repeat a finding whose append failed,
and a new finding parses from its own line and finds no line unfinished. -/
structure Unspoilt (codec : Codec) (s : Session) (finding : Finding) : Prop where
  fresh : ∀ row ∈ s.history, row.2 = .err → row.1.dedupHash ≠ finding.dedupHash
  parses : finding.dedupHash ∉ s.writer.seenHashes →
    codec.parse (codec.toVec finding) = some finding
  finished : finding.dedupHash ∉ s.writer.seenHashes →
    s.writer.inner.total = [] ∨ s.writer.inner.total.getLast? = some newline

/-- A run in which no append is spoilt. -/
def Careful (codec : Codec) (steps : List (Finding × Calls)) : Prop :=
  ∀ before step after, steps = before ++ step :: after →
    Unspoilt codec (session codec before) step.1

variable {codec : Codec} {w : BufWriter} {t : Transfer} {data line tail : Bytes}
  {lines : List Finding} {s : Session} {finding : Finding} {calls : Calls}
  {history : List (Finding × Appended)}

theorem file_writeAll : w.file <+: (w.writeAll t data).file := by
  rw [BufWriter.writeAll]
  split
  · exact List.prefix_append _ _
  · split
    · exact List.prefix_append _ _
    · exact List.prefix_append _ _

theorem total_writeAll_ok (h : t.ok = true) : (w.writeAll t data).total = w.total ++ data := by
  rw [BufWriter.writeAll, if_pos h, BufWriter.total, BufWriter.total, List.append_assoc,
    List.take_append_drop, List.append_assoc]

/-- A write that fails has written some of its data. -/
theorem total_writeAll_failed (h : ¬ t.ok = true) :
    ∃ part, part <+: data ∧ (w.writeAll t data).total = w.total ++ part := by
  rw [BufWriter.writeAll, if_neg h]
  split
  · refine ⟨[], List.nil_prefix, ?_⟩
    rw [BufWriter.total, BufWriter.total, List.append_assoc, List.take_append_drop,
      List.append_nil]
  · rename_i hcount
    refine ⟨data.take (t.count - w.buffer.length), List.take_prefix _ _, ?_⟩
    rw [BufWriter.total, BufWriter.total, List.append_nil, List.take_append,
      List.take_of_length_le (Nat.le_of_lt (Nat.lt_of_not_le hcount)), List.append_assoc]

theorem file_flush : w.file <+: (w.flush t).file := by
  rw [BufWriter.flush]
  split
  · exact List.prefix_append _ _
  · exact List.prefix_append _ _

theorem total_flush : (w.flush t).total = w.total := by
  rw [BufWriter.flush]
  split
  · exact List.append_nil _
  · rw [BufWriter.total, BufWriter.total, List.append_assoc, List.take_append_drop]

theorem flush_ok (h : t.ok = true) : (w.flush t).file = w.total := by
  rw [BufWriter.flush, if_pos h]
  rfl

/-- What an append of a new finding leaves, by what it returns. -/
inductive Leaves (w w' : FindingWriter) (line : Bytes) : Appended → Prop
  | unfinished {part : Bytes} : part <+: line → w'.inner.total = w.inner.total ++ part →
    w'.count = w.count → w'.bytesWritten = w.bytesWritten → Leaves w w' line .err
  | ended : w'.inner.total = w.inner.total ++ (line ++ [newline]) →
    w'.count = w.count → w'.bytesWritten = w.bytesWritten → Leaves w w' line .err
  | written : w'.inner.file = w.inner.total ++ (line ++ [newline]) →
    w'.inner.total = w.inner.total ++ (line ++ [newline]) →
    w'.count = w.count + 1 → w'.bytesWritten = w.bytesWritten + (line.length + 1) →
    Leaves w w' line (.ok true)

theorem prefix_singleton {part : Bytes} {b : UInt8} (h : part <+: [b]) :
    part = [] ∨ part = [b] := by
  cases part with
  | nil => exact .inl rfl
  | cons c part =>
    obtain ⟨rfl, hrest⟩ := List.cons_prefix_cons.mp h
    rw [List.prefix_nil.mp hrest]
    exact .inr rfl

theorem writeLine_leaves (w : FindingWriter) (line : Bytes) (calls : Calls) :
    w.inner.file <+: (w.writeLine line calls).1.inner.file ∧
      (w.writeLine line calls).1.seenHashes = w.seenHashes ∧
      Leaves w (w.writeLine line calls).1 line (w.writeLine line calls).2 := by
  rw [FindingWriter.writeLine]
  have hfile := @file_writeAll w.inner calls.line line
  by_cases hline : calls.line.ok = true
  · rw [if_neg (ne_false_of_eq_true hline)]
    have htotal : (w.inner.writeAll calls.line line).total = w.inner.total ++ line :=
      total_writeAll_ok hline
    have hfile' := hfile.trans (@file_writeAll _ calls.newline [newline])
    by_cases hnewline : calls.newline.ok = true
    · rw [if_neg (ne_false_of_eq_true hnewline)]
      have htotal' := @total_writeAll_ok (w.inner.writeAll calls.line line) _ [newline] hnewline
      rw [htotal, List.append_assoc] at htotal'
      have hfile'' := hfile'.trans (@file_flush _ calls.flush)
      by_cases hflush : calls.flush.ok = false || calls.sync = false
      · rw [if_pos hflush]
        exact ⟨hfile'', rfl, .ended (total_flush.trans htotal') rfl rfl⟩
      · rw [if_neg hflush]
        have hok : calls.flush.ok = true := by
          cases h : calls.flush.ok with
          | false => exact absurd (by rw [h]; rfl) hflush
          | true => rfl
        exact ⟨hfile'', rfl, .written ((flush_ok hok).trans htotal') (total_flush.trans htotal')
          rfl rfl⟩
    · rw [if_pos (Bool.eq_false_iff.mpr hnewline)]
      obtain ⟨part, hpart, htotal'⟩ :=
        @total_writeAll_failed (w.inner.writeAll calls.line line) _ [newline] hnewline
      rw [htotal, List.append_assoc] at htotal'
      refine ⟨hfile', rfl, ?_⟩
      rcases prefix_singleton hpart with rfl | rfl
      · rw [List.append_nil] at htotal'
        exact .unfinished List.prefix_rfl htotal' rfl rfl
      · exact .ended htotal' rfl rfl
  · rw [if_pos (Bool.eq_false_iff.mpr hline)]
    obtain ⟨part, hpart, htotal⟩ := @total_writeAll_failed w.inner calls.line line hline
    exact ⟨hfile, rfl, .unfinished hpart htotal rfl rfl⟩

theorem append_leaves {w : FindingWriter} (h : finding.dedupHash ∉ w.seenHashes) (calls : Calls) :
    w.inner.file <+: (w.append codec finding calls).1.inner.file ∧
      (w.append codec finding calls).1.seenHashes = insert finding.dedupHash w.seenHashes ∧
      Leaves w (w.append codec finding calls).1 (codec.toVec finding)
        (w.append codec finding calls).2 := by
  rw [FindingWriter.append, if_neg h]
  by_cases hserialize : calls.serialize = true
  · rw [if_neg (ne_false_of_eq_true hserialize)]
    obtain ⟨hfile, hseen, hleaves⟩ := writeLine_leaves
      { w with seenHashes := insert finding.dedupHash w.seenHashes } (codec.toVec finding) calls
    refine ⟨hfile, hseen, ?_⟩
    generalize FindingWriter.writeLine
      { w with seenHashes := insert finding.dedupHash w.seenHashes } (codec.toVec finding) calls =
        result at hleaves
    obtain ⟨w', r⟩ := result
    cases hleaves with
    | unfinished hpart htotal hcount hbytes => exact .unfinished hpart htotal hcount hbytes
    | ended htotal hcount hbytes => exact .ended htotal hcount hbytes
    | written hfile htotal hcount hbytes => exact .written hfile htotal hcount hbytes
  · rw [if_pos (Bool.eq_false_iff.mpr hserialize)]
    exact ⟨List.prefix_rfl, rfl, .unfinished List.nil_prefix (List.append_nil _).symm rfl rfl⟩

/-- The bytes are the lines of findings with different hashes, and at most one that is not ended.
The accepted ones are among those that have reached the file. -/
structure Invariant (codec : Codec) (s : Session) (lines : List Finding) (tail : Bytes) :
    Prop where
  total : s.writer.inner.total =
    (lines.map codec.toVec).flatMap (· ++ [newline]) ++ tail
  unended : newline ∉ tail
  parses : ∀ finding ∈ lines, codec.parse (codec.toVec finding) = some finding
  distinct : (lines.map Finding.dedupHash).Nodup
  seen : ∀ finding ∈ lines, finding.dedupHash ∈ s.writer.seenHashes
  tried : ∀ hash ∈ s.writer.seenHashes, ∃ row ∈ s.history,
    row.1.dedupHash = hash ∧ row.2 ≠ .ok false
  reached : ∀ finding ∈ accepted s.history,
    codec.parse (codec.toVec finding) = some finding ∧
      codec.toVec finding ∈ Lines.ended newline s.writer.inner.file
  duplicate : ∀ before finding after, s.history = before ++ (finding, .ok false) :: after →
    finding.dedupHash ∈ (accepted before).map Finding.dedupHash
  count : s.writer.count = (accepted s.history).length
  bytes : s.writer.bytesWritten =
    ((accepted s.history).map fun finding => (codec.toVec finding).length + 1).sum

theorem accepted_append (history more : List (Finding × Appended)) :
    accepted (history ++ more) = accepted history ++ accepted more := by
  rw [accepted, List.filter_append, List.map_append]
  rfl

theorem mem_accepted {row : Finding × Appended} (hmem : row ∈ history) (h : row.2 = .ok true) :
    row.1 ∈ accepted history :=
  List.mem_map_of_mem (List.mem_filter.mpr ⟨hmem, decide_eq_true h⟩)

theorem ended_total (h : Invariant codec s lines tail) :
    Lines.ended newline s.writer.inner.file <+: lines.map codec.toVec := by
  have hlines : ∀ l ∈ lines.map codec.toVec, newline ∉ l :=
    List.forall_mem_map.mpr fun finding _ => codec.oneLine finding
  rw [← Lines.ended_flatMap hlines h.unended, ← h.total]
  exact Lines.ended_prefix (List.prefix_append _ _)

/-- The findings of the file are the first of the lines. -/
theorem findings_initial (h : Invariant codec s lines tail) : findings codec s.writer <+: lines := by
  have hall : (lines.map codec.toVec).filterMap codec.parse = lines := by
    rw [List.filterMap_map]
    exact (List.filterMap_congr h.parses).trans List.filterMap_some
  have hprefix := (ended_total h).filterMap codec.parse
  rwa [hall] at hprefix

theorem Invariant.survives (h : Invariant codec s lines tail) : Survives codec s := by
  refine ⟨h.duplicate, fun finding hmem => ?_, ?_, h.count, h.bytes⟩
  · obtain ⟨hparse, hline⟩ := h.reached finding hmem
    exact List.mem_filterMap.mpr ⟨_, hline, hparse⟩
  · exact h.distinct.sublist ((findings_initial h).sublist.map _)

theorem invariant_start : Invariant codec .start [] [] where
  total := rfl
  unended := List.not_mem_nil
  parses _ hmem := absurd hmem List.not_mem_nil
  distinct := List.nodup_nil
  seen _ hmem := absurd hmem List.not_mem_nil
  tried _ hmem := absurd hmem (Finset.notMem_empty _)
  reached _ hmem := absurd hmem List.not_mem_nil
  duplicate before finding after h := absurd (congrArg List.length h) (by
    rw [List.length_append, List.length_cons]
    exact (Nat.succ_ne_zero _).symm)
  count := rfl
  bytes := rfl

/-- Where the duplicates of a history with one more append stand. -/
theorem duplicate_append {row : Finding × Appended}
    (h : ∀ before finding after, history = before ++ (finding, .ok false) :: after →
      finding.dedupHash ∈ (accepted before).map Finding.dedupHash)
    (hlast : row.2 = .ok false → row.1.dedupHash ∈ (accepted history).map Finding.dedupHash)
    (before : List (Finding × Appended)) (finding : Finding) (after : List (Finding × Appended))
    (heq : history ++ [row] = before ++ (finding, .ok false) :: after) :
    finding.dedupHash ∈ (accepted before).map Finding.dedupHash := by
  rcases List.eq_nil_or_concat after with rfl | ⟨after, last, rfl⟩
  · obtain ⟨rfl, hrow⟩ := List.append_inj' heq rfl
    cases List.cons.inj hrow |>.1
    exact hlast rfl
  · rw [List.concat_eq_append, ← List.cons_append, ← List.append_assoc] at heq
    exact h before finding after (List.append_inj' heq rfl).1

/-- A line that is not ended is seen at the end of the bytes. -/
theorem tail_eq_nil (h : Invariant codec s lines tail)
    (hfinished : s.writer.inner.total = [] ∨
      s.writer.inner.total.getLast? = some newline) : tail = [] := by
  rcases List.eq_nil_or_concat tail with hnil | ⟨front, last, hlast⟩
  · exact hnil
  · rw [List.concat_eq_append] at hlast
    have hmem : last ∈ tail := by
      rw [hlast]
      exact List.mem_append_right _ List.mem_cons_self
    rw [h.total, hlast, ← List.append_assoc] at hfinished
    rcases hfinished with hnil | hgetLast
    · exact absurd hnil (List.append_ne_nil_of_right_ne_nil _ (List.cons_ne_nil _ _))
    · rw [List.getLast?_concat, Option.some.injEq] at hgetLast
      exact absurd (hgetLast ▸ hmem) h.unended

theorem session_append_seen (h : finding.dedupHash ∈ s.writer.seenHashes) :
    s.append codec (finding, calls) = ⟨s.writer, s.history ++ [(finding, .ok false)]⟩ := by
  rw [Session.append, FindingWriter.append, if_pos h]

/-- The step lemma for a finding whose hash has been seen. -/
theorem Invariant.step_seen (h : Invariant codec s lines tail)
    (hstep : Unspoilt codec s finding) (hseen : finding.dedupHash ∈ s.writer.seenHashes) :
    Invariant codec (s.append codec (finding, calls)) lines tail := by
  rw [session_append_seen hseen]
  have haccepted : accepted (s.history ++ [(finding, .ok false)]) = accepted s.history := by
    rw [accepted_append]
    exact List.append_nil _
  have hearlier : finding.dedupHash ∈ (accepted s.history).map Finding.dedupHash := by
    obtain ⟨row, hrow, hhash, hresult⟩ := h.tried _ hseen
    cases hcase : row.2 with
    | err => exact absurd hhash (hstep.fresh row hrow hcase)
    | ok written =>
      cases written with
      | false => exact absurd hcase hresult
      | true => exact List.mem_map.mpr ⟨row.1, mem_accepted hrow hcase, hhash⟩
  exact {
    total := h.total
    unended := h.unended
    parses := h.parses
    distinct := h.distinct
    seen := h.seen
    tried := fun hash hmem => by
      obtain ⟨row, hrow, hcase⟩ := h.tried hash hmem
      exact ⟨row, List.mem_append_left _ hrow, hcase⟩
    reached := by
      rw [haccepted]
      exact h.reached
    duplicate := duplicate_append h.duplicate fun _ => hearlier
    count := by
      rw [haccepted]
      exact h.count
    bytes := by
      rw [haccepted]
      exact h.bytes }

theorem accepted_ok : accepted [(finding, .ok true)] = [finding] := rfl

theorem accepted_err : accepted [(finding, .err)] = [] := rfl

/-- What an append of a new finding adds to the invariant. -/
theorem Invariant.extend {w' : FindingWriter} {r : Appended} {lines' : List Finding}
    {tail' : Bytes} (h : Invariant codec s lines tail) (hstep : Unspoilt codec s finding)
    (hnew : finding.dedupHash ∉ s.writer.seenHashes)
    (hfile : s.writer.inner.file <+: w'.inner.file)
    (hseen : w'.seenHashes = insert finding.dedupHash s.writer.seenHashes) (hr : r ≠ .ok false)
    (hlines : lines' = lines ∨ lines' = lines ++ [finding])
    (htotal : w'.inner.total = (lines'.map codec.toVec).flatMap (· ++ [newline]) ++ tail')
    (htail : newline ∉ tail')
    (hreached : r = .ok true → codec.toVec finding ∈ Lines.ended newline w'.inner.file)
    (hcount : w'.count = (accepted (s.history ++ [(finding, r)])).length)
    (hbytes : w'.bytesWritten = ((accepted (s.history ++ [(finding, r)])).map fun finding =>
      (codec.toVec finding).length + 1).sum) :
    Invariant codec ⟨w', s.history ++ [(finding, r)]⟩ lines' tail' := by
  have hmem : ∀ g ∈ lines', g ∈ lines ∨ g = finding := by
    intro g hg
    rcases hlines with rfl | rfl
    · exact .inl hg
    · exact (List.mem_append.mp hg).imp_right List.mem_singleton.mp
  refine ⟨htotal, htail, fun g hg => ?_, ?_, fun g hg => ?_, fun hash hhash => ?_,
    fun g hg => ?_, duplicate_append h.duplicate fun hfalse => absurd hfalse hr, hcount, hbytes⟩
  · rcases hmem g hg with hg | rfl
    · exact h.parses g hg
    · exact hstep.parses hnew
  · rcases hlines with rfl | rfl
    · exact h.distinct
    · rw [List.map_append, List.nodup_append]
      refine ⟨h.distinct, List.nodup_singleton _, fun hash hhash hash' hhash' heq => ?_⟩
      obtain ⟨g, hg, rfl⟩ := List.mem_map.mp hhash
      rw [List.map_singleton, List.mem_singleton] at hhash'
      exact hnew (hhash' ▸ heq ▸ h.seen g hg)
  · rw [hseen, Finset.mem_insert]
    rcases hmem g hg with hg | rfl
    · exact .inr (h.seen g hg)
    · exact .inl rfl
  · rw [hseen, Finset.mem_insert] at hhash
    rcases hhash with rfl | hhash
    · exact ⟨_, List.mem_append_right _ List.mem_cons_self, rfl, hr⟩
    · obtain ⟨row, hrow, hcase⟩ := h.tried hash hhash
      exact ⟨row, List.mem_append_left _ hrow, hcase⟩
  · rw [accepted_append, List.mem_append] at hg
    rcases hg with hg | hg
    · exact (h.reached g hg).imp_right fun hline => (Lines.ended_prefix hfile).subset hline
    · cases r with
      | err => exact absurd hg List.not_mem_nil
      | ok written =>
        cases written with
        | false => exact absurd rfl hr
        | true =>
          rw [accepted_ok, List.mem_singleton] at hg
          rw [hg]
          exact ⟨hstep.parses hnew, hreached rfl⟩

theorem flatMap_concat_line (h : s.writer.inner.total =
    (lines.map codec.toVec).flatMap (· ++ [newline]) ++ []) (finding : Finding) :
    s.writer.inner.total ++ (codec.toVec finding ++ [newline]) =
      ((lines ++ [finding]).map codec.toVec).flatMap (· ++ [newline]) ++ [] := by
  rw [h, List.append_nil, List.append_nil, List.map_append, List.flatMap_append, List.map_singleton,
    List.flatMap_singleton]

/-- The step lemma for a new finding. -/
theorem Invariant.step_new (h : Invariant codec s lines tail) (hstep : Unspoilt codec s finding)
    (hnew : finding.dedupHash ∉ s.writer.seenHashes) :
    ∃ lines' tail', Invariant codec (s.append codec (finding, calls)) lines' tail' := by
  obtain rfl := tail_eq_nil h (hstep.finished hnew)
  obtain ⟨hfile, hseen, hleaves⟩ := @append_leaves codec finding s.writer hnew calls
  rw [Session.append]
  generalize s.writer.append codec finding calls = result at hfile hseen hleaves
  obtain ⟨w', r⟩ := result
  have hline := flatMap_concat_line h.total finding
  cases hleaves with
  | @unfinished part hpart htotal hcount hbytes =>
    have hend : newline ∉ part := fun hmem => codec.oneLine finding (hpart.subset hmem)
    refine ⟨lines, part, h.extend hstep hnew hfile hseen Appended.noConfusion (.inl rfl)
      ?_ hend Appended.noConfusion ?_ ?_⟩
    · rw [htotal, h.total, List.append_nil]
    · rw [accepted_append, accepted_err, List.append_nil]
      exact hcount.trans h.count
    · rw [accepted_append, accepted_err, List.append_nil]
      exact hbytes.trans h.bytes
  | ended htotal hcount hbytes =>
    refine ⟨lines ++ [finding], [], h.extend hstep hnew hfile hseen Appended.noConfusion (.inr rfl)
      (htotal.trans hline) List.not_mem_nil Appended.noConfusion ?_ ?_⟩
    · rw [accepted_append, accepted_err, List.append_nil]
      exact hcount.trans h.count
    · rw [accepted_append, accepted_err, List.append_nil]
      exact hbytes.trans h.bytes
  | written hfile' htotal hcount hbytes =>
    refine ⟨lines ++ [finding], [], h.extend hstep hnew hfile hseen (by decide) (.inr rfl)
      (htotal.trans hline) List.not_mem_nil (fun _ => ?_) ?_ ?_⟩
    · have hlines : ∀ l ∈ (lines ++ [finding]).map codec.toVec, newline ∉ l :=
        List.forall_mem_map.mpr fun finding _ => codec.oneLine finding
      rw [hfile', hline, Lines.ended_flatMap hlines List.not_mem_nil]
      exact List.mem_map_of_mem (List.mem_append_right _ List.mem_cons_self)
    · rw [accepted_append, accepted_ok, List.length_append, List.length_singleton]
      exact hcount.trans (congrArg (· + 1) h.count)
    · rw [accepted_append, accepted_ok, List.map_append, List.sum_append, List.map_singleton,
        List.sum_singleton]
      exact hbytes.trans (congrArg (· + ((codec.toVec finding).length + 1)) h.bytes)

theorem session_append (before : List (Finding × Calls)) (step : Finding × Calls) :
    session codec (before ++ [step]) = (session codec before).append codec step := by
  rw [session, List.foldl_append]
  rfl

/-- The run lemma. -/
theorem exists_invariant {steps : List (Finding × Calls)} (h : Careful codec steps) :
    ∃ lines tail, Invariant codec (session codec steps) lines tail := by
  induction steps using List.reverseRecOn with
  | nil => exact ⟨[], [], invariant_start⟩
  | append_singleton steps step ih =>
    obtain ⟨lines, tail, hinv⟩ := ih fun before other after heq =>
      h before other (after ++ [step]) (by rw [heq, List.append_assoc]; rfl)
    have hstep := h steps step [] rfl
    rw [session_append]
    by_cases hseen : step.1.dedupHash ∈ (session codec steps).writer.seenHashes
    · exact ⟨lines, tail, hinv.step_seen hstep hseen⟩
    · exact hinv.step_new hstep hseen

/-- In every state of a run in which no append is spoilt the findings have survived. -/
theorem careful_survives (codec : Codec) (before after : List (Finding × Calls))
    (h : Careful codec (before ++ after)) : Survives codec (session codec before) := by
  have hbefore : Careful codec before := fun front step rest heq =>
    h front step (rest ++ after) (by rw [heq, List.append_assoc]; rfl)
  obtain ⟨lines, tail, hinv⟩ := exists_invariant hbefore
  exact hinv.survives

theorem careful_nil : Careful codec [] := fun _ _ _ heq =>
  absurd heq.symm (List.append_ne_nil_of_right_ne_nil _ (List.cons_ne_nil _ _))

theorem Careful.concat {steps : List (Finding × Calls)} (h : Careful codec steps)
    {step : Finding × Calls} (hstep : Unspoilt codec (session codec steps) step.1) :
    Careful codec (steps ++ [step]) := by
  intro before other after heq
  rcases List.eq_nil_or_concat after with rfl | ⟨after, last, rfl⟩
  · obtain ⟨rfl, hlast⟩ := List.append_inj' heq rfl
    cases hlast
    exact hstep
  · rw [List.concat_eq_append, ← List.cons_append, ← List.append_assoc] at heq
    exact h before other after (List.append_inj' heq rfl).1

/-- A line that is written to its end leaves none unfinished, whatever becomes of it then. -/
theorem getLast?_session {steps : List (Finding × Calls)} {step : Finding × Calls}
    (h : step.1.dedupHash ∉ (session codec steps).writer.seenHashes)
    (hserialize : step.2.serialize = true) (hline : step.2.line.ok = true)
    (hnewline : step.2.newline.ok = true) :
    (session codec (steps ++ [step])).writer.inner.total.getLast? = some newline := by
  have hwriter : (session codec (steps ++ [step])).writer =
      ((session codec steps).writer.append codec step.1 step.2).1 := by
    rw [session_append]
    rfl
  have htotal := @total_writeAll_ok
    ((session codec steps).writer.inner.writeAll step.2.line (codec.toVec step.1)) _ [newline]
    hnewline
  rw [hwriter, FindingWriter.append, if_neg h, if_neg (ne_false_of_eq_true hserialize),
    FindingWriter.writeLine, if_neg (ne_false_of_eq_true hline)]
  dsimp only
  rw [if_neg (ne_false_of_eq_true hnewline)]
  split
  · dsimp only
    rw [total_flush, htotal, List.getLast?_concat]
  · dsimp only
    rw [total_flush, htotal, List.getLast?_concat]

def sampleFinding (id hash : String) : Finding where
  schema := "fuzzer_finding/1"
  findingId := id
  inputId := "blake3-1234"
  kind := .crash
  classification := "heap-buffer-overflow"
  signal := some 11
  faultPc := none
  faultSymbol := none
  dedupHash := hash
  reproducerPath := "input.bin"
  targetId := none
  distanceAtCrash := some 0

def ascii (text : String) : Bytes := text.toList.map fun c => UInt8.ofNat c.toNat

def sampleLine (finding : Finding) : Bytes :=
  ["\x7b\"schema\":\"fuzzer_finding/1\",", "\"finding_id\":\"", finding.findingId,
    "\",\"input_id\":\"blake3-1234\",", "\"kind\":\"crash\",",
    "\"classification\":\"heap-buffer-overflow\",", "\"signal\":11,", "\"fault_pc\":null,",
    "\"fault_symbol\":null,", "\"dedup_hash\":\"", finding.dedupHash,
    "\",\"reproducer_path\":\"input.bin\",", "\"target_id\":null,",
    "\"distance_at_crash\":0\x7d"].flatMap ascii

/-- Two findings, and the second again under another hash. -/
def samples : List Finding :=
  [sampleFinding "a" "hash-1", sampleFinding "b" "hash-2", sampleFinding "b" "hash-3"]

theorem newline_not_mem_sampleLine :
    ∀ finding ∈ samples, newline ∉ sampleLine finding := by
  intro finding hfinding
  rw [sampleLine, List.mem_flatMap, not_exists]
  rintro piece ⟨hmem, hnewline⟩
  revert piece
  simp only [samples, List.mem_cons, List.not_mem_nil, or_false] at hfinding
  rcases hfinding with rfl | rfl | rfl
  all_goals
    simp only [sampleFinding, List.forall_mem_cons, List.not_mem_nil, false_imp_iff, implies_true,
      and_true]
    decide

/-- The format at the samples. -/
def sampleCodec : Codec where
  toVec finding := if finding ∈ samples then sampleLine finding else []
  parse line := samples.find? fun finding => sampleLine finding = line
  oneLine finding := by
    split
    · exact newline_not_mem_sampleLine finding ‹_›
    · exact List.not_mem_nil

set_option maxRecDepth 8000 in
theorem parse_sample : ∀ finding ∈ samples,
    sampleCodec.parse (sampleCodec.toVec finding) = some finding := by
  decide

def fine : Calls := ⟨true, ⟨true, 0⟩, ⟨true, 0⟩, ⟨true, 0⟩, true⟩

def first : Finding × Calls := (sampleFinding "a" "hash-1", fine)

def failed : Finding × Calls := (sampleFinding "b" "hash-2", { fine with sync := false })

/-- The finding whose sync failed, under another hash. -/
def retried : Finding × Calls := (sampleFinding "b" "hash-3", fine)

theorem careful_survives_sample :
    Survives sampleCodec (session sampleCodec [first, failed, retried, first]) ∧
      (session sampleCodec [first, failed, retried, first]).history.map Prod.snd =
        [.ok true, .err, .ok true, .ok false] := by
  have hfirst : Careful sampleCodec ([] ++ [first]) := careful_nil.concat
    ⟨fun row hrow => absurd hrow List.not_mem_nil, fun _ => parse_sample _ (by decide),
      fun _ => .inl rfl⟩
  have hsecond : Careful sampleCodec ([] ++ [first] ++ [failed]) := hfirst.concat
    ⟨by decide, fun _ => parse_sample _ (by decide),
      fun _ => .inr (getLast?_session (by decide) rfl rfl rfl)⟩
  have hthird : Careful sampleCodec ([] ++ [first] ++ [failed] ++ [retried]) := hsecond.concat
    ⟨by decide, fun _ => parse_sample _ (by decide),
      fun _ => .inr (getLast?_session (by decide) rfl rfl rfl)⟩
  have hseen : first.1.dedupHash ∈
      (session sampleCodec ([] ++ [first] ++ [failed] ++ [retried])).writer.seenHashes := by decide
  have hall : Careful sampleCodec ([] ++ [first] ++ [failed] ++ [retried] ++ [first]) :=
    hthird.concat ⟨by decide, fun hnew => absurd hseen hnew, fun hnew => absurd hseen hnew⟩
  exact ⟨careful_survives sampleCodec [first, failed, retried, first] [] hall, by decide⟩

/-- A finding whose sync failed counts as seen. -/
theorem failed_finding_is_duplicate : ¬ ∀ codec steps, Survives codec (session codec steps) := by
  intro h
  have hsurvives := h sampleCodec
    [(sampleFinding "a" "hash-1", { fine with sync := false }),
      (sampleFinding "a" "hash-1", fine)]
  have hdup := hsurvives.duplicate [(sampleFinding "a" "hash-1", .err)]
    (sampleFinding "a" "hash-1") [] (by decide)
  exact absurd hdup (by decide)

end Axe.Fuzzer.Findings
