import Axe.Concolic.Smt2Backend
import Axe.Concolic.ModelTextReads

/-!
# The core of an unsatisfiable query

The emitter asks for a model of every query, so the reply to an unsatisfiable one has an answer to
`get-model` between the verdict and the core. Here is what that answer may be for the core to be
read back: nothing that looks like an error, and nothing that looks like another core.
-/
namespace Axe.Concolic

section Lines
variable {s t : List Char}

/-- A break splits a list into the parts in front of it and those behind it. -/
theorem splitBreaks_at_break {α : Type} {isBreak : α → Bool} {b : α} (hb : isBreak b = true)
    (l l' : List α) :
    splitBreaks isBreak (l ++ b :: l') = splitBreaks isBreak l ++ splitBreaks isBreak l' := by
  induction l with
  | nil => simp [splitBreaks, hb]
  | cons a l ih =>
    have hne : splitBreaks isBreak l ≠ [] := splitBreaks_ne_nil l
    obtain ⟨first, rest, h⟩ := List.exists_cons_of_ne_nil hne
    rw [List.cons_append, splitBreaks, splitBreaks, ih, h]
    split <;> simp

theorem splitBreaks_single {α : Type} {isBreak : α → Bool} {l : List α}
    (h : ∀ a ∈ l, isBreak a = false) : splitBreaks isBreak l = [l] := by
  have := splitBreaks_append h []
  simpa [splitBreaks] using this

/-- What is trimmed off a line does not matter, nor does an empty line at the end. -/
theorem strLines_trim (s : List Char) : ∃ tail, (tail = [] ∨ tail = [[]]) ∧
    (splitBreaks (· = '\n') s).map trim = (strLines s).map trim ++ tail := by
  have hstrip : ∀ lines : List (List Char),
      (lines.map stripCarriageReturn).map trim = lines.map trim := fun lines => by
    rw [List.map_map]
    exact List.map_congr_left fun line _ => trim_stripCarriageReturn line
  unfold strLines
  obtain ⟨init, last, hparts⟩ := List.eq_nil_or_concat'
    (splitBreaks (fun c : Char => decide (c = '\n')) s) |>.resolve_left (splitBreaks_ne_nil s)
  rw [hparts]
  simp only [List.dropLast_concat, List.getLast?_concat, List.map_append]
  split
  · rename_i h
    cases h
  · rename_i h
    cases h
    exact ⟨[[]], .inr rfl, by rw [hstrip]; rfl⟩
  · rename_i h
    cases h
    exact ⟨[], .inl rfl, by rw [List.map_append, hstrip, List.append_nil]⟩

theorem strLines_foldl_trim {β : Type} (f : β → List Char → β) (hf : ∀ b, f b [] = b) (b : β) :
    (strLines s).foldl (fun b line => f b (trim line)) b =
      (splitBreaks (· = '\n') s).foldl (fun b line => f b (trim line)) b := by
  obtain ⟨tail, htail, h⟩ := strLines_trim s
  have hmap : ∀ lines : List (List Char),
      lines.foldl (fun b line => f b (trim line)) b = (lines.map trim).foldl f b := fun lines => by
    rw [List.foldl_map]
  rw [hmap, hmap, h, List.foldl_append]
  rcases htail with rfl | rfl
  · rfl
  · rw [List.foldl_cons, List.foldl_nil, hf]

theorem strLines_findSome_trim {β : Type} (f : List Char → Option β) (hf : f [] = none) :
    (strLines s).findSome? (fun line => f (trim line)) =
      (splitBreaks (· = '\n') s).findSome? fun line => f (trim line) := by
  obtain ⟨tail, htail, h⟩ := strLines_trim s
  have hmap : ∀ lines : List (List Char),
      lines.findSome? (fun line => f (trim line)) = (lines.map trim).findSome? f := fun lines => by
    rw [List.findSome?_map]
    rfl
  rw [hmap, hmap, h, List.findSome?_append]
  rcases htail with rfl | rfl
  · simp
  · simp [hf]

theorem strLines_any_trim (f : List Char → Bool) (hf : f [] = false) :
    (strLines s).any (fun line => f (trim line)) =
      (splitBreaks (· = '\n') s).any fun line => f (trim line) := by
  obtain ⟨tail, htail, h⟩ := strLines_trim s
  have hmap : ∀ lines : List (List Char),
      lines.any (fun line => f (trim line)) = (lines.map trim).any f := fun lines => by
    rw [List.any_map]
    rfl
  rw [hmap, hmap, h, List.any_append]
  rcases htail with rfl | rfl
  · simp
  · simp [hf]

theorem mem_of_mem_trim {c : Char} (h : c ∈ trim s) : c ∈ s := by
  have h := List.mem_reverse.mp h
  have h := List.mem_reverse.mp ((List.dropWhile_suffix _).subset h)
  exact (List.dropWhile_suffix _).subset h

end Lines

section Names

/-- The characters of the names of assertions. -/
def NameChar (c : Char) : Prop := c.isDigit = true ∨ c ∈ ['c', '_', 'T', 'G']

theorem constraintName_chars (idx : Nat) : (constraintName idx).toList =
    'c' :: '_' :: (List.replicate (4 - (Nat.toDigits 10 idx).length) '0' ++ Nat.toDigits 10 idx) := by
  rw [constraintName, String.toList_append, String.toList_ofList, String.toList_ofList]
  rfl

theorem constraintName_digit {idx : Nat} {c : Char}
    (h : c ∈ List.replicate (4 - (Nat.toDigits 10 idx).length) '0' ++ Nat.toDigits 10 idx) :
    c.isDigit = true := by
  rcases List.mem_append.mp h with h | h
  · rw [List.eq_of_mem_replicate h]
    rfl
  · exact Nat.isDigit_of_mem_toDigits (by decide) (by decide) h

theorem constraintName_inj {i j : Nat} (h : constraintName i = constraintName j) : i = j := by
  have h := congrArg String.toList h
  rw [constraintName_chars, constraintName_chars] at h
  have h := congrArg (digits 10) (List.cons.inj (List.cons.inj h).2).2
  rw [digits_padded (by decide) (by decide), digits_padded (by decide) (by decide)] at h
  exact Option.some.inj h

theorem constraintName_ne_target (idx : Nat) : constraintName idx ≠ "c_TGT" := by
  intro h
  have h := congrArg String.toList h
  rw [constraintName_chars] at h
  have h : _ = ['T', 'G', 'T'] := (List.cons.inj (List.cons.inj h).2).2
  have hmem : 'T' ∈ ['T', 'G', 'T'] := List.mem_cons_self
  rw [← h] at hmem
  exact absurd (constraintName_digit hmem) (by decide)

variable {query : BranchQuery} {dag : ExprDag} {emitted : EmittedQuery}

theorem foldlM_emitAssert_nameMap {l : List (NodeId × Nat)} {start : EmittedQuery}
    (h : l.foldlM (emitAssert dag) start = some emitted) :
    emitted.nameMap = start.nameMap ++ l.map fun c => (constraintName c.2, c.1) := by
  induction l generalizing start with
  | nil =>
    cases h
    simp
  | cons c l ih =>
    rw [List.foldlM_cons] at h
    obtain ⟨next, hnext, h⟩ := Option.bind_eq_some_iff.mp h
    obtain ⟨body, -, hnext⟩ := Option.bind_eq_some_iff.mp hnext
    cases hnext
    rw [ih h, List.map_cons, List.append_assoc, List.singleton_append]

/-- The names in the order of the assertions, the target last. -/
theorem emitQuery_nameMap (h : emitQuery query dag = some emitted) :
    emitted.nameMap = query.pathConstraints.zipIdx.map (fun c => (constraintName c.2, c.1)) ++
      [("c_TGT", query.targetBranch)] := by
  obtain ⟨asserted, hasserted, h⟩ := Option.bind_eq_some_iff.mp h
  obtain ⟨target, -, h⟩ := Option.bind_eq_some_iff.mp h
  cases h
  rw [foldlM_emitAssert_nameMap hasserted]
  rfl

theorem emitted_names (h : emitQuery query dag = some emitted) :
    emitted.nameMap.map Prod.fst =
      (List.range query.pathConstraints.length).map constraintName ++ ["c_TGT"] := by
  have hidx : query.pathConstraints.zipIdx.map (fun c => constraintName c.2) =
      (query.pathConstraints.zipIdx.map Prod.snd).map constraintName := by
    rw [List.map_map]
    rfl
  rw [List.zipIdx_map_snd, ← List.range_eq_range'] at hidx
  rw [emitQuery_nameMap h, List.map_append, List.map_map]
  exact congrArg (· ++ _) hidx

/-- No two assertions have the same name. -/
theorem emitted_names_nodup (h : emitQuery query dag = some emitted) :
    (emitted.nameMap.map Prod.fst).Nodup := by
  rw [emitted_names h, List.nodup_append]
  refine ⟨List.nodup_range.map fun _ _ => constraintName_inj, by simp, fun a ha b hb => ?_⟩
  obtain ⟨i, -, rfl⟩ := List.mem_map.mp ha
  rw [List.mem_singleton.mp hb]
  exact constraintName_ne_target i

/-- A name starts with `c_` and is made of few characters. -/
theorem emitted_name_chars (h : emitQuery query dag = some emitted) {name : String}
    (hname : name ∈ emitted.nameMap.map Prod.fst) :
    (∃ t, name.toList = 'c' :: '_' :: t) ∧ ∀ c ∈ name.toList, NameChar c := by
  rw [emitted_names h] at hname
  rcases List.mem_append.mp hname with hname | hname
  · obtain ⟨i, -, rfl⟩ := List.mem_map.mp hname
    rw [constraintName_chars]
    refine ⟨⟨_, rfl⟩, fun c hc => ?_⟩
    rcases List.mem_cons.mp hc with rfl | hc
    · exact .inr (by simp)
    · rcases List.mem_cons.mp hc with rfl | hc
      · exact .inr (by simp)
      · exact .inl (constraintName_digit hc)
  · rw [List.mem_singleton.mp hname]
    refine ⟨⟨['T', 'G', 'T'], rfl⟩, ?_⟩
    simp [NameChar]

end Names

section Core

theorem NameChar.not_white {c : Char} (h : NameChar c) : isWhiteSpace c = false := by
  rcases h with h | h
  · exact isWhiteSpace_of_plain (plain_of_isDigit h)
  · simp only [List.mem_cons, List.not_mem_nil, or_false] at h
    rcases h with rfl | rfl | rfl | rfl <;> rfl

theorem NameChar.ne {c d : Char} (h : NameChar c) (hd : d.isDigit = false)
    (hd' : d ∉ ['c', '_', 'T', 'G']) : c ≠ d := by
  rintro rfl
  rcases h with h | h
  · rw [hd] at h
    cases h
  · exact hd' h

theorem mem_blanks {bs : List Blank} {c : Char} (h : c ∈ blanks bs) :
    c ∈ [' ', '\t', '\n', '\r'] ∧ isWhiteSpace c = true := by
  obtain ⟨b, -, rfl⟩ := List.mem_map.mp h
  exact ⟨b.2, blank_isWhiteSpace b⟩

theorem splitWhitespace_blanks (bs : List Blank) (s : List Char) :
    splitWhitespace (blanks bs ++ s) = splitWhitespace s := by
  induction bs with
  | nil => rfl
  | cons b bs ih =>
    rw [← ih]
    show (splitBreaks isWhiteSpace (b.1 :: (blanks bs ++ s))).filter _ = _
    rw [splitBreaks, if_pos (blank_isWhiteSpace b), List.filter_cons_of_neg (by simp)]
    rfl

theorem splitWhitespace_word {w : List Char} (hw : ∀ c ∈ w, isWhiteSpace c = false) (hne : w ≠ [])
    {s : List Char} (hs : ∀ c ∈ s.head?, isWhiteSpace c = true) :
    splitWhitespace (w ++ s) = w :: splitWhitespace s := by
  unfold splitWhitespace
  rw [splitBreaks_append hw]
  cases s with
  | nil => simp [splitBreaks, hne]
  | cons c s =>
    rw [splitBreaks, if_pos (hs c (by simp))]
    simp [hne]

variable {nameMap : List (String × NodeId)}

/-- The names as the words of a text that starts with white space, or with the first name. -/
theorem splitWhitespace_entries {entries : List (List Blank × String)} {closing : List Blank}
    (hword : ∀ e ∈ entries, e.2.toList ≠ [] ∧ ∀ c ∈ e.2.toList, isWhiteSpace c = false)
    (hsep : ∀ e ∈ entries.tail, e.1 ≠ []) :
    splitWhitespace (entries.flatMap (fun e => blanks e.1 ++ e.2.toList) ++ blanks closing) =
      entries.map fun e => e.2.toList := by
  induction entries with
  | nil => simpa [splitWhitespace, splitBreaks] using splitWhitespace_blanks closing []
  | cons e entries ih =>
    obtain ⟨hne, hw⟩ := hword e List.mem_cons_self
    have hrest := ih (fun d hd => hword d (List.mem_cons_of_mem _ hd))
      (fun d hd => hsep d (List.mem_of_mem_tail hd))
    rw [List.flatMap_cons, List.append_assoc, List.append_assoc, splitWhitespace_blanks,
      splitWhitespace_word hw hne, hrest, List.map_cons]
    intro c hc
    cases entries with
    | nil =>
      have hmem : c ∈ blanks closing := List.mem_of_mem_head? (by simpa using hc)
      exact (mem_blanks hmem).2
    | cons d entries =>
      obtain ⟨b, bs, hb⟩ := List.exists_cons_of_ne_nil (hsep d (by simp))
      rw [List.flatMap_cons, hb] at hc
      cases hc
      exact blank_isWhiteSpace b

/-- What stands between the parentheses. -/
def CoreAnswer.inner (core : CoreAnswer nameMap) : List Char :=
  core.entries.flatMap (fun e => blanks e.1 ++ e.2.toList) ++ blanks core.closing

theorem CoreAnswer.text_eq (core : CoreAnswer nameMap) : core.text = '(' :: core.inner ++ [')'] :=
  rfl

variable {query : BranchQuery} {dag : ExprDag} {emitted : EmittedQuery}

theorem CoreAnswer.mem_inner (h : emitQuery query dag = some emitted)
    (core : CoreAnswer emitted.nameMap) {c : Char} (hc : c ∈ core.inner) :
    NameChar c ∨ c ∈ [' ', '\t', '\n', '\r'] := by
  rcases List.mem_append.mp hc with hc | hc
  · obtain ⟨e, he, hc⟩ := List.mem_flatMap.mp hc
    rcases List.mem_append.mp hc with hc | hc
    · exact .inr (mem_blanks hc).1
    · exact .inl ((emitted_name_chars h (core.known e he)).2 c hc)
  · exact .inr (mem_blanks hc).1

theorem CoreAnswer.inner_ne (h : emitQuery query dag = some emitted)
    (core : CoreAnswer emitted.nameMap) {d : Char} (hd : d.isDigit = false)
    (hd' : d ∉ ['c', '_', 'T', 'G'] ++ [' ', '\t', '\n', '\r']) : d ∉ core.inner := fun hc => by
  rw [List.mem_append, not_or] at hd'
  rcases core.mem_inner h hc with hc | hc
  · exact hc.ne hd hd'.1 rfl
  · exact hd'.2 hc

/-- No line of a core is taken for an error: there is no `e` in it. -/
theorem CoreAnswer.no_error (h : emitQuery query dag = some emitted)
    (core : CoreAnswer emitted.nameMap) {line : List Char}
    (hline : line ∈ splitBreaks (· = '\n') core.text) : isErrorLine (trim line) = false := by
  rw [isErrorLine, List.isSome_isPrefixOf?_eq_isPrefixOf, Bool.eq_false_iff]
  intro hpre
  have hmem : 'e' ∈ trim line := by
    obtain ⟨rest, hrest⟩ := List.isPrefixOf_iff_prefix.mp hpre
    rw [← hrest]
    simp
  have hmem := (splitBreaks_within hline).subset (mem_of_mem_trim hmem)
  rw [core.text_eq] at hmem
  simp only [List.cons_append, List.mem_cons, List.mem_append, List.not_mem_nil, or_false] at hmem
  rcases hmem with hmem | hmem | hmem
  · exact absurd hmem (by decide)
  · exact core.inner_ne h (by decide) (by decide) hmem
  · exact absurd hmem (by decide)

theorem coreNames_parens {line : List Char} {names : List (List Char)}
    (h : coreNames line = some names) : '(' ∈ line ∧ ')' ∈ line := by
  unfold coreNames at h
  split at h
  · obtain ⟨hlast, -⟩ := Option.ite_none_right_eq_some.mp h
    exact ⟨List.mem_cons_self, List.mem_cons_of_mem _ (List.mem_of_getLast? hlast)⟩
  · cases h

example : coreNames "(c_0000 c_TGT)".toList = some ["c_0000".toList, "c_TGT".toList] := by
  decide

/-- A core on one line is read with all its names. -/
theorem CoreAnswer.coreNames_text (h : emitQuery query dag = some emitted)
    (core : CoreAnswer emitted.nameMap) :
    coreNames (trim core.text) = some (core.names.map String.toList) := by
  have htrim : trim core.text = '(' :: (core.inner ++ [')']) :=
    trim_of_ends (c := '(') (d := ')') rfl rfl
      (by rw [core.text_eq, List.getLast?_concat]) rfl
  have hwords : splitWhitespace core.inner = core.names.map String.toList := by
    rw [CoreAnswer.names, List.map_map]
    refine splitWhitespace_entries (fun e he => ?_) core.separated
    obtain ⟨⟨t, ht⟩, hchars⟩ := emitted_name_chars h (core.known e he)
    exact ⟨by simp [ht], fun c hc => (hchars c hc).not_white⟩
  have hne : core.names.map String.toList ≠ [] := by simp [CoreAnswer.names, core.nonempty]
  have hall : (core.names.map String.toList).all
      (fun t => ("c_".toList.isPrefixOf? t).isSome) = true := by
    rw [List.all_map, List.all_eq_true]
    intro name hname
    obtain ⟨e, he, rfl⟩ := List.mem_map.mp hname
    obtain ⟨⟨t, ht⟩, -⟩ := emitted_name_chars h (core.known e he)
    rw [Function.comp_apply, ht]
    rfl
  have hlast : (core.inner ++ [')']).getLast? = some ')' := List.getLast?_concat
  unfold coreNames
  simp only [htrim, hlast, List.dropLast_concat, hwords, if_pos (And.intro hne hall), if_true]

/-- A core that is broken into lines is not read at all. -/
theorem CoreAnswer.coreNames_broken (h : emitQuery query dag = some emitted)
    (core : CoreAnswer emitted.nameMap) (hbreak : '\n' ∈ core.text) :
    (splitBreaks (· = '\n') core.text).findSome? (fun raw => coreNames (trim raw)) = none := by
  have hinner : '\n' ∈ core.inner := by
    rw [core.text_eq] at hbreak
    simpa using hbreak
  have hopen := core.inner_ne h (d := '(') (by decide) (by decide)
  have hclose := core.inner_ne h (d := ')') (by decide) (by decide)
  obtain ⟨l, l', hsplit⟩ := List.append_of_mem hinner
  rw [hsplit] at hopen hclose
  have htext : core.text = '(' :: l ++ '\n' :: (l' ++ [')']) := by
    rw [core.text_eq, hsplit]
    simp
  rw [List.findSome?_eq_none_iff, htext, splitBreaks_at_break (by simp)]
  intro line hline
  by_contra hne
  obtain ⟨names, hnames⟩ := Option.ne_none_iff_exists'.mp hne
  obtain ⟨ho, hc⟩ := coreNames_parens hnames
  rcases List.mem_append.mp hline with hline | hline
  · have := (splitBreaks_within hline).subset (mem_of_mem_trim hc)
    simp only [List.mem_cons] at this
    rcases this with this | this
    · exact absurd this (by decide)
    · exact hclose (by simp [this])
  · have := (splitBreaks_within hline).subset (mem_of_mem_trim ho)
    simp only [List.mem_append, List.mem_singleton] at this
    rcases this with this | this
    · exact hopen (by simp [this])
    · exact absurd this (by decide)

end Core

section Reply
variable {query : BranchQuery} {dag : ExprDag} {emitted : EmittedQuery}

theorem unsatReply_lines {nameMap : List (String × NodeId)} (answer : List Char)
    (core : CoreAnswer nameMap) :
    splitBreaks (· = '\n') (unsatReply answer core) =
      "unsat".toList :: splitBreaks (· = '\n') answer ++
        splitBreaks (· = '\n') core.text ++ [[]] := by
  have hlines : ∀ w a c : List Char,
      splitBreaks (fun c : Char => decide (c = '\n')) (w ++ '\n' :: (a ++ '\n' :: (c ++ ['\n']))) =
        splitBreaks (· = '\n') w ++ splitBreaks (· = '\n') a ++ splitBreaks (· = '\n') c ++ [[]] := by
    intro w a c
    rw [splitBreaks_at_break (by simp), splitBreaks_at_break (by simp),
      splitBreaks_at_break (by simp)]
    simp [splitBreaks]
  have hverdict : splitBreaks (fun c : Char => decide (c = '\n')) "unsat".toList =
      ["unsat".toList] := by decide
  have hreply := hlines "unsat".toList answer core.text
  rw [hverdict] at hreply
  exact hreply
/-- Behind the verdict a scan only looks for errors. -/
theorem scan_behind (word : List Char) (e : Bool) (lines : List (List Char)) :
    lines.foldl (fun scan raw => scanLine scan (trim raw)) ⟨some word, e⟩ =
      ⟨some word, e || lines.any fun line => isErrorLine (trim line)⟩ := by
  induction lines generalizing e with
  | nil => simp
  | cons line lines ih =>
    have hstep : scanLine ⟨some word, e⟩ (trim line) =
        ⟨some word, e || isErrorLine (trim line)⟩ := by
      have hskip : trim line = [] ∨ (trim line).head? = some ';' →
          isErrorLine (trim line) = false := by
        rintro (h | h)
        · rw [h]
          rfl
        · obtain ⟨rest, hrest⟩ := List.head?_eq_some_iff.mp h
          rw [hrest]
          rfl
      unfold scanLine
      split
      · rename_i h
        rw [hskip h, Bool.or_false]
      · split
        · rename_i h
          rw [h, Bool.or_true]
        · rename_i h
          rw [if_neg (by simp), Bool.eq_false_iff.mpr h, Bool.or_false]
    rw [List.foldl_cons, hstep, ih, List.any_cons, Bool.or_assoc]

theorem scan_reply (h : emitQuery query dag = some emitted) (answer : List Char)
    (core : CoreAnswer emitted.nameMap) :
    (strLines (unsatReply answer core)).foldl (fun scan raw => scanLine scan (trim raw))
        ⟨none, false⟩ =
      ⟨some "unsat".toList, (strLines answer).any fun line => isErrorLine (trim line)⟩ := by
  have hcore : (splitBreaks (fun c : Char => decide (c = '\n')) core.text).any
      (fun line => isErrorLine (trim line)) = false := by
    rw [List.any_eq_false]
    exact fun line hline => by simp [core.no_error h hline]
  have hfirst : scanLine ⟨none, false⟩ (trim "unsat".toList) = ⟨some "unsat".toList, false⟩ := by
    decide
  have hlast : isErrorLine (trim []) = false := rfl
  rw [strLines_foldl_trim scanLine (fun _ => rfl), unsatReply_lines, List.cons_append,
    List.cons_append, List.foldl_cons, hfirst, scan_behind, List.any_append, List.any_append, hcore,
    strLines_any_trim isErrorLine rfl, List.any_cons, List.any_nil, hlast]
  simp

/-- The names of the reply: those of the answer if it has a line of names, else those of the
core when it is one line. -/
theorem parseUnsatCore_reply (h : emitQuery query dag = some emitted) (answer : List Char)
    (core : CoreAnswer emitted.nameMap) :
    parseUnsatCore (unsatReply answer core) =
      match firstCore answer with
      | some names => names
      | none => if '\n' ∈ core.text then [] else core.names.map String.toList := by
  have hcore : (splitBreaks (fun c : Char => decide (c = '\n')) core.text).findSome?
        (fun raw => coreNames (trim raw)) =
      if '\n' ∈ core.text then none else some (core.names.map String.toList) := by
    split
    · rename_i hbreak
      exact core.coreNames_broken h hbreak
    · rename_i hbreak
      have hline : ∀ c ∈ core.text, decide (c = '\n') = false := fun c hc => by
        rw [decide_eq_false_iff_not]
        rintro rfl
        exact hbreak hc
      rw [splitBreaks_single hline, List.findSome?_singleton, core.coreNames_text h]
  have hfirst : coreNames (trim "unsat".toList) = none := by decide
  have hlast : coreNames (trim []) = none := rfl
  have hlines : firstCore (unsatReply answer core) = (firstCore answer).or
      (if '\n' ∈ core.text then none else some (core.names.map String.toList)) := by
    rw [firstCore, firstCore, strLines_findSome_trim coreNames rfl,
      strLines_findSome_trim coreNames rfl, unsatReply_lines, List.cons_append, List.cons_append,
      List.findSome?_cons, hfirst]
    dsimp only
    rw [List.findSome?_append, List.findSome?_append, hcore, List.findSome?_singleton, hlast,
      Option.or_none]
  rw [parseUnsatCore, hlines]
  cases firstCore answer with
  | some names => rfl
  | none => split <;> rfl

/-- The report on a reply to an unsatisfiable query. -/
theorem parseZ3Response_reply (h : emitQuery query dag = some emitted) (answer : List Char)
    (core : CoreAnswer emitted.nameMap) (elapsed : Nat) :
    parseZ3Response (unsatReply answer core) elapsed emitted query =
      if parseUnsatCore (unsatReply answer core) ≠ [] ∧
          ∀ line ∈ strLines answer, isErrorLine (trim line) = false then
        ⟨.unsat, elapsed / 10 ^ 6 % 2 ^ 64, none, emitted.smt2, none,
          (parseUnsatCore (unsatReply answer core)).filterMap (lookupName emitted.nameMap), true,
          backendName⟩
      else undecided .unknown (elapsed / 10 ^ 6 % 2 ^ 64) emitted.smt2
        "external_unsat_without_core" := by
  have hcond : (!(parseUnsatCore (unsatReply answer core)).isEmpty &&
      !(strLines answer).any fun line => isErrorLine (trim line)) = true ↔
      parseUnsatCore (unsatReply answer core) ≠ [] ∧
        ∀ line ∈ strLines answer, isErrorLine (trim line) = false := by
    simp
  unfold parseZ3Response
  dsimp only
  rw [scan_reply h]
  simp only [hcond, String.ofList_toList]

/-- What is not white space at the front stays there. -/
theorem trim_word_append {w : List Char} (hw : ∀ c ∈ w, isWhiteSpace c = false) (s : List Char) :
    ∃ u, trim (w ++ s) = w ++ u := by
  cases w with
  | nil => exact ⟨_, rfl⟩
  | cons c w =>
    have hfront : ((c :: w) ++ s).dropWhile isWhiteSpace = (c :: w) ++ s :=
      List.dropWhile_cons_of_neg (by simp [hw c List.mem_cons_self])
    rw [trim, hfront, List.reverse_append, List.dropWhile_append]
    split
    · have hall : (c :: w).reverse.dropWhile isWhiteSpace = (c :: w).reverse := by
        rw [List.dropWhile_eq_self_iff]
        intro hlen
        exact Bool.eq_false_iff.mp (hw _ (List.mem_reverse.mp (List.getElem_mem hlen)))
      exact ⟨[], by rw [hall, List.reverse_reverse, List.append_nil]⟩
    · exact ⟨_, by rw [List.reverse_append, List.reverse_reverse]⟩

/-- With distinct names, the lookup of a name finds the node it stands for. -/
theorem lookupName_eq_some {nameMap : List (String × NodeId)}
    (hnodup : (nameMap.map Prod.fst).Nodup) {name : String} {id : NodeId} :
    lookupName nameMap name.toList = some id ↔ (name, id) ∈ nameMap := by
  induction nameMap with
  | nil => simp [lookupName]
  | cons p nameMap ih =>
    rw [List.map_cons, List.nodup_cons] at hnodup
    by_cases hp : p.1 = name
    · have hfound : lookupName (p :: nameMap) name.toList = some p.2 := by
        rw [lookupName, List.find?_cons_of_pos (by simp [hp]), Option.map_some]
      rw [hfound, Option.some_inj, List.mem_cons]
      constructor
      · rintro rfl
        exact .inl (by rw [← hp])
      · rintro (rfl | hmem)
        · rfl
        · exact absurd (hp ▸ List.mem_map_of_mem hmem) hnodup.1
    · have hskip : lookupName (p :: nameMap) name.toList = lookupName nameMap name.toList := by
        rw [lookupName, List.find?_cons_of_neg (by simpa [String.toList_inj] using hp)]
        rfl
      rw [hskip, ih hnodup.2, List.mem_cons, or_iff_right]
      rintro rfl
      exact hp rfl

/-- The nodes that the names stand for are the ones that the lookups give. -/
theorem forall₂_lookup {nameMap : List (String × NodeId)} (hnodup : (nameMap.map Prod.fst).Nodup)
    {names : List String} (hknown : ∀ name ∈ names, name ∈ nameMap.map Prod.fst)
    {ids : List NodeId} :
    List.Forall₂ (fun name id => (name, id) ∈ nameMap) names ids ↔
      ids = names.filterMap fun name => lookupName nameMap name.toList := by
  induction names generalizing ids with
  | nil => rw [List.forall₂_nil_left_iff, List.filterMap_nil]
  | cons name names ih =>
    obtain ⟨p, hp, rfl⟩ := List.mem_map.mp (hknown name List.mem_cons_self)
    have hlookup : (fun name : String => lookupName nameMap name.toList) p.1 = some p.2 :=
      (lookupName_eq_some hnodup).mpr hp
    have ih := @ih fun n hn => hknown n (List.mem_cons_of_mem _ hn)
    rw [List.filterMap_cons_some (f := fun name : String => lookupName nameMap name.toList) hlookup,
      List.forall₂_cons_left_iff]
    constructor
    · rintro ⟨id, ids, hid, hids, rfl⟩
      have hid := (lookupName_eq_some hnodup).mpr hid
      rw [← Option.some.inj (hlookup.symm.trans hid), ih.mp hids]
    · rintro rfl
      exact ⟨_, _, hp, ih.mpr rfl, rfl⟩

theorem firstCore_ne_nil {s : List Char} {names : List (List Char)} (h : firstCore s = some names) :
    names ≠ [] := by
  obtain ⟨raw, -, h⟩ := List.exists_of_findSome?_eq_some h
  unfold coreNames at h
  split at h
  · obtain ⟨-, h⟩ := Option.ite_none_right_eq_some.mp h
    obtain ⟨⟨hne, -⟩, h⟩ := Option.ite_none_right_eq_some.mp h
    exact Option.some.inj h ▸ hne
  · cases h

/-- The core comes back exactly when the answer to `get-model` does not disturb it. -/
theorem readsCore_iff (h : emitQuery query dag = some emitted) (answer : List Char)
    (core : CoreAnswer emitted.nameMap) (elapsed : Nat) :
    ReadsCore emitted.nameMap core.names
        (parseZ3Response (unsatReply answer core) elapsed emitted query) ↔
      Undisturbed answer core := by
  have hknown : ∀ name ∈ core.names, name ∈ emitted.nameMap.map Prod.fst := fun name hname => by
    obtain ⟨e, he, rfl⟩ := List.mem_map.mp hname
    exact core.known e he
  have hne : core.names.map String.toList ≠ [] := by simp [CoreAnswer.names, core.nonempty]
  have hids : (core.names.map String.toList).filterMap (lookupName emitted.nameMap) =
      core.names.filterMap fun name => lookupName emitted.nameMap name.toList :=
    List.filterMap_map ..
  rw [parseZ3Response_reply h, parseUnsatCore_reply h, ReadsCore, Undisturbed]
  cases hfirst : firstCore answer with
  | some names =>
    dsimp only
    by_cases herror : ∀ line ∈ strLines answer, isErrorLine (trim line) = false
    · rw [if_pos ⟨firstCore_ne_nil hfirst, herror⟩]
      simp only [true_and, forall₂_lookup (emitted_names_nodup h) hknown]
      exact ⟨fun hcore => ⟨herror, hcore⟩, And.right⟩
    · rw [if_neg fun hc => herror hc.2]
      exact ⟨fun hc => (by cases hc.1), fun hc => absurd hc.1 herror⟩
  | none =>
    dsimp only
    by_cases hgood : (∀ line ∈ strLines answer, isErrorLine (trim line) = false) ∧
        '\n' ∉ core.text
    · rw [if_neg hgood.2, if_pos ⟨hne, hgood.1⟩]
      simp only [true_and, forall₂_lookup (emitted_names_nodup h) hknown, hids]
      exact ⟨fun _ => hgood, fun _ => trivial⟩
    · have hcond : ¬ ((if '\n' ∈ core.text then [] else core.names.map String.toList) ≠ [] ∧
          ∀ line ∈ strLines answer, isErrorLine (trim line) = false) := by
        rintro ⟨hcore, herror⟩
        by_cases hbreak : '\n' ∈ core.text
        · exact hcore (if_pos hbreak)
        · exact hgood ⟨herror, hbreak⟩
      rw [if_neg hcond]
      exact ⟨fun hc => (by cases hc.1), fun hc => absurd hc hgood⟩

/-- The names of the assertions are distinct, and the nodes of a core come back exactly when the
answer to `get-model` in front of it does not disturb the reading. An answer that starts with
`(error` does. -/
theorem unsatCore_roundTrip_iff (query : BranchQuery) (dag : ExprDag) (emitted : EmittedQuery)
    (h : emitQuery query dag = some emitted) (answer : List Char)
    (core : CoreAnswer emitted.nameMap) (elapsed : Nat) :
    (emitted.nameMap.map Prod.fst).Nodup ∧
      (ReadsCore emitted.nameMap core.names
          (parseZ3Response (unsatReply answer core) elapsed emitted query) ↔
        Undisturbed answer core) ∧
      ∀ rest, answer = "(error".toList ++ rest → ¬ Undisturbed answer core := by
  refine ⟨emitted_names_nodup h, readsCore_iff h answer core elapsed, ?_⟩
  rintro rest rfl ⟨herror, -⟩
  have hany : ((splitBreaks (fun c : Char => decide (c = '\n')) ("(error".toList ++ rest)).any
      fun line => isErrorLine (trim line)) = false := by
    rw [← strLines_any_trim isErrorLine rfl, List.any_eq_false]
    exact fun line hline => by simp [herror line hline]
  have hplain : ∀ c ∈ "(error".toList, decide (c = '\n') = false ∧ isWhiteSpace c = false := by
    intro c hc
    simp at hc
    rcases hc with rfl | rfl | rfl | rfl | rfl | rfl <;> exact ⟨rfl, rfl⟩
  rw [splitBreaks_append fun c hc => (hplain c hc).1, List.any_cons, Bool.or_eq_false_iff] at hany
  obtain ⟨u, hu⟩ := trim_word_append (fun c hc => (hplain c hc).2)
    ((splitBreaks (fun c : Char => decide (c = '\n')) rest).headD [])
  rw [hu, isErrorLine, List.isPrefixOf?_eq_some_iff_append_eq.mpr rfl] at hany
  cases hany.1

/-- A target that is never taken. -/
def falseDag : ExprDag := (ExprDag.new.intern (.boolConst false)).2

def falseQuery : BranchQuery := ⟨0, [], 0, true, 0, none⟩

theorem emitQuery_false : ∃ emitted, emitQuery falseQuery falseDag = some emitted ∧
    emitted.nameMap = [("c_TGT", 0)] := by
  have hsome : (emitQuery falseQuery falseDag).isSome = true := by decide
  obtain ⟨emitted, h⟩ := Option.isSome_iff_exists.mp hsome
  exact ⟨emitted, h, emitQuery_nameMap h⟩

/-- The core of one name. -/
def targetCore {nameMap : List (String × NodeId)} (h : nameMap = [("c_TGT", 0)]) :
    CoreAnswer nameMap where
  entries := [([], "c_TGT")]
  closing := []
  nonempty := by simp
  known := by simp [h]
  separated := by simp

example : firstCore "unsat\n(c_TGT)\n".toList = some ["c_TGT".toList] := by decide

theorem unsatCore_roundTrip_false : ∃ emitted, ∃ core : CoreAnswer emitted.nameMap,
    core.names = ["c_TGT"] ∧
      ReadsCore emitted.nameMap core.names
        (parseZ3Response (unsatReply "( error \"no model\" )".toList core) 0 emitted falseQuery) := by
  obtain ⟨emitted, h, hnames⟩ := emitQuery_false
  refine ⟨emitted, targetCore hnames, rfl, ?_⟩
  refine (unsatCore_roundTrip_iff falseQuery falseDag emitted h _ (targetCore hnames) 0).2.1.mpr ?_
  have hlines : ∀ line ∈ strLines "( error \"no model\" )".toList,
      isErrorLine (trim line) = false := by decide +kernel
  have hfirst : firstCore "( error \"no model\" )".toList = none := by decide +kernel
  refine ⟨hlines, ?_⟩
  rw [hfirst]
  show '\n' ∉ (targetCore hnames).text
  have htext : '\n' ∉ '(' :: ([] ++ "c_TGT".toList ++ []) ++ [] ++ [')'] := by decide +kernel
  exact htext

/-- The reply of a solver to a query without a model: the core it gives is dropped. -/
theorem core_behind_error_dropped : ∃ emitted, emitQuery falseQuery falseDag = some emitted ∧
    ∃ core : CoreAnswer emitted.nameMap, core.names = ["c_TGT"] ∧
      (parseZ3Response (unsatReply "(error \"model is not available\")".toList core) 0 emitted
        falseQuery).status = .unknown ∧
      ¬ ReadsCore emitted.nameMap core.names
        (parseZ3Response (unsatReply "(error \"model is not available\")".toList core) 0 emitted
          falseQuery) := by
  obtain ⟨emitted, h, hnames⟩ := emitQuery_false
  have herror : ¬ ∀ line ∈ strLines "(error \"model is not available\")".toList,
      isErrorLine (trim line) = false := by decide +kernel
  have hstatus : (parseZ3Response (unsatReply "(error \"model is not available\")".toList
      (targetCore hnames)) 0 emitted falseQuery).status = .unknown := by
    rw [parseZ3Response_reply h, if_neg fun hc => herror hc.2]
    rfl
  refine ⟨emitted, h, targetCore hnames, rfl, hstatus, fun hc => ?_⟩
  have := hstatus.symm.trans hc.1
  cases this

example : firstCore "unsat\n(c_0000\nc_TGT)\n".toList = none := by decide

end Reply

end Axe.Concolic
