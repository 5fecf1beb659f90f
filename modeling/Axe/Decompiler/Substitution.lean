import Mathlib.Data.List.TakeWhile
import Mathlib.Data.String.Basic
import Axe.Lib.Loops
import Axe.Lib.Marked
import Axe.Lib.OrderedMap

/-!
# Substitution in a right-hand side

The names of a storage that stand alone in the right-hand side of a statement are replaced by the
expression that the storage holds. The source searches one name after the other in a text that
grows, and keeps the regions that it has inserted.
-/
namespace Axe.Substitution

open Loops Marked

abbrev Text := List Char

structure LiveValue where
  expr : Text
  producerIdx : Nat
  useCount : Fin (2 ^ 32)
  deriving DecidableEq

abbrev Live := OrderedMap Text LiveValue

def registerFamilies : List (List String) :=
  [["rax", "eax", "ax", "al", "ah"], ["rbx", "ebx", "bx", "bl", "bh"],
    ["rcx", "ecx", "cx", "cl", "ch"], ["rdx", "edx", "dx", "dl", "dh"],
    ["rsi", "esi", "si", "sil"], ["rdi", "edi", "di", "dil"], ["rsp", "esp", "sp", "spl"],
    ["rbp", "ebp", "bp", "bpl"], ["r8", "r8d", "r8w", "r8b"], ["r9", "r9d", "r9w", "r9b"],
    ["r10", "r10d", "r10w", "r10b"], ["r11", "r11d", "r11w", "r11b"],
    ["r12", "r12d", "r12w", "r12b"], ["r13", "r13d", "r13w", "r13b"],
    ["r14", "r14d", "r14w", "r14b"], ["r15", "r15d", "r15w", "r15b"]]

/-- The names of the family whose first name is the canonical one. -/
def registerAliases (canon : Text) : List Text :=
  ((registerFamilies.find? fun names => names.head?.any fun name => name.toList == canon).getD
    []).map String.toList

def toSearch (canonStorage : Text) : List Text :=
  if registerAliases canonStorage = [] then [canonStorage] else registerAliases canonStorage

def isWordByte (c : Char) : Bool := c.isAlphanum || c == '_'

def standsAt (haystack needle : Text) (i : Nat) : Bool :=
  needle.isPrefixOf (haystack.drop i) && (i == 0 || !(haystack[i - 1]?).any isWordByte) &&
    !(haystack[i + needle.length]?).any isWordByte

def findWord (haystack needle : Text) (start : Nat) : Option Nat :=
  if needle = [] then none
  else (List.range' start (haystack.length + 1 - needle.length - start)).find?
    (standsAt haystack needle)

structure Split where
  before : Text
  body : Text
  after : Text
  deriving DecidableEq

/-- The position of the first `=` outside of parentheses that is not part of a comparison, where
a comparison is told by the two characters before the sign and the one behind it. -/
def topLevel (compares : Char → Char → Char → Bool) :
    Int → Char → Char → Nat → Text → Option Nat
  | _, _, _, _, [] => none
  | depth, early, prev, i, b :: rest =>
    if b = '(' then topLevel compares (depth + 1) prev b (i + 1) rest
    else if b = ')' then topLevel compares (depth - 1) prev b (i + 1) rest
    else if b = '=' ∧ depth = 0 ∧ compares early prev (rest.head?.getD '\x00') = false then some i
    else topLevel compares depth prev b (i + 1) rest

def findTopLevelAssign (text : Text) : Option Nat :=
  topLevel (fun _ prev next => next == '=' || prev == '=' || prev == '!' || prev == '<' ||
    prev == '>') 0 '\x00' '\x00' 0 text

/-- The text before the last occurrence of a character and the text from there on. -/
def splitLast (c : Char) : Text → Option (Text × Text)
  | [] => none
  | a :: text => ((splitLast c text).map fun parts => (a :: parts.1, parts.2)).or
      (if a = c then some ([], a :: text) else none)

/-- The text before the first occurrence of a pattern and the text from there on. -/
def splitFirst (pattern : Text) : Text → Option (Text × Text)
  | [] => if pattern = [] then some ([], []) else none
  | c :: text =>
    if pattern <+: c :: text then some ([], c :: text)
    else (splitFirst pattern text).map fun parts => (c :: parts.1, parts.2)

/-- `LHS = RHS;` and `LHS op= RHS;`. -/
def assignSplit (text : Text) (eqPos : Nat) : Option Split :=
  let behind := text.drop (eqPos + 1)
  (splitLast ';' (behind.dropWhile (· = ' '))).map fun parts =>
    ⟨text.take (eqPos + 1) ++ behind.takeWhile (· = ' '), parts.1, parts.2⟩

/-- `return RHS;`. -/
def returnSplit (text : Text) : Option Split :=
  if "return ".toList <+: text then
    (splitLast ';' (text.drop 7)).map fun parts => ⟨text.take 7, parts.1, parts.2⟩
  else none

/-- `if (cond) goto L_X;`. -/
def ifSplit (text : Text) : Option Split :=
  if "if (".toList <+: text then
    (splitFirst ") goto ".toList (text.drop 4)).map fun parts => ⟨text.take 4, parts.1, parts.2⟩
  else none

def carve (assign : Option Nat) (text : Text) : Split :=
  ((assign.bind (assignSplit text)).or ((returnSplit text).or (ifSplit text))).getD ⟨[], text, []⟩

def splitRhsRegion (text : Text) : Split := carve (findTopLevelAssign text) text

structure Rewriting where
  body : Text
  regions : List (Nat × Nat)
  substituted : Bool
  searchFrom : Nat
  deriving DecidableEq

def shiftRegion (pos : Nat) (delta : Int) (region : Nat × Nat) : Nat × Nat :=
  if pos < region.1 then ((region.1 + delta).toNat, (region.2 + delta).toNat) else region

/-- The expression in parentheses in the place of a name. -/
def Rewriting.insert (expr needle : Text) (s : Rewriting) (pos : Nat) : Rewriting :=
  let inserted := expr.length + 2
  { body := s.body.take pos ++ '(' :: expr ++ ')' :: s.body.drop (pos + needle.length)
    regions := s.regions.map (shiftRegion pos ((inserted : Int) - needle.length)) ++
      [(pos, pos + inserted)]
    substituted := true
    searchFrom := pos + inserted }

def turn (expr needle : Text) (s : Rewriting) : Turn Rewriting Rewriting :=
  (findWord s.body needle s.searchFrom).elim (.ended s) fun pos =>
    if s.regions.any fun region => region.1 ≤ pos && pos < region.2 then
      .next { s with searchFrom := pos + needle.length }
    else .next (s.insert expr needle pos)

def pass (expr : Text) (s : Rewriting) (needle : Text) : Option Rewriting :=
  run (turn expr needle) (s.body.length + 1) { s with searchFrom := 0 }

def saturatingSucc (n : Fin (2 ^ 32)) : Fin (2 ^ 32) :=
  if h : n.val + 1 < 2 ^ 32 then ⟨n.val + 1, h⟩ else n

def LiveValue.used (lv : LiveValue) : LiveValue :=
  { lv with useCount := saturatingSucc lv.useCount }

def substituteStorageInRhs (text canonStorage expr : Text) (live : Live) : Option (Text × Live) :=
  let split := splitRhsRegion text
  ((toSearch canonStorage).foldlM (pass expr) ⟨split.body, [], false, 0⟩).map fun s =>
    (split.before ++ s.body ++ split.after,
      if s.substituted then live.modify canonStorage LiveValue.used else live)

variable {text expr needle canon : Text} {words : List Text} {s s' : Rewriting} {pos i : Nat}
  {c : List (Cell Char)}

theorem standsAt_iff (hne : needle ≠ []) :
    standsAt text needle i = true ↔ Stands isWordByte text needle i := by
  have hprefix : needle.isPrefixOf (text.drop i) = true ↔ needle <+: text.drop i :=
    List.isPrefixOf_iff_prefix
  have hright : (!(text[i + needle.length]?).any isWordByte) = true ↔
      Open isWordByte text[i + needle.length]? := by
    cases text[i + needle.length]? <;> simp [Open]
  have hleft : (i == 0 || !(text[i - 1]?).any isWordByte) = true ↔
      i = 0 ∨ Open isWordByte text[i - 1]? := by
    cases text[i - 1]? <;> simp [Open]
  rw [standsAt, Bool.and_eq_true, Bool.and_eq_true, hprefix, hleft, hright]
  constructor
  · rintro ⟨⟨⟨after, hafter⟩, hbefore⟩, hbehind⟩
    have hi : i < text.length := by
      by_contra hi
      rw [List.drop_of_length_le (by omega), List.append_eq_nil_iff] at hafter
      exact hne hafter.1
    refine ⟨hne, text.take i, after, ?_, List.length_take_of_le (by omega), ?_, ?_⟩
    · rw [hafter, List.take_append_drop]
    · rw [List.getLast?_take]
      split
      · intro a ha
        cases ha
      · rename_i h0
        rw [List.getElem?_eq_getElem (by omega), Option.some_or]
        have hopen := hbefore.resolve_left h0
        rwa [List.getElem?_eq_getElem (by omega)] at hopen
    · rwa [← List.head?_drop, ← List.drop_drop, ← hafter, List.drop_left] at hbehind
  · rintro ⟨_, before, after, rfl, rfl, hbefore, hbehind⟩
    refine ⟨⟨by simp, ?_⟩, ?_⟩
    · rcases List.eq_nil_or_concat' before with rfl | ⟨before, a, rfl⟩
      · exact .inl rfl
      · exact .inr (by simpa using hbefore)
    · rw [← List.head?_drop, ← List.drop_drop, List.drop_left, List.drop_left]
      exact hbehind

theorem findWord_of_ne_nil (hne : needle ≠ []) (start : Nat) : findWord text needle start =
    (List.range' start (text.length + 1 - needle.length - start)).find? (standsAt text needle) :=
  if_neg hne

theorem findWord_eq_some {start : Nat} (h : findWord text needle start = some pos) :
    start ≤ pos ∧ Stands isWordByte text needle pos ∧
      ∀ q, start ≤ q → Stands isWordByte text needle q → pos ≤ q := by
  have hne : needle ≠ [] := by
    rintro rfl
    cases h
  rw [findWord_of_ne_nil hne] at h
  obtain ⟨hstands, hmem, hbefore⟩ := List.find?_range'_eq_some.mp h
  refine ⟨(List.mem_range'_1.mp hmem).1, (standsAt_iff hne).mp hstands, fun q hq hs => ?_⟩
  by_contra hlt
  have hnot := hbefore q hq (Nat.lt_of_not_le hlt)
  rw [(standsAt_iff hne).mpr hs] at hnot
  cases hnot

theorem findWord_eq_none {start : Nat} (h : findWord text needle start = none) {q : Nat}
    (hq : start ≤ q) : ¬ Stands isWordByte text needle q := by
  intro hs
  rw [findWord_of_ne_nil hs.1] at h
  have hend := hs.add_le
  have hnot := List.find?_range'_eq_none.mp h q hq (by omega)
  rw [(standsAt_iff hs.1).mpr hs] at hnot
  cases hnot

/-- What is put in the place of a name. -/
def parenthesised (expr : Text) : Text := '(' :: expr ++ [')']

theorem length_parenthesised : (parenthesised expr).length = expr.length + 2 := by
  simp [parenthesised]

theorem parenthesised_ne_nil : parenthesised expr ≠ [] := by simp [parenthesised]

theorem open_head_parenthesised : Open isWordByte (parenthesised expr).head? :=
  open_some (by decide)

theorem open_last_parenthesised : Open isWordByte (parenthesised expr).getLast? := by
  rw [parenthesised, List.getLast?_concat]
  exact open_some (by decide)

/-- The state stands for cells of the body. -/
structure Tracks (words : List Text) (body expr : Text) (s : Rewriting) (c : List (Cell Char)) :
    Prop where
  faithful : Faithful isWordByte words body c
  text : s.body = rendered (parenthesised expr) c
  regions : ∀ region, region ∈ s.regions ↔ ∃ v, (region.1, v) ∈ insertions (parenthesised expr) c ∧
    region.2 = region.1 + (expr.length + 2)
  substituted : s.substituted = true ↔ occurrences c ≠ []

/-- The search for a name: what is not replaced yet lies ahead, and no name reaches into what is
inserted. -/
structure Searching (body expr needle : Text) (s : Rewriting) (c : List (Cell Char)) : Prop where
  pending : ∀ d e, c = d ++ e → Stands isWordByte body needle (original d).length →
    ((original d).length, needle) ∈ occurrences c ∨
      s.searchFrom ≤ (rendered (parenthesised expr) d).length
  ahead : (∀ a ∈ needle, isWordByte a = true) ∨
    ∀ i v, (i, v) ∈ insertions (parenthesised expr) c → i + (expr.length + 2) ≤ s.searchFrom

variable {body : Text}

/-- What is found outside of the regions is kept letters. -/
theorem Tracks.found_kept (ht : Tracks words body expr s c)
    (hsearch : Searching body expr needle s c)
    (hfound : findWord s.body needle s.searchFrom = some pos)
    (hout : ∀ region ∈ s.regions, ¬ (region.1 ≤ pos ∧ pos < region.2)) :
    ∃ d e, c = d ++ (kept needle ++ e) ∧ (rendered (parenthesised expr) d).length = pos ∧
      ((∀ a ∈ needle, isWordByte a = true) ∨ ∀ v, Cell.replaced v ∉ e) := by
  obtain ⟨hfrom, hstands, _⟩ := findWord_eq_some hfound
  rw [ht.text] at hstands
  obtain ⟨d, x, e, rfl, hd, hx⟩ := exists_cell hstands.lt
  change (rendered (parenthesised expr) d).length ≤ pos at hd
  change pos < (rendered (parenthesised expr) d).length + _ at hx
  have hpos : (rendered (parenthesised expr) d).length = pos := by
    cases x with
    | kept a =>
      rw [Cell.rendered, List.length_singleton] at hx
      omega
    | replaced v =>
      rw [Cell.rendered, length_parenthesised] at hx
      exact absurd ⟨hd, hx⟩ (hout (_, _)
        ((ht.regions _).mpr ⟨v, mem_insertions.mpr ⟨d, e, rfl, rfl⟩, rfl⟩))
  obtain ⟨_, before, after, htext, hlen, _, _⟩ := hstands
  rw [rendered_append] at htext
  have hrest := (List.append_inj htext (hpos.trans hlen.symm)).2
  have hletters : (∀ a ∈ needle, isWordByte a = true) ∨ ∀ v, Cell.replaced v ∉ x :: e := by
    refine hsearch.ahead.imp_right fun hahead v hv => ?_
    obtain ⟨e₁, e₂, he⟩ := List.append_of_mem hv
    have hreach := hahead _ v (mem_insertions.mpr
      ⟨d ++ e₁, e₂, by rw [he, List.append_assoc], rfl⟩)
    rw [rendered_append, List.length_append] at hreach
    omega
  obtain ⟨e', he, _⟩ := kept_of_rendered parenthesised_ne_nil open_head_parenthesised hletters
    hrest.symm
  rw [he] at hletters ⊢
  exact ⟨d, e', rfl, hpos, hletters.imp_right fun h v hv => h v (List.mem_append_right _ hv)⟩

variable {d e : List (Cell Char)}

theorem Tracks.insert (ht : Tracks words body expr s (d ++ (kept needle ++ e)))
    (hneedle : needle ∈ words) (hpos : (rendered (parenthesised expr) d).length = pos)
    (hs : Stands isWordByte body needle (original d).length) :
    Tracks words body expr (s.insert expr needle pos) (d ++ .replaced needle :: e) where
  faithful := ht.faithful.replace hneedle hs
  text := by
    have hbody := ht.text.trans rendered_between
    have hdrop : s.body.drop (pos + needle.length) = rendered (parenthesised expr) e := by
      rw [hbody, ← List.append_assoc, List.drop_left' (by rw [List.length_append, hpos])]
    have htake : s.body.take pos = rendered (parenthesised expr) d := by
      rw [hbody, List.take_left' hpos]
    simp only [Rewriting.insert, hdrop, htake, rendered_append, rendered_replaced]
    simp [parenthesised]
  regions region := by
    have hmoved : ∀ j v, (j, v) ∈ insertions (parenthesised expr) (d ++ (kept needle ++ e)) →
        shiftRegion pos (((expr.length + 2 : Nat) : Int) - needle.length)
            (j, j + (expr.length + 2)) =
          let i := if pos < j then j + (expr.length + 2) - needle.length else j
          (i, i + (expr.length + 2)) := by
      intro j v hj
      by_cases hlt : pos < j
      · have hle := add_le_of_mem_insertions hj (by omega)
        simp only [shiftRegion, hlt, if_true, Prod.mk.injEq]
        omega
      · simp only [shiftRegion, hlt, if_false]
    simp only [Rewriting.insert, List.mem_append, List.mem_map, List.mem_singleton,
      mem_insertions_replaced hs.1, length_parenthesised, hpos]
    constructor
    · rintro (⟨r, hr, rfl⟩ | rfl)
      · obtain ⟨v, hv, hlen⟩ := (ht.regions r).mp hr
        obtain ⟨j, k⟩ := r
        simp only at hv hlen
        subst hlen
        rw [hmoved j v hv]
        exact ⟨v, .inr ⟨j, hv, rfl⟩, rfl⟩
      · exact ⟨needle, .inl rfl, rfl⟩
    · rintro ⟨v, hv | ⟨j, hj, hi⟩, hlen⟩
      · cases hv
        exact .inr (Prod.ext rfl hlen)
      · refine .inl ⟨(j, j + (expr.length + 2)), (ht.regions _).mpr ⟨v, hj, rfl⟩, ?_⟩
        rw [hmoved j v hj]
        exact Prod.ext hi.symm (by rw [hlen, hi])
  substituted := by
    have hmem : ((original d).length, needle) ∈ occurrences (d ++ .replaced needle :: e) :=
      mem_occurrences_replaced.mpr (.inl rfl)
    exact ⟨fun _ => List.ne_nil_of_mem hmem, fun _ => rfl⟩

/-- A name that stands alone and is not replaced is found in the text as it is. -/
theorem Tracks.stands_of_pending (ht : Tracks words body expr s (d ++ e))
    (hcompat : Compatible isWordByte words body) (hneedle : needle ∈ words)
    (hs : Stands isWordByte body needle (original d).length)
    (hnot : ((original d).length, needle) ∉ occurrences (d ++ e)) :
    ∃ e', e = kept needle ++ e' ∧
      Stands isWordByte s.body needle (rendered (parenthesised expr) d).length := by
  rw [ht.text]
  exact ht.faithful.rendered_of_stands parenthesised_ne_nil hcompat hneedle
    open_head_parenthesised open_last_parenthesised hs hnot

theorem Searching.insert (ht : Tracks words body expr s (d ++ (kept needle ++ e)))
    (hsearch : Searching body expr needle s (d ++ (kept needle ++ e)))
    (hcompat : Compatible isWordByte words body) (hneedle : needle ∈ words)
    (hfound : findWord s.body needle s.searchFrom = some pos)
    (hpos : (rendered (parenthesised expr) d).length = pos)
    (hs : Stands isWordByte body needle (original d).length) :
    Searching body expr needle (s.insert expr needle pos) (d ++ .replaced needle :: e) where
  pending d' e' hsplit hs' := by
    obtain ⟨_, _, hleast⟩ := findWord_eq_some hfound
    rcases List.append_eq_append_iff.mp hsplit with ⟨t, rfl, ht'⟩ | ⟨t, rfl, rfl⟩
    · cases t with
      | nil => exact .inl (mem_occurrences_replaced.mpr (.inl (by simp)))
      | cons x t =>
        -- The split lies behind what is inserted now.
        obtain ⟨rfl, _⟩ := List.cons.inj ht'
        refine .inr ?_
        rw [rendered_append, rendered_replaced, List.length_append, List.length_append, hpos,
          length_parenthesised]
        exact Nat.add_le_add_left (Nat.le_add_right _ _) _
    · by_cases ht0 : t = []
      · subst ht0
        exact .inl (mem_occurrences_replaced.mpr (.inl (by simp)))
      · rw [List.append_assoc] at ht hsearch
        by_cases hmem : ((original d').length, needle) ∈
            occurrences (d' ++ (t ++ (kept needle ++ e)))
        · exact .inl (mem_occurrences_replaced.mpr (.inr (by rwa [List.append_assoc])))
        · have hfrom := (hsearch.pending d' _ rfl hs').resolve_left hmem
          obtain ⟨_, _, hstands⟩ := ht.stands_of_pending hcompat hneedle hs' hmem
          have hle := hleast _ hfrom hstands
          have := List.length_pos_of_ne_nil (rendered_ne_nil (@parenthesised_ne_nil expr) ht0)
          rw [rendered_append, List.length_append] at hpos
          omega
  ahead := by
    obtain ⟨hfrom, _, _⟩ := findWord_eq_some hfound
    refine hsearch.ahead.imp_right fun hahead i v hv => ?_
    rcases (mem_insertions_replaced hs.1).mp hv with heq | ⟨j, hj, rfl⟩
    · cases heq
      rw [hpos]
      exact Nat.le_refl _
    · have := hahead j v hj
      rw [if_neg (by omega)]
      exact Nat.le_trans (by omega : j + (expr.length + 2) ≤ pos) (Nat.le_add_right _ _)

theorem Searching.skip (ht : Tracks words body expr s c)
    (hsearch : Searching body expr needle s c)
    (hcompat : Compatible isWordByte words body) (hneedle : needle ∈ words)
    (hfound : findWord s.body needle s.searchFrom = some pos)
    (hin : ∃ region ∈ s.regions, region.1 ≤ pos ∧ pos < region.2) :
    Searching body expr needle { s with searchFrom := pos + needle.length } c := by
  obtain ⟨hfrom, hstands, hleast⟩ := findWord_eq_some hfound
  obtain ⟨region, hregion, hle, hlt⟩ := hin
  obtain ⟨v, hv, hstop⟩ := (ht.regions _).mp hregion
  rw [hstop] at hlt
  have hletters : ∀ a ∈ needle, isWordByte a = true := by
    refine hsearch.ahead.resolve_right fun hahead => ?_
    have := hahead _ v hv
    omega
  refine ⟨fun d e hsplit hs => ?_, .inl hletters⟩
  by_cases hmem : ((original d).length, needle) ∈ occurrences c
  · exact .inl hmem
  refine .inr ?_
  have hlow := (hsearch.pending d e hsplit hs).resolve_left hmem
  subst hsplit
  obtain ⟨e', rfl, hs'⟩ := ht.stands_of_pending hcompat hneedle hs hmem
  have hq := hleast _ hlow hs'
  refine (stands_apart hletters hletters hstands hs' hq).resolve_left ?_
  rintro ⟨hsame, _⟩
  -- The place that is found is in a cell that is replaced, not in one that is kept.
  obtain ⟨d₁, e₁, hc, hstart⟩ := mem_insertions.mp hv
  obtain ⟨a, rest, rfl⟩ := List.exists_cons_of_ne_nil hs.1
  have hsplits : d₁ ++ .replaced v :: e₁ = d ++ .kept a :: (kept rest ++ e') := hc.symm
  rw [hstart, hsame] at hle hlt
  have hcell := cell_unique (@parenthesised_ne_nil expr) hsplits hle
    (by rwa [Cell.rendered, length_parenthesised])
  cases hcell

/-- Each turn keeps the state with cells, with what is replaced so far, or the search is over. -/
theorem turn_next (ht : Tracks words body expr s c) (hsearch : Searching body expr needle s c)
    (hcompat : Compatible isWordByte words body) (hneedle : needle ∈ words)
    (hturn : turn expr needle s = .next s') :
    ∃ c', Tracks words body expr s' c' ∧ Searching body expr needle s' c' ∧
      (∀ mark ∈ occurrences c, mark ∈ occurrences c') ∧
      s'.body.length - s'.searchFrom < s.body.length - s.searchFrom := by
  rw [turn] at hturn
  cases hfound : findWord s.body needle s.searchFrom with
  | none =>
    rw [hfound] at hturn
    cases hturn
  | some pos =>
    rw [hfound, Option.elim_some] at hturn
    obtain ⟨hfrom, hstands, _⟩ := findWord_eq_some hfound
    have hend := hstands.add_le
    have hpositive := List.length_pos_of_ne_nil hstands.1
    split at hturn
    · rename_i hin
      obtain rfl := Turn.next.inj hturn
      have hin' : ∃ region ∈ s.regions, region.1 ≤ pos ∧ pos < region.2 := by simpa using hin
      refine ⟨c, ⟨ht.faithful, ht.text, ht.regions, ht.substituted⟩,
        hsearch.skip ht hcompat hneedle hfound hin', fun _ h => h, ?_⟩
      simp only
      omega
    · rename_i hout
      obtain rfl := Turn.next.inj hturn
      obtain ⟨d, e, rfl, hpos, hletters⟩ := ht.found_kept hsearch hfound (by simpa using hout)
      have hs : Stands isWordByte body needle (original d).length := by
        rw [ht.text, ← hpos] at hstands
        exact ht.faithful.stands_of_rendered hcompat hneedle hletters hstands
      refine ⟨_, ht.insert hneedle hpos hs, hsearch.insert ht hcompat hneedle hfound hpos hs,
        fun mark hmark => mem_occurrences_replaced.mpr (.inr hmark), ?_⟩
      simp only [Rewriting.insert, List.length_append, List.length_cons, List.length_take,
        List.length_drop]
      omega

theorem turn_ended (ht : Tracks words body expr s c) (hsearch : Searching body expr needle s c)
    (hcompat : Compatible isWordByte words body) (hneedle : needle ∈ words)
    (hturn : turn expr needle s = .ended s') :
    s' = s ∧ ∀ i, Stands isWordByte body needle i → (i, needle) ∈ occurrences c := by
  rw [turn] at hturn
  cases hfound : findWord s.body needle s.searchFrom with
  | none =>
    rw [hfound, Option.elim_none] at hturn
    refine ⟨(Turn.ended.inj hturn).symm, fun i hs => ?_⟩
    obtain ⟨d, e, rfl, rfl⟩ := ht.faithful.exists_split hcompat hneedle hs
    by_contra hnot
    have hfrom := (hsearch.pending d e rfl hs).resolve_left hnot
    obtain ⟨_, _, hstands⟩ := ht.stands_of_pending hcompat hneedle hs hnot
    exact findWord_eq_none hfound hfrom hstands
  | some pos =>
    rw [hfound, Option.elim_some] at hturn
    split at hturn <;> cases hturn

theorem pass_spec (ht : Tracks words body expr s c) (hcompat : Compatible isWordByte words body)
    (hneedle : needle ∈ words) (hahead : (∀ a ∈ needle, isWordByte a = true) ∨
      insertions (parenthesised expr) c = []) :
    ∃ s' c', pass expr s needle = some s' ∧ Tracks words body expr s' c' ∧
      (∀ mark ∈ occurrences c, mark ∈ occurrences c') ∧
        ∀ i, Stands isWordByte body needle i → (i, needle) ∈ occurrences c' := by
  let start : Rewriting := { s with searchFrom := 0 }
  let I : Rewriting → Prop := fun t => ∃ c', Tracks words body expr t c' ∧
    Searching body expr needle t c' ∧ ∀ mark ∈ occurrences c, mark ∈ occurrences c'
  have hstart : I start := by
    refine ⟨c, ⟨ht.faithful, ht.text, ht.regions, ht.substituted⟩,
      ⟨fun _ _ _ _ => .inr (Nat.zero_le _), hahead.imp_right fun hnone i v hv => ?_⟩,
      fun _ h => h⟩
    rw [hnone] at hv
    cases hv
  have hnext : ∀ t t', turn expr needle t = .next t' → I t →
      I t' ∧ t'.body.length - t'.searchFrom < t.body.length - t.searchFrom := by
    rintro t t' hturn ⟨c₁, ht₁, hsearch, hgrow⟩
    obtain ⟨c₂, ht₂, hsearch₂, hgrow₂, hlt⟩ := turn_next ht₁ hsearch hcompat hneedle hturn
    exact ⟨⟨c₂, ht₂, hsearch₂, fun mark hmark => hgrow₂ mark (hgrow mark hmark)⟩, hlt⟩
  have hended : ∀ t t', turn expr needle t = .ended t' → I t →
      ∃ c', Tracks words body expr t' c' ∧ (∀ mark ∈ occurrences c, mark ∈ occurrences c') ∧
        ∀ i, Stands isWordByte body needle i → (i, needle) ∈ occurrences c' := by
    rintro t t' hturn ⟨c₁, ht₁, hsearch, hgrow⟩
    obtain ⟨rfl, hall⟩ := turn_ended ht₁ hsearch hcompat hneedle hturn
    exact ⟨c₁, ht₁, hgrow, hall⟩
  obtain ⟨s', hrun⟩ := run_ends_of (fun t => t.body.length - t.searchFrom) hnext hstart
    (Nat.lt_succ_self _)
  obtain ⟨c', hc'⟩ := run_keeps (fun t t' hturn hI => (hnext t t' hturn hI).1) hended hrun hstart
  exact ⟨s', c', hrun, hc'⟩

/-- The passes for names of letters replace all of them. -/
theorem passes_spec (hcompat : Compatible isWordByte words body) (todo : List Text)
    (hwords : ∀ w ∈ todo, w ∈ words) (hletters : ∀ w ∈ todo, ∀ a ∈ w, isWordByte a = true)
    (ht : Tracks words body expr s c) :
    ∃ s' c', todo.foldlM (pass expr) s = some s' ∧ Tracks words body expr s' c' ∧
      (∀ mark ∈ occurrences c, mark ∈ occurrences c') ∧
        ∀ w ∈ todo, ∀ i, Stands isWordByte body w i → (i, w) ∈ occurrences c' := by
  induction todo generalizing s c with
  | nil => exact ⟨s, c, rfl, ht, fun _ h => h, fun w hw => by cases hw⟩
  | cons w todo ih =>
    obtain ⟨s₁, c₁, hpass, ht₁, hgrow, hall⟩ := pass_spec ht hcompat (hwords w List.mem_cons_self)
      (.inl (hletters w List.mem_cons_self))
    obtain ⟨s₂, c₂, hrest, ht₂, hgrow₂, hall₂⟩ := ih
      (fun v hv => hwords v (List.mem_cons_of_mem _ hv))
      (fun v hv => hletters v (List.mem_cons_of_mem _ hv)) ht₁
    refine ⟨s₂, c₂, ?_, ht₂, fun mark hmark => hgrow₂ mark (hgrow mark hmark), fun v hv i hs => ?_⟩
    · rw [List.foldlM_cons, hpass]
      exact hrest
    · rcases List.mem_cons.mp hv with rfl | hv
      · exact hgrow₂ _ (hall i hs)
      · exact hall₂ v hv i hs

theorem toSearch_cases (canon : Text) :
    (∀ w ∈ toSearch canon, ∀ a ∈ w, isWordByte a = true) ∨ toSearch canon = [canon] := by
  have hchecked : (registerFamilies.all fun names =>
      names.all fun name => name.toList.all isWordByte) = true := by decide
  have htable : ∀ names ∈ registerFamilies, ∀ name ∈ names, ∀ a ∈ name.toList,
      isWordByte a = true :=
    fun names hnames name hname => List.all_eq_true.mp
      (List.all_eq_true.mp (List.all_eq_true.mp hchecked names hnames) name hname)
  rw [toSearch]
  split
  · exact .inr rfl
  · refine .inl fun w hw => ?_
    rw [registerAliases] at hw
    obtain ⟨name, hname, rfl⟩ := List.mem_map.mp hw
    cases hfind : registerFamilies.find? fun names =>
        names.head?.any fun name => name.toList == canon with
    | none =>
      rw [hfind] at hname
      cases hname
    | some names =>
      rw [hfind] at hname
      exact htable names (List.mem_of_find?_eq_some hfind) name hname

theorem tracks_start (words : List Text) (body expr : Text) :
    Tracks words body expr ⟨body, [], false, 0⟩ (kept body) where
  faithful := faithful_kept body
  text := rendered_kept.symm
  regions region := by
    rw [insertions, marks_kept]
    simp
  substituted := by
    rw [occurrences, marks_kept]
    simp

/-- The names that stand alone in the body are replaced, and no others. -/
theorem passes_replace (expr : Text) (hcompat : Compatible isWordByte (toSearch canon) body) :
    ∃ s' c', (toSearch canon).foldlM (pass expr) ⟨body, [], false, 0⟩ = some s' ∧
      Tracks (toSearch canon) body expr s' c' ∧
        ∀ i v, (i, v) ∈ occurrences c' ↔ v ∈ toSearch canon ∧ Stands isWordByte body v i := by
  have hstart := tracks_start (toSearch canon) body expr
  have hrun : ∃ s' c', (toSearch canon).foldlM (pass expr) ⟨body, [], false, 0⟩ = some s' ∧
      Tracks (toSearch canon) body expr s' c' ∧
        ∀ w ∈ toSearch canon, ∀ i, Stands isWordByte body w i → (i, w) ∈ occurrences c' := by
    rcases toSearch_cases canon with hletters | hsingle
    · obtain ⟨s', c', hrun, ht, _, hall⟩ := passes_spec hcompat (toSearch canon) (fun _ h => h)
        hletters hstart
      exact ⟨s', c', hrun, ht, hall⟩
    · have hneedle : canon ∈ toSearch canon := by
        rw [hsingle]
        exact List.mem_singleton_self _
      obtain ⟨s', c', hpass, ht, _, hall⟩ := pass_spec hstart hcompat hneedle
        (.inr (by rw [insertions, marks_kept]))
      refine ⟨s', c', ?_, ht, fun w hw => ?_⟩
      · rw [hsingle, List.foldlM_cons, hpass]
        rfl
      · rw [hsingle] at hw
        obtain rfl := List.mem_singleton.mp hw
        exact hall
  obtain ⟨s', c', hrun, ht, hall⟩ := hrun
  exact ⟨s', c', hrun, ht, fun i v => ⟨ht.faithful.stands i v, fun h => hall v h.1 i h.2⟩⟩

theorem topLevel_eq_some {compares : Char → Char → Char → Bool} {depth : Int} {early prev : Char}
    {rest : Text} {n k : Nat} (h : topLevel compares depth early prev n rest = some k) :
    ∃ j, k = n + j ∧ rest[j]? = some '=' := by
  induction rest generalizing depth early prev n with
  | nil => cases h
  | cons b rest ih =>
    have hlater : ∀ depth early prev, topLevel compares depth early prev (n + 1) rest = some k →
        ∃ j, k = n + j ∧ (b :: rest)[j]? = some '=' := by
      intro depth early prev h
      obtain ⟨j, rfl, hj⟩ := ih h
      exact ⟨j + 1, by omega, by simpa using hj⟩
    rw [topLevel] at h
    split at h
    · exact hlater _ _ _ h
    · split at h
      · exact hlater _ _ _ h
      · split at h
        · rename_i hsign
          cases h
          exact ⟨0, rfl, by rw [hsign.1]; rfl⟩
        · exact hlater _ _ _ h

theorem splitLast_eq_some {a : Char} {parts : Text × Text} (h : splitLast a text = some parts) :
    text = parts.1 ++ parts.2 ∧ parts.2.head? = some a := by
  induction text generalizing parts with
  | nil => cases h
  | cons b text ih =>
    rw [splitLast, Option.or_eq_some_iff] at h
    rcases h with h | ⟨_, h⟩
    · obtain ⟨rest, hrest, rfl⟩ := Option.map_eq_some_iff.mp h
      obtain ⟨rfl, hhead⟩ := ih hrest
      exact ⟨rfl, hhead⟩
    · obtain ⟨rfl, hparts⟩ := Option.ite_none_right_eq_some.mp h
      cases hparts
      exact ⟨rfl, rfl⟩

theorem splitFirst_eq_some {pattern : Text} {parts : Text × Text}
    (h : splitFirst pattern text = some parts) :
    text = parts.1 ++ parts.2 ∧ pattern <+: parts.2 := by
  induction text generalizing parts with
  | nil =>
    rw [splitFirst] at h
    split at h
    · rename_i hnil
      cases h
      exact ⟨rfl, hnil ▸ List.nil_prefix⟩
    · cases h
  | cons b text ih =>
    rw [splitFirst] at h
    split at h
    · rename_i hprefix
      cases h
      exact ⟨rfl, hprefix⟩
    · obtain ⟨rest, hrest, rfl⟩ := Option.map_eq_some_iff.mp h
      obtain ⟨rfl, hpattern⟩ := ih hrest
      exact ⟨rfl, hpattern⟩

/-- A split of the text with no letters next to the body. -/
structure Split.Of (text : Text) (split : Split) : Prop where
  text : text = split.before ++ (split.body ++ split.after)
  left : Open isWordByte split.before.getLast?
  right : Open isWordByte split.after.head?

theorem assignSplit_of {n : Nat} {split : Split} (hsign : text[n]? = some '=')
    (h : assignSplit text n = some split) : split.Of text := by
  obtain ⟨parts, hparts, rfl⟩ := Option.map_eq_some_iff.mp h
  obtain ⟨hrest, hhead⟩ := splitLast_eq_some hparts
  refine ⟨?_, ?_, ?_⟩
  · rw [← hrest, List.append_assoc, List.takeWhile_append_dropWhile, List.take_append_drop]
  · dsimp only
    rcases List.eq_nil_or_concat' ((text.drop (n + 1)).takeWhile (· = ' ')) with hnil | ⟨l, b, hl⟩
    · rw [hnil, List.append_nil, List.take_add_one, hsign, Option.toList_some,
        List.getLast?_concat]
      exact open_some (by decide)
    · have hb := List.mem_takeWhile_imp (hl ▸ List.mem_append_right l List.mem_cons_self)
      rw [hl, ← List.append_assoc, List.getLast?_concat, of_decide_eq_true hb]
      exact open_some (by decide)
  · dsimp only
    rw [hhead]
    exact open_some (by decide)

theorem prefix_split {start : Text} {n : Nat} {parts : Text × Text} (h : start <+: text)
    (hn : start.length = n) (hlast : Open isWordByte start.getLast?)
    (hparts : text.drop n = parts.1 ++ parts.2) (hhead : Open isWordByte parts.2.head?) :
    Split.Of text ⟨text.take n, parts.1, parts.2⟩ where
  text := by rw [← hparts, List.take_append_drop]
  left := by
    obtain ⟨rest, rfl⟩ := h
    rwa [List.take_left' hn]
  right := hhead

theorem carve_of {assign : Option Nat} (h : ∀ n, assign = some n → text[n]? = some '=') :
    (carve assign text).Of text := by
  have hdefault : Split.Of text ⟨[], text, []⟩ := ⟨by simp, open_none, open_none⟩
  rw [carve]
  cases hassign : assign.bind (assignSplit text) with
  | some split =>
    obtain ⟨n, hn, hsplit⟩ := Option.bind_eq_some_iff.mp hassign
    exact assignSplit_of (h n hn) hsplit
  | none =>
    cases hreturn : returnSplit text with
    | some split =>
      rw [returnSplit, Option.ite_none_right_eq_some] at hreturn
      obtain ⟨hstart, hmap⟩ := hreturn
      obtain ⟨parts, hparts, rfl⟩ := Option.map_eq_some_iff.mp hmap
      obtain ⟨hrest, hhead⟩ := splitLast_eq_some hparts
      have hright : Open isWordByte (some ';') := open_some (by decide)
      exact prefix_split hstart rfl (open_some (by decide)) hrest (hhead ▸ hright)
    | none =>
      cases hif : ifSplit text with
      | some split =>
        rw [ifSplit, Option.ite_none_right_eq_some] at hif
        obtain ⟨hstart, hmap⟩ := hif
        obtain ⟨parts, hparts, rfl⟩ := Option.map_eq_some_iff.mp hmap
        obtain ⟨hrest, rest, hgoto⟩ := splitFirst_eq_some hparts
        have hhead : parts.2.head? = some ')' := by
          rw [← hgoto]
          rfl
        have hright : Open isWordByte (some ')') := open_some (by decide)
        exact prefix_split hstart rfl (open_some (by decide)) hrest (hhead ▸ hright)
      | none => exact hdefault

/-- The position of the sign of an assignment, where `<<=` and `>>=` are no comparisons. -/
def assignmentAt (text : Text) : Option Nat :=
  topLevel (fun early prev next => next == '=' || prev == '=' || prev == '!' ||
    ((prev == '<' || prev == '>') && early != prev)) 0 '\x00' '\x00' 0 text

def rightHandSide (text : Text) : Split := carve (assignmentAt text) text

def Within (split : Split) (k : Nat) (w : Text) : Prop :=
  split.before.length ≤ k ∧ k + w.length ≤ split.before.length + split.body.length

/-- A name of the storage that stands alone in the right-hand side. -/
def Replaceable (text canon : Text) (k : Nat) (w : Text) : Prop :=
  w ∈ toSearch canon ∧ Stands isWordByte text w k ∧ Within (rightHandSide text) k w

/-- The names that are replaced are those that can be, and everything else is as it was. -/
def Substituted (text canon expr out : Text) : Prop :=
  ∃ cells, original cells = text ∧ rendered (parenthesised expr) cells = out ∧
    ∀ k w, (k, w) ∈ occurrences cells ↔ Replaceable text canon k w

def UsedOnceMore (lv lv' : LiveValue) : Prop :=
  lv'.expr = lv.expr ∧ lv'.producerIdx = lv.producerIdx ∧
    lv'.useCount.val = lv.useCount.val + 1

structure Counted (text canon : Text) (live live' : Live) : Prop where
  used : (∃ k w, Replaceable text canon k w) →
    Option.Rel UsedOnceMore (live.get canon) (live'.get canon)
  unused : (¬ ∃ k w, Replaceable text canon k w) → live'.get canon = live.get canon
  others : ∀ k, k ≠ canon → live'.get k = live.get k

def Simultaneous (text canon expr : Text) (live : Live) : Prop :=
  ∃ out live', substituteStorageInRhs text canon expr live = some (out, live') ∧
    Substituted text canon expr out ∧ Counted text canon live live'

/-- The searched region holds the names of the right-hand side, which do not get in each other's
way, and the count of the uses has room. -/
structure Straight (text canon : Text) (live : Live) : Prop where
  region : ∀ k w, w ∈ toSearch canon → Stands isWordByte text w k →
    (Within (splitRhsRegion text) k w ↔ Within (rightHandSide text) k w)
  compatible : Compatible isWordByte (toSearch canon) (splitRhsRegion text).body
  room : (∃ k w, Replaceable text canon k w) → ∀ lv, live.get canon = some lv →
    lv.useCount.val + 1 < 2 ^ 32

variable {live : Live}

theorem splitRhsRegion_of (text : Text) : (splitRhsRegion text).Of text :=
  carve_of fun n hn => by
    obtain ⟨j, rfl, hj⟩ := topLevel_eq_some hn
    rwa [Nat.zero_add]

theorem substitute_cells (expr : Text) (live : Live)
    (hcompat : Compatible isWordByte (toSearch canon) (splitRhsRegion text).body) :
    ∃ cells, substituteStorageInRhs text canon expr live =
        some (rendered (parenthesised expr) cells,
          if occurrences cells = [] then live else live.modify canon LiveValue.used) ∧
      Faithful isWordByte (toSearch canon) text cells ∧
        ∀ k w, (k, w) ∈ occurrences cells ↔ w ∈ toSearch canon ∧
          Stands isWordByte text w k ∧ Within (splitRhsRegion text) k w := by
  have hof := splitRhsRegion_of text
  rw [substituteStorageInRhs]
  generalize splitRhsRegion text = split at hcompat hof ⊢
  obtain ⟨rfl, hleft, hright⟩ := hof
  obtain ⟨s, c, hrun, ht, hall⟩ := passes_replace expr hcompat
  have hmarks : ∀ k w, (k, w) ∈ occurrences (kept split.before ++ (c ++ kept split.after)) ↔
      w ∈ toSearch canon ∧ Stands isWordByte (split.before ++ (split.body ++ split.after)) w k ∧
        Within split k w := by
    intro k w
    rw [mem_occurrences_inside]
    constructor
    · rintro ⟨i, rfl, hi⟩
      obtain ⟨hw, hs⟩ := (hall i w).mp hi
      obtain ⟨hs, hle⟩ := (stands_inside hleft hright).mpr hs
      exact ⟨hw, hs, Nat.le_add_right _ _, by rw [Nat.add_assoc]; exact Nat.add_le_add_left hle _⟩
    · rintro ⟨hw, hs, hlow, hhigh⟩
      obtain ⟨i, rfl⟩ := Nat.exists_eq_add_of_le hlow
      exact ⟨i, rfl, (hall i w).mpr ⟨hw, (stands_inside hleft hright).mp ⟨hs, by omega⟩⟩⟩
  refine ⟨_, ?_, ⟨?_, fun k w h => ?_⟩, hmarks⟩
  · have hflag : (if s.substituted then live.modify canon LiveValue.used else live) =
        if occurrences c = [] then live else live.modify canon LiveValue.used := by
      by_cases hnone : occurrences c = []
      · rw [if_pos hnone, if_neg fun h => ht.substituted.mp h hnone]
      · rw [if_neg hnone, if_pos (ht.substituted.mpr hnone)]
    rw [hrun, Option.map_some, hflag, rendered_append, rendered_append, rendered_kept,
      rendered_kept, ← ht.text, List.append_assoc]
    simp only [occurrences_inside, List.map_eq_nil_iff]
  · rw [original_append, original_append, original_kept, original_kept, ht.faithful.original]
  · obtain ⟨hw, hs, _⟩ := (hmarks k w).mp h
    exact ⟨hw, hs⟩

theorem saturatingSucc_val {n : Fin (2 ^ 32)} :
    (saturatingSucc n).val = n.val + 1 ↔ n.val + 1 < 2 ^ 32 := by
  rw [saturatingSucc]
  split
  · rename_i h
    exact ⟨fun _ => h, fun _ => rfl⟩
  · rename_i h
    exact ⟨fun heq => absurd heq (Nat.ne_of_lt (Nat.lt_succ_self _)), fun h' => absurd h' h⟩

theorem exists_mem_iff {cells : List (Cell Char)} {p : Nat → Text → Prop}
    (h : ∀ k w, (k, w) ∈ occurrences cells ↔ p k w) : occurrences cells ≠ [] ↔ ∃ k w, p k w := by
  constructor
  · intro hne
    obtain ⟨⟨k, w⟩, hmem⟩ := List.exists_mem_of_ne_nil _ hne
    exact ⟨k, w, (h k w).mp hmem⟩
  · rintro ⟨k, w, hp⟩
    exact List.ne_nil_of_mem ((h k w).mpr hp)

/-- The names in the searched region are the names that can be replaced. -/
theorem replaceable_iff (hregion : ∀ k w, w ∈ toSearch canon → Stands isWordByte text w k →
      (Within (splitRhsRegion text) k w ↔ Within (rightHandSide text) k w)) {k : Nat} {w : Text} :
    (w ∈ toSearch canon ∧ Stands isWordByte text w k ∧ Within (splitRhsRegion text) k w) ↔
      Replaceable text canon k w :=
  and_congr_right fun hw => and_congr_right fun hs => hregion k w hw hs

theorem simultaneous_of_straight (expr : Text) (h : Straight text canon live) :
    Simultaneous text canon expr live := by
  obtain ⟨cells, hrun, hf, hmarks⟩ := substitute_cells expr live h.compatible
  have hall : ∀ k w, (k, w) ∈ occurrences cells ↔ Replaceable text canon k w := fun k w =>
    (hmarks k w).trans (replaceable_iff h.region)
  have hsome := exists_mem_iff hall
  refine ⟨_, _, hrun, ⟨cells, hf.original, rfl, hall⟩, ⟨fun hused => ?_, fun hunused => ?_,
    fun k hk => ?_⟩⟩
  · rw [if_neg (hsome.mpr hused), OrderedMap.get_modify, if_pos rfl]
    cases hlive : live.get canon with
    | none => exact .none
    | some lv => exact .some ⟨rfl, rfl, saturatingSucc_val.mpr (h.room hused lv hlive)⟩
  · rw [if_pos (not_not.mp fun hne => hunused (hsome.mp hne))]
  · split
    · rfl
    · rw [OrderedMap.get_modify, if_neg hk]

theorem toSearch_letters (h : ∀ a ∈ canon, isWordByte a = true) :
    ∀ w ∈ toSearch canon, ∀ a ∈ w, isWordByte a = true := by
  rcases toSearch_cases canon with hletters | hsingle
  · exact hletters
  · rw [hsingle]
    intro w hw
    rwa [List.mem_singleton.mp hw]

theorem straight_of_simultaneous (hcanon : ∀ a ∈ canon, isWordByte a = true)
    (h : Simultaneous text canon expr live) : Straight text canon live := by
  have hletters := toSearch_letters hcanon
  have hcompat := compatible_of_words hletters (splitRhsRegion text).body
  obtain ⟨cells, hrun, hf, hmarks⟩ := substitute_cells expr live hcompat
  obtain ⟨out, live', hrun', ⟨cells', horiginal, hrendered, hall⟩, hcounted⟩ := h
  cases hrun.symm.trans hrun'
  have hf' : Faithful isWordByte (toSearch canon) text cells' :=
    ⟨horiginal, fun k w hw => ⟨((hall k w).mp hw).1, ((hall k w).mp hw).2.1⟩⟩
  obtain rfl : cells' = cells := eq_of_texts parenthesised_ne_nil open_head_parenthesised
    (hf'.lettered hletters) (hf.lettered hletters) (horiginal.trans hf.original.symm) hrendered
  refine ⟨fun k w hw hs => ⟨fun hin => ?_, fun hin => ?_⟩, hcompat, fun hused lv hlv => ?_⟩
  · exact ((hall k w).mp ((hmarks k w).mpr ⟨hw, hs, hin⟩)).2.2
  · exact ((hmarks k w).mp ((hall k w).mpr ⟨hw, hs, hin⟩)).2.2
  · have hrises := hcounted.used hused
    rw [if_neg ((exists_mem_iff hall).mpr hused), OrderedMap.get_modify, if_pos rfl, hlv,
      Option.map_some] at hrises
    cases hrises with
    | some hrises => exact saturatingSucc_val.mp hrises.2.2

/-- The substitution is simultaneous when the searched region is straight, and for a storage that
is one word only then. -/
theorem substitution_simultaneous (text canon expr : Text) (live : Live) :
    (Straight text canon live → Simultaneous text canon expr live) ∧
      ((∀ a ∈ canon, isWordByte a = true) → Simultaneous text canon expr live →
        Straight text canon live) :=
  ⟨simultaneous_of_straight expr, straight_of_simultaneous⟩

theorem two_names_replaced :
    Simultaneous "return rax + eax;".toList "rax".toList "al".toList
      (OrderedMap.empty.insert "rax".toList ⟨"al".toList, 0, 0⟩) := by
  have hletters : ∀ a ∈ "rax".toList, isWordByte a = true := List.all_eq_true.mp (by decide)
  have hregion : splitRhsRegion "return rax + eax;".toList =
      rightHandSide "return rax + eax;".toList := by decide
  refine (substitution_simultaneous _ _ _ _).1
    ⟨fun k w _ _ => by rw [hregion], compatible_of_words (toSearch_letters hletters) _,
      fun _ lv hlv => ?_⟩
  rw [OrderedMap.get_insert, if_pos rfl] at hlv
  cases hlv
  decide

/-- The left-hand side of a shift is replaced. -/
theorem shift_target_replaced :
    substituteStorageInRhs "rax <<= 3;".toList "rax".toList "rcx".toList OrderedMap.empty =
        some ("(rcx) <<= 3;".toList, OrderedMap.empty) ∧
      ¬ Simultaneous "rax <<= 3;".toList "rax".toList "rcx".toList OrderedMap.empty := by
  refine ⟨by decide, fun h => ?_⟩
  have hregion := (straight_of_simultaneous (List.all_eq_true.mp (by decide)) h).region
  have hs : Stands isWordByte "rax <<= 3;".toList "rax".toList 0 :=
    (standsAt_iff (by decide)).mp (by decide)
  have hin : Within (splitRhsRegion "rax <<= 3;".toList) 0 "rax".toList := by
    rw [Within]
    decide
  have hout : ¬ Within (rightHandSide "rax <<= 3;".toList) 0 "rax".toList := by
    rw [Within]
    decide
  exact hout ((hregion 0 _ (by decide) hs).mp hin)

end Axe.Substitution
