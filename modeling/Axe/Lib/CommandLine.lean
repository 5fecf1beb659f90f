import Mathlib.Algebra.BigOperators.Group.List.Basic
import Mathlib.Algebra.Order.Ring.Nat
import Mathlib.Data.List.TakeWhile

/-!
# Command lines and their arguments

A command line is split by the rules of Windows. The first token is the program. In the others
quotes keep blanks together, backslashes before a quote stand for half as many, with the quote
itself when they are odd, and a doubled quote inside quotes stands for a quote. Whether the quotes
go on behind a doubled quote is left open.
-/
namespace CommandLine

/-- The UTF-16 units of a text. -/
abbrev CodeUnit := Nat

def quote : CodeUnit := 0x22
def backslash : CodeUnit := 0x5C
def space : CodeUnit := 0x20

def isBlank (u : CodeUnit) : Bool := u = space || u = 0x09

/-- Behind the end of quotes another quote is a doubled one. -/
inductive Mode
  | plain | quoted | closed
  deriving DecidableEq

def Mode.settled : Mode → Mode
  | .closed => .plain
  | mode => mode

/-- An argument while it is read, with the backslashes that a quote may follow. -/
structure Token where
  read : List CodeUnit
  slashes : Nat
  mode : Mode
  deriving DecidableEq

namespace Token

def start : Token := ⟨[], 0, .plain⟩

def text (t : Token) : List CodeUnit := t.read ++ List.replicate t.slashes backslash

def feedQuote (stays : Bool) (t : Token) : Token :=
  let read := t.read ++ List.replicate (t.slashes / 2) backslash
  if t.slashes % 2 = 1 then ⟨read ++ [quote], 0, t.mode⟩
  else match t.mode with
    | .plain => ⟨read, 0, .quoted⟩
    | .quoted => ⟨read, 0, .closed⟩
    | .closed => ⟨read ++ [quote], 0, if stays then .quoted else .plain⟩

def feed (stays : Bool) (t : Token) (u : CodeUnit) : Token :=
  if u = quote then t.feedQuote stays
  else if u = backslash then ⟨t.read, t.slashes + 1, t.mode.settled⟩
  else ⟨t.text ++ [u], 0, t.mode.settled⟩

end Token

/-- The arguments of the rest of a line, in an argument or between two of them. -/
def splitRest (stays : Bool) : Option Token → List CodeUnit → List (List CodeUnit)
  | none, [] => []
  | some t, [] => [t.text]
  | none, u :: rest =>
    if isBlank u then splitRest stays none rest
    else splitRest stays (some (Token.start.feed stays u)) rest
  | some t, u :: rest =>
    if isBlank u && t.mode ≠ .quoted then t.text :: splitRest stays none rest
    else splitRest stays (some (t.feed stays u)) rest

/-- The program goes up to a blank, or from a quote up to the next one. -/
def split (stays : Bool) : List CodeUnit → List (List CodeUnit)
  | [] => []
  | u :: rest =>
    if u = quote then
      rest.takeWhile (· ≠ quote) :: splitRest stays none (rest.dropWhile (· ≠ quote)).tail
    else
      (u :: rest).takeWhile (fun u => !isBlank u) ::
        splitRest stays none ((u :: rest).dropWhile fun u => !isBlank u)

/-- A unit that stands for itself and ends nothing. -/
def Ordinary (u : CodeUnit) : Prop := u ≠ quote ∧ isBlank u = false

/-- An argument that can be written as it is. -/
def Word (a : List CodeUnit) : Prop := a ≠ [] ∧ ∀ u ∈ a, Ordinary u

variable {stays : Bool} {t : Token} {st : Option Token} {u : CodeUnit} {l w : List CodeUnit}

def Token.Plain (t : Token) : Prop := t.mode = .plain ∧ Word t.text

/-- Outside of quotes every blank ends an argument. -/
theorem ends_plain (hmode : t.mode = .plain) : (isBlank u && t.mode ≠ .quoted) = isBlank u := by
  rw [hmode]
  exact Bool.and_true _

theorem length_text (t : Token) : t.text.length = t.read.length + t.slashes := by
  rw [Token.text, List.length_append, List.length_replicate]

theorem feed_ordinary (hmode : t.mode = .plain) (hu : u ≠ quote) :
    (t.feed stays u).mode = .plain ∧ (t.feed stays u).text = t.text ++ [u] := by
  rw [Token.feed, if_neg hu, hmode]
  split
  · rename_i hslash
    refine ⟨rfl, ?_⟩
    rw [Token.text, Token.text, List.append_assoc, hslash, List.replicate_succ']
  · refine ⟨rfl, ?_⟩
    rw [Token.text, List.replicate_zero, List.append_nil]

theorem word_append (h : ∀ v ∈ l, Ordinary v) (hu : Ordinary u) : Word (l ++ [u]) := by
  refine ⟨List.append_ne_nil_of_right_ne_nil l (List.cons_ne_nil u []), fun v hv => ?_⟩
  rcases List.mem_append.mp hv with hv | hv
  · exact h v hv
  · rw [List.mem_singleton.mp hv]
    exact hu

theorem splitRest_word (hmode : t.mode = .plain) (hw : ∀ u ∈ w, Ordinary u) :
    ∃ t' : Token, t'.mode = .plain ∧ t'.text = t.text ++ w ∧
      splitRest stays (some t) (w ++ l) = splitRest stays (some t') l := by
  induction w generalizing t with
  | nil => exact ⟨t, hmode, (List.append_nil _).symm, rfl⟩
  | cons u w ih =>
    obtain ⟨hu, hrest⟩ := List.forall_mem_cons.mp hw
    obtain ⟨hmode', htext⟩ := @feed_ordinary stays t u hmode hu.1
    obtain ⟨t', ht', htext', hsplit⟩ := ih hmode' hrest
    refine ⟨t', ht', ?_, ?_⟩
    · rw [htext', htext, List.append_assoc]
      rfl
    · rw [List.cons_append, splitRest, ends_plain hmode, hu.2, if_neg Bool.false_ne_true]
      exact hsplit

/-- Words behind blanks are split again. -/
theorem splitRest_words {args : List (List CodeUnit)} (h : ∀ a ∈ args, Word a) :
    splitRest stays none (args.flatMap (space :: ·)) = args := by
  induction args with
  | nil => rfl
  | cons a args ih =>
    obtain ⟨ha, hrest⟩ := List.forall_mem_cons.mp h
    cases a with
    | nil => exact absurd rfl ha.1
    | cons u w =>
      obtain ⟨hu, hw⟩ := List.forall_mem_cons.mp ha.2
      obtain ⟨hmode, htext⟩ := @feed_ordinary stays Token.start u rfl hu.1
      obtain ⟨t, ht, htext', hsplit⟩ :=
        @splitRest_word stays _ (args.flatMap (space :: ·)) w hmode hw
      have hword : t.text = u :: w := by
        rw [htext', htext]
        rfl
      rw [List.flatMap_cons, List.cons_append, splitRest,
        if_pos (show isBlank space = true from rfl), List.cons_append, splitRest, hu.2,
        if_neg Bool.false_ne_true, hsplit]
      cases args with
      | nil => rw [List.flatMap_nil, splitRest, hword]
      | cons b args =>
        rw [List.flatMap_cons, List.cons_append] at ih ⊢
        rw [splitRest, if_pos (show isBlank space = true from rfl)] at ih
        rw [splitRest, ends_plain ht, if_pos (show isBlank space = true from rfl), hword, ih hrest]

/-- The units of some arguments with one blank for each. -/
def cost (args : List (List CodeUnit)) : Nat := (args.map fun a => a.length + 1).sum

/-- What is still to be written of what has been read. -/
def pending : Option Token → Nat
  | none => 1
  | some t => t.text.length + 1

theorem pending_none : pending none = 1 := rfl

theorem pending_some : pending (some t) = t.text.length + 1 := rfl

theorem length_feedQuote : (t.feedQuote stays).text.length + t.slashes ≤
    t.text.length + t.slashes / 2 + 1 := by
  rw [length_text, length_text, Token.feedQuote]
  split
  · simp only [List.length_append, List.length_replicate, List.length_singleton]
    omega
  · split
    · simp only [List.length_append, List.length_replicate]
      omega
    · simp only [List.length_append, List.length_replicate]
      omega
    · simp only [List.length_append, List.length_replicate, List.length_singleton]
      omega

theorem length_feed : (t.feed stays u).text.length ≤ t.text.length + 1 := by
  rw [Token.feed]
  split
  · have hquote := @length_feedQuote stays t
    omega
  · split
    · simp only [length_text]
      omega
    · simp only [length_text, List.length_append, List.length_singleton]
      omega

/-- Outside of quotes a quote is lost. -/
theorem length_feed_quote (hmode : t.mode = .plain) :
    (t.feed stays quote).text.length ≤ t.text.length := by
  rw [Token.feed, if_pos rfl]
  by_cases hodd : t.slashes % 2 = 1
  · have hquote := @length_feedQuote stays t
    omega
  · rw [Token.feedQuote, if_neg hodd, hmode]
    simp only [length_text, List.length_append, List.length_replicate]
    omega

theorem cost_cons (a : List CodeUnit) (args : List (List CodeUnit)) :
    cost (a :: args) = a.length + 1 + cost args := by
  rw [cost, List.map_cons, List.sum_cons]
  rfl

/-- Splitting makes nothing longer. -/
theorem cost_splitRest_le (l : List CodeUnit) (st : Option Token) :
    cost (splitRest stays st l) ≤ l.length + pending st := by
  induction l generalizing st with
  | nil =>
    cases st with
    | none => exact Nat.zero_le _
    | some t =>
      rw [splitRest, cost_cons, pending_some, List.length_nil, Nat.zero_add]
      exact Nat.le_refl _
  | cons u l ih =>
    rw [List.length_cons]
    cases st with
    | none =>
      rw [splitRest]
      split
      · have hrest := ih none
        omega
      · have hfeed := @length_feed stays Token.start u
        have hrest := ih (some (Token.start.feed stays u))
        have hstart : Token.start.text.length = 0 := rfl
        rw [pending_some] at hrest
        rw [pending_none]
        omega
    | some t =>
      rw [splitRest]
      split
      · have hrest := ih none
        rw [pending_none] at hrest
        rw [cost_cons, pending_some]
        omega
      · have hfeed := @length_feed stays t u
        have hrest := ih (some (t.feed stays u))
        rw [pending_some] at hrest ⊢
        omega

/-- Where nothing gets lost every argument is a word. -/
theorem words_of_cost (l : List CodeUnit) (st : Option Token) (hst : ∀ t, st = some t → t.Plain)
    (hcost : cost (splitRest stays st l) = l.length + pending st) :
    ∀ a ∈ splitRest stays st l, Word a := by
  induction l generalizing st with
  | nil =>
    cases st with
    | none => exact fun a ha => absurd ha List.not_mem_nil
    | some t =>
      intro a ha
      rw [splitRest, List.mem_singleton] at ha
      exact ha ▸ (hst t rfl).2
  | cons u l ih =>
    rw [List.length_cons] at hcost
    cases st with
    | none =>
      rw [splitRest] at hcost ⊢
      by_cases hblank : isBlank u = true
      · rw [if_pos hblank] at hcost
        have hle := @cost_splitRest_le stays l none
        omega
      · rw [if_neg hblank] at hcost ⊢
        have hle := @cost_splitRest_le stays l (some (Token.start.feed stays u))
        rw [pending_some] at hle
        rw [pending_none] at hcost
        have hstart : Token.start.text = [] := rfl
        have hu : u ≠ quote := by
          rintro rfl
          have hlost := @length_feed_quote stays Token.start rfl
          rw [hstart, List.length_nil] at hlost
          omega
        obtain ⟨hmode, htext⟩ := @feed_ordinary stays Token.start u rfl hu
        rw [hstart] at htext
        refine ih (some (Token.start.feed stays u)) (fun t ht => ?_) ?_
        · cases ht
          exact ⟨hmode, htext ▸ word_append (fun v hv => absurd hv List.not_mem_nil)
            ⟨hu, eq_false_of_ne_true hblank⟩⟩
        · rw [pending_some, htext, hcost]
          rfl
    | some t =>
      obtain ⟨hmode, hword⟩ := hst t rfl
      rw [splitRest, ends_plain hmode] at hcost ⊢
      rw [pending_some] at hcost
      by_cases hblank : isBlank u = true
      · rw [if_pos hblank, cost_cons] at hcost
        rw [if_pos hblank]
        refine List.forall_mem_cons.mpr ⟨hword, ih none (fun t ht => by cases ht) ?_⟩
        rw [pending_none]
        omega
      · rw [if_neg hblank] at hcost ⊢
        have hle := @cost_splitRest_le stays l (some (t.feed stays u))
        rw [pending_some] at hle
        have hu : u ≠ quote := by
          rintro rfl
          have hlost := @length_feed_quote stays t hmode
          omega
        obtain ⟨hmode', htext⟩ := @feed_ordinary stays t u hmode hu
        refine ih (some (t.feed stays u)) (fun t' ht' => ?_) ?_
        · cases ht'
          exact ⟨hmode', htext ▸ word_append hword.2
            ⟨hu, eq_false_of_ne_true hblank⟩⟩
        · rw [pending_some, htext, List.length_append, List.length_singleton]
          omega

/-- A line of the program and of arguments behind blanks is split into these exactly when the
program has no blanks and the arguments are words. -/
theorem split_eq_iff {program : List CodeUnit} {args : List (List CodeUnit)} (hne : program ≠ [])
    (hquote : quote ∉ program) :
    split stays (program ++ args.flatMap (space :: ·)) = program :: args ↔
      (∀ u ∈ program, isBlank u = false) ∧ ∀ a ∈ args, Word a := by
  have hsplit : split stays (program ++ args.flatMap (space :: ·)) =
      (program ++ args.flatMap (space :: ·)).takeWhile (fun u => !isBlank u) ::
        splitRest stays none
          ((program ++ args.flatMap (space :: ·)).dropWhile fun u => !isBlank u) := by
    cases program with
    | nil => exact absurd rfl hne
    | cons u program =>
      rw [List.mem_cons, not_or] at hquote
      rw [List.cons_append, split, if_neg (Ne.symm hquote.1)]
  rw [hsplit, List.cons.injEq]
  constructor
  · rintro ⟨htake, hargs⟩
    have hprogram : ∀ u ∈ program, isBlank u = false := by
      intro u hu
      rw [← htake] at hu
      simpa using List.mem_takeWhile_imp hu
    refine ⟨hprogram, ?_⟩
    have hdrop : (program ++ args.flatMap (space :: ·)).dropWhile (fun u => !isBlank u) =
        args.flatMap (space :: ·) := by
      have hall := @List.takeWhile_append_dropWhile _ (fun u => !isBlank u)
        (program ++ args.flatMap (space :: ·))
      rw [htake] at hall
      exact List.append_cancel_left hall
    rw [hdrop] at hargs
    cases args with
    | nil => exact fun a ha => absurd ha List.not_mem_nil
    | cons a args =>
      have hlength : ((a :: args).flatMap (space :: ·)).length = cost (a :: args) :=
        List.length_flatMap
      rw [List.flatMap_cons, List.cons_append] at hargs hlength
      rw [splitRest, if_pos (show isBlank space = true from rfl)] at hargs
      have hwords := @words_of_cost stays (a ++ args.flatMap (space :: ·)) none
        (fun t ht => by cases ht) (by rw [hargs, ← hlength, List.length_cons, pending])
      rwa [hargs] at hwords
  · rintro ⟨hprogram, hargs⟩
    have htake : ∀ u ∈ program, (fun u => !isBlank u) u = true := by
      intro u hu
      simpa using hprogram u hu
    rw [List.takeWhile_append_of_pos htake, List.dropWhile_append_of_pos htake]
    have hhead : (args.flatMap (space :: ·)).takeWhile (fun u => !isBlank u) = [] ∧
        (args.flatMap (space :: ·)).dropWhile (fun u => !isBlank u) =
          args.flatMap (space :: ·) := by
      cases args with
      | nil => exact ⟨rfl, rfl⟩
      | cons a args => exact ⟨rfl, rfl⟩
    rw [hhead.1, hhead.2, List.append_nil, splitRest_words hargs]
    exact ⟨rfl, rfl⟩

end CommandLine
