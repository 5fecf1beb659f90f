import Axe.Concolic.ModelText
import Axe.Concolic.Digits

/-!
# Which renderings are read back

Lines of the text are lines of pieces, so what the reader finds in a line is told on its pieces.
A mark starts with a character that only one kind of piece starts with, and is found where such a
piece stands.
-/
namespace Axe.Concolic

open Smt (isHexDigit)

section Breaks
variable {α β : Type} {isBreak : α → Bool}

theorem splitBreaks_ne_nil (l : List α) : splitBreaks isBreak l ≠ [] := by
  cases l with
  | nil => simp [splitBreaks]
  | cons a l =>
    unfold splitBreaks
    split
    · simp
    · split <;> simp

/-- A list without a break goes in front of the first part. -/
theorem splitBreaks_append {s : List α} (hs : ∀ a ∈ s, isBreak a = false) (l : List α) :
    splitBreaks isBreak (s ++ l) =
      (s ++ (splitBreaks isBreak l).headD []) :: (splitBreaks isBreak l).tail := by
  induction s with
  | nil =>
    cases h : splitBreaks isBreak l with
    | nil => exact absurd h (splitBreaks_ne_nil l)
    | cons first rest => simpa using h
  | cons a s ih =>
    rw [List.cons_append, splitBreaks, ih fun b hb => hs b (List.mem_cons_of_mem _ hb),
      hs a List.mem_cons_self]
    simp

/-- Splitting commutes with spelling out, when breaks are spelled as breaks and nothing else has
one. -/
theorem splitBreaks_flatMap {isBreak' : β → Bool} (f : β → List α)
    (hbreak : ∀ b, isBreak' b = true → ∃ a, f b = [a] ∧ isBreak a = true)
    (hother : ∀ b, isBreak' b = false → ∀ a ∈ f b, isBreak a = false) (l : List β) :
    splitBreaks isBreak (l.flatMap f) = (splitBreaks isBreak' l).map (List.flatMap f) := by
  induction l with
  | nil => rfl
  | cons b l ih =>
    rw [List.flatMap_cons]
    cases hb : isBreak' b with
    | true =>
      obtain ⟨a, ha, hbr⟩ := hbreak b hb
      rw [ha, List.singleton_append, splitBreaks, if_pos hbr, ih, splitBreaks, if_pos hb,
        List.map_cons, List.flatMap_nil]
    | false =>
      rw [splitBreaks_append (hother b hb), ih, splitBreaks, hb]
      cases h : splitBreaks isBreak' l with
      | nil => exact absurd h (splitBreaks_ne_nil l)
      | cons first rest => simp

end Breaks

/-- The characters inside words. -/
def Plain (c : Char) : Prop := 45 ≤ c.toNat ∧ c.toNat ≤ 122

instance : DecidablePred Plain := fun c => by unfold Plain; infer_instance

def Token.first : Token → Char
  | .lparen => '('
  | .rparen => ')'
  | .defineFun => 'd'
  | .name _ => 'i'
  | .underscore => '_'
  | .bitVec => 'B'
  | .eight => '8'
  | .model => 'm'
  | .hex _ | .binary _ => '#'
  | .bv _ => 'b'

theorem plain_of_isHexDigit {c : Char} (h : isHexDigit c = true) : Plain c := by
  simp only [isHexDigit, Bool.or_eq_true, Bool.and_eq_true, decide_eq_true_eq, Char.le_def,
    UInt32.le_iff_toNat_le] at h
  have hc : c.toNat = c.val.toNat := rfl
  unfold Plain
  simp at h
  omega

theorem plain_of_isBinaryDigit {c : Char} (h : isBinaryDigit c = true) : Plain c := by
  simp only [isBinaryDigit, Bool.or_eq_true, decide_eq_true_eq] at h
  rcases h with rfl | rfl <;> decide

theorem plain_of_isDigit {c : Char} (hd : c.isDigit = true) : Plain c := by
  simp only [Char.isDigit, Bool.and_eq_true, decide_eq_true_eq, ge_iff_le,
    UInt32.le_iff_toNat_le] at hd
  have hc : c.toNat = c.val.toNat := rfl
  unfold Plain
  simp at hd
  omega

theorem plain_of_mem_toDigits {n : Nat} {c : Char} (h : c ∈ Nat.toDigits 10 n) : Plain c :=
  plain_of_isDigit (Nat.isDigit_of_mem_toDigits (by decide) (by decide) h)

theorem Token.chars_eq (t : Token) : ∃ s, t.chars = t.first :: s ∧ ∀ c ∈ s, Plain c := by
  cases t with
  | lparen | rparen | underscore | eight => exact ⟨[], rfl, by simp⟩
  | defineFun => exact ⟨"efine-fun".toList, rfl, by simp; decide⟩
  | bitVec => exact ⟨"itVec".toList, rfl, by simp; decide⟩
  | model => exact ⟨"odel".toList, rfl, by simp; decide⟩
  | name index =>
    refine ⟨"nput_b".toList ++ Nat.toDigits 10 index, rfl, fun c hc => ?_⟩
    have hlit : ∀ c ∈ "nput_b".toList, Plain c := by simp; decide
    rcases List.mem_append.mp hc with hc | hc
    · exact hlit c hc
    · exact plain_of_mem_toDigits hc
  | bv value =>
    refine ⟨"v".toList ++ Nat.toDigits 10 value.toNat, rfl, fun c hc => ?_⟩
    rcases List.mem_append.mp hc with hc | hc
    · rw [List.mem_singleton.mp hc]
      decide
    · exact plain_of_mem_toDigits hc
  | hex ds =>
    refine ⟨'x' :: ds.1, rfl, fun c hc => ?_⟩
    rcases List.mem_cons.mp hc with rfl | hc
    · decide
    · exact plain_of_isHexDigit (ds.2.2 c hc)
  | binary ds =>
    refine ⟨'b' :: ds.1, rfl, fun c hc => ?_⟩
    rcases List.mem_cons.mp hc with rfl | hc
    · decide
    · exact plain_of_isBinaryDigit (ds.2.2 c hc)

theorem isWhiteSpace_first (t : Token) : isWhiteSpace t.first = false := by
  cases t <;> rfl

theorem isWhiteSpace_of_plain {c : Char} (h : Plain c) : isWhiteSpace c = false := by
  obtain ⟨h, h'⟩ := h
  simp only [isWhiteSpace, Bool.or_eq_false_iff, Bool.and_eq_false_iff, decide_eq_false_iff_not]
  omega

theorem Token.chars_not_blank (t : Token) : ∀ c ∈ t.chars, isWhiteSpace c = false := by
  obtain ⟨s, hs, hplain⟩ := t.chars_eq
  intro c hc
  rw [hs] at hc
  rcases List.mem_cons.mp hc with rfl | hc
  · exact isWhiteSpace_first t
  · exact isWhiteSpace_of_plain (hplain c hc)

theorem Token.chars_ne_nil (t : Token) : t.chars ≠ [] := by
  obtain ⟨s, hs, -⟩ := t.chars_eq
  simp [hs]

theorem blank_isWhiteSpace (c : Blank) : isWhiteSpace c.1 = true := by
  obtain ⟨c, hc⟩ := c
  simp only [List.mem_cons, List.not_mem_nil, or_false] at hc
  rcases hc with rfl | rfl | rfl | rfl <;> rfl

theorem splitBreaks_text (ps : List Piece) :
    splitBreaks (· = '\n') (text ps) = (splitBreaks Piece.isNewline ps).map text := by
  refine splitBreaks_flatMap Piece.chars (fun p hp => ?_) (fun p hp a ha => ?_) ps
  · cases p with
    | token t => cases hp
    | blank c => exact ⟨c.1, rfl, hp⟩
  · cases p with
    | blank c => rwa [List.mem_singleton.mp ha]
    | token t =>
      have := t.chars_not_blank a ha
      by_contra hc
      have hnl : a = '\n' := by simpa using hc
      rw [hnl] at this
      exact absurd this (by decide)

/-- White space is stripped off a text as blanks are stripped off its pieces. -/
theorem dropWhile_flatMap {f : Piece → List Char}
    (hblank : ∀ c, f (.blank c) = [c.1])
    (htoken : ∀ t, ∃ c s, f (.token t) = c :: s ∧ isWhiteSpace c = false) (ps : List Piece) :
    (ps.flatMap f).dropWhile isWhiteSpace = (ps.dropWhile Piece.isBlank).flatMap f := by
  induction ps with
  | nil => rfl
  | cons p ps ih =>
    cases p with
    | blank c =>
      rw [List.flatMap_cons, hblank, List.singleton_append,
        List.dropWhile_cons_of_pos (blank_isWhiteSpace c), ih,
        List.dropWhile_cons_of_pos (by rfl)]
    | token t =>
      obtain ⟨c, s, hs, hc⟩ := htoken t
      rw [List.dropWhile_cons_of_neg (by simp [Piece.isBlank]), List.flatMap_cons, hs,
        List.cons_append, List.dropWhile_cons_of_neg (by simp [hc])]

theorem trim_text (ps : List Piece) : trim (text ps) = text (trimPieces ps) := by
  have hfront : (text ps).dropWhile isWhiteSpace = text (ps.dropWhile Piece.isBlank) := by
    refine dropWhile_flatMap (fun _ => rfl) (fun t => ?_) ps
    obtain ⟨c, s, hs⟩ := List.exists_cons_of_ne_nil t.chars_ne_nil
    exact ⟨c, s, hs, t.chars_not_blank c (by simp [hs])⟩
  rw [trim, hfront, trimPieces]
  generalize ps.dropWhile Piece.isBlank = qs
  have hback : (text qs).reverse.dropWhile isWhiteSpace =
      (qs.reverse.dropWhile Piece.isBlank).flatMap (List.reverse ∘ Piece.chars) := by
    rw [text, List.reverse_flatMap]
    refine dropWhile_flatMap (fun _ => rfl) (fun t => ?_) qs.reverse
    have hne : t.chars.reverse ≠ [] := by simp [t.chars_ne_nil]
    obtain ⟨c, s, hs⟩ := List.exists_cons_of_ne_nil hne
    have hc : c ∈ t.chars := List.mem_reverse.mp (by simp [hs])
    exact ⟨c, s, hs, t.chars_not_blank c hc⟩
  rw [hback, List.reverse_flatMap, text]
  congr 1
  funext p
  simp

theorem text_cons (p : Piece) (ps : List Piece) : text (p :: ps) = p.chars ++ text ps :=
  List.flatMap_cons

@[simp] theorem chars_blank (c : Blank) : (Piece.blank c).chars = [c.1] := rfl
@[simp] theorem chars_lparen : (Piece.token .lparen).chars = ['('] := rfl
@[simp] theorem chars_underscore : (Piece.token .underscore).chars = ['_'] := rfl
@[simp] theorem chars_defineFun :
    (Piece.token .defineFun).chars = "define-fun".toList := rfl
@[simp] theorem chars_name (i : Nat) :
    (Piece.token (.name i)).chars = "input_b".toList ++ Nat.toDigits 10 i := rfl
@[simp] theorem chars_bv (v : BitVec 8) :
    (Piece.token (.bv v)).chars = "bv".toList ++ Nat.toDigits 10 v.toNat := rfl
@[simp] theorem chars_hex (ds : HexByte) : (Piece.token (.hex ds)).chars = '#' :: 'x' :: ds.1 := rfl
@[simp] theorem chars_binary (ds : BinaryByte) :
    (Piece.token (.binary ds)).chars = '#' :: 'b' :: ds.1 := rfl

def Piece.first : Piece → Char
  | .blank c => c.1
  | .token t => t.first

theorem text_eq_cons {ps : List Piece} {c : Char} {s : List Char} (h : text ps = c :: s) :
    ∃ p ps', ps = p :: ps' ∧ p.first = c := by
  cases ps with
  | nil => cases h
  | cons p ps =>
    refine ⟨p, ps, rfl, ?_⟩
    cases p with
    | blank b => exact (List.cons.inj h).1
    | token t =>
      obtain ⟨s', hs', -⟩ := t.chars_eq
      rw [text_cons, Piece.chars, hs'] at h
      exact (List.cons.inj h).1

/-- Other characters than white space start a token. -/
theorem text_eq_visible {ps : List Piece} {c : Char} {s : List Char}
    (hc : isWhiteSpace c = false) (h : text ps = c :: s) :
    ∃ t ps', ps = .token t :: ps' ∧ t.first = c := by
  obtain ⟨p, ps', rfl, hp⟩ := text_eq_cons h
  cases p with
  | blank b =>
    have hwhite := blank_isWhiteSpace b
    rw [show b.1 = c from hp, hc] at hwhite
    cases hwhite
  | token t => exact ⟨t, ps', rfl, hp⟩

theorem text_eq_token {ps : List Piece} {t : Token} {s : List Char}
    (ht : ∀ t', t'.first = t.first → t' = t) (h : text ps = (Piece.token t).chars ++ s) :
    ∃ ps', ps = .token t :: ps' ∧ text ps' = s := by
  obtain ⟨s', hs', -⟩ := t.chars_eq
  have hhead : text ps = t.first :: (s' ++ s) := by rw [h, Piece.chars, hs', List.cons_append]
  obtain ⟨t', ps', rfl, hfirst⟩ := text_eq_visible (isWhiteSpace_first t) hhead
  obtain rfl := ht t' hfirst
  rw [text_cons] at h
  exact ⟨ps', rfl, List.append_cancel_left h⟩

theorem text_eq_space {ps : List Piece} {s : List Char} (h : text ps = ' ' :: s) :
    ∃ ps', ps = spaceBlank :: ps' ∧ text ps' = s := by
  obtain ⟨p, ps', rfl, hp⟩ := text_eq_cons h
  cases p with
  | blank b =>
    obtain rfl : b = ⟨' ', by simp⟩ := Subtype.ext hp
    exact ⟨ps', rfl, (List.cons.inj h).2⟩
  | token t => cases t <;> cases hp

theorem text_eq_name {ps : List Piece} {s : List Char} (h : text ps = "input_b".toList ++ s) :
    ∃ i ps', ps = .token (.name i) :: ps' ∧ s = Nat.toDigits 10 i ++ text ps' := by
  have hhead : text ps = 'i' :: ("nput_b".toList ++ s) := by
    rw [h]
    simp
  obtain ⟨t, ps', rfl, hp⟩ := text_eq_visible (by rfl) hhead
  cases t with
  | name i =>
    refine ⟨i, ps', rfl, ?_⟩
    rw [text_cons, chars_name, List.append_assoc] at h
    exact (List.append_cancel_left h).symm
  | _ => cases hp

theorem text_eq_bv {ps : List Piece} {s : List Char} (h : text ps = "bv".toList ++ s) :
    ∃ v ps', ps = .token (.bv v) :: ps' ∧ s = Nat.toDigits 10 v.toNat ++ text ps' := by
  have hhead : text ps = 'b' :: ('v' :: s) := by
    rw [h]
    simp
  obtain ⟨t, ps', rfl, hp⟩ := text_eq_visible (by rfl) hhead
  cases t with
  | bv v =>
    refine ⟨v, ps', rfl, ?_⟩
    rw [text_cons, chars_bv, List.append_assoc] at h
    exact (List.append_cancel_left h).symm
  | _ => cases hp

theorem first_inj {t : Token} (ht : t ∈ [Token.lparen, .defineFun, .underscore]) {t' : Token}
    (h : t'.first = t.first) : t' = t := by
  simp only [List.mem_cons, List.not_mem_nil, or_false] at ht
  rcases ht with rfl | rfl | rfl <;> cases t' <;> first | rfl | cases h

/-- The line opens an item. -/
theorem isPrefixOf?_opening {ps : List Piece} {s : List Char} :
    "(define-fun input_b".toList.isPrefixOf? (text ps) = some s ↔
      ∃ i rest, ps = .token .lparen :: .token .defineFun :: spaceBlank :: .token (.name i) :: rest ∧
        s = Nat.toDigits 10 i ++ text rest := by
  have hsplit : "(define-fun input_b".toList =
      (Piece.token .lparen).chars ++ ((Piece.token .defineFun).chars ++ (' ' :: "input_b".toList)) := by
    simp
  rw [List.isPrefixOf?_eq_some_iff_append_eq, hsplit]
  constructor
  · intro h
    rw [List.append_assoc] at h
    obtain ⟨ps₁, rfl, h₁⟩ := text_eq_token (t := .lparen) (fun _ => first_inj (by simp)) h.symm
    rw [List.append_assoc] at h₁
    obtain ⟨ps₂, rfl, h₂⟩ := text_eq_token (t := .defineFun) (fun _ => first_inj (by simp)) h₁
    obtain ⟨ps₃, rfl, h₃⟩ := text_eq_space h₂
    obtain ⟨i, rest, rfl, hs⟩ := text_eq_name h₃
    exact ⟨i, rest, rfl, hs⟩
  · rintro ⟨i, rest, rfl, rfl⟩
    simp [text, spaceBlank]

/-- A number literal starts here. -/
theorem isPrefixOf?_decimal {ps : List Piece} {s : List Char} :
    "(_ bv".toList.isPrefixOf? (text ps) = some s ↔
      ∃ v rest, ps = .token .lparen :: .token .underscore :: spaceBlank :: .token (.bv v) :: rest ∧
        s = Nat.toDigits 10 v.toNat ++ text rest := by
  have hsplit : "(_ bv".toList =
      (Piece.token .lparen).chars ++ ((Piece.token .underscore).chars ++ (' ' :: "bv".toList)) := by
    simp
  rw [List.isPrefixOf?_eq_some_iff_append_eq, hsplit]
  constructor
  · intro h
    rw [List.append_assoc] at h
    obtain ⟨ps₁, rfl, h₁⟩ := text_eq_token (t := .lparen) (fun _ => first_inj (by simp)) h.symm
    rw [List.append_assoc] at h₁
    obtain ⟨ps₂, rfl, h₂⟩ := text_eq_token (t := .underscore) (fun _ => first_inj (by simp)) h₁
    obtain ⟨ps₃, rfl, h₃⟩ := text_eq_space h₂
    obtain ⟨v, rest, rfl, hs⟩ := text_eq_bv h₃
    exact ⟨v, rest, rfl, hs⟩
  · rintro ⟨v, rest, rfl, rfl⟩
    simp [text, spaceBlank]

/-- No two words stand next to each other. -/
def Separated (ps : List Piece) : Prop := ps.IsChain fun a b => (a.isWord && b.isWord) = false

theorem u8FromStrRadix_eq {s : List Char} (hs : '+' ∉ s) (radix : Nat) :
    u8FromStrRadix s radix =
      (digits radix s).bind fun n => if n < 2 ^ 8 then some (BitVec.ofNat 8 n) else none := by
  unfold u8FromStrRadix
  split
  · rename_i ds
    exact absurd List.mem_cons_self hs
  · rfl

theorem toDigit_of_isHexDigit {c : Char} (h : isHexDigit c = true) :
    (toDigit 16 c).isSome = true := by
  have hall : ∀ n < 123, isHexDigit (Char.ofNat n) = true →
      (toDigit 16 (Char.ofNat n)).isSome = true := by decide
  have hlt := (plain_of_isHexDigit h).2
  rw [← Char.ofNat_toNat c] at h ⊢
  exact hall _ (by omega) h

theorem toDigit_of_isBinaryDigit {c : Char} (h : isBinaryDigit c = true) :
    (toDigit 2 c).isSome = true := by
  simp only [isBinaryDigit, Bool.or_eq_true, decide_eq_true_eq] at h
  rcases h with rfl | rfl <;> rfl

theorem not_plain_of_mem {c : Char} (hc : ¬ Plain c) {s : List Char} (hs : ∀ c ∈ s, Plain c) :
    c ∉ s := fun h => hc (hs c h)

theorem HexByte.read (ds : HexByte) : u8FromStrRadix ds.1 16 = some ds.value := by
  have hne : ds.1 ≠ [] := fun h => by simpa [h] using ds.2.1
  obtain ⟨n, hn, heq⟩ := digits_bound hne fun c hc => toDigit_of_isHexDigit (ds.2.2 c hc)
  rw [ds.2.1] at hn
  have hplus : '+' ∉ ds.1 :=
    not_plain_of_mem (by decide) fun c hc => plain_of_isHexDigit (ds.2.2 c hc)
  rw [u8FromStrRadix_eq hplus, heq, Option.bind_some, if_pos (by omega), HexByte.value, heq,
    Option.getD_some]

theorem BinaryByte.read (ds : BinaryByte) : u8FromStrRadix ds.1 2 = some ds.value := by
  have hne : ds.1 ≠ [] := fun h => by simpa [h] using ds.2.1
  obtain ⟨n, hn, heq⟩ := digits_bound hne fun c hc => toDigit_of_isBinaryDigit (ds.2.2 c hc)
  rw [ds.2.1] at hn
  have hplus : '+' ∉ ds.1 :=
    not_plain_of_mem (by decide) fun c hc => plain_of_isBinaryDigit (ds.2.2 c hc)
  rw [u8FromStrRadix_eq hplus, heq, Option.bind_some, if_pos (by omega), BinaryByte.value, heq,
    Option.getD_some]

theorem decimal_read (v : BitVec 8) :
    u8FromStrRadix (Nat.toDigits 10 v.toNat) 10 = some v := by
  have hplus : '+' ∉ Nat.toDigits 10 v.toNat :=
    not_plain_of_mem (by decide) fun c hc => plain_of_mem_toDigits hc
  rw [u8FromStrRadix_eq hplus, digits_toDigits (by decide) (by decide), Option.bind_some,
    if_pos v.isLt, BitVec.ofNat_toNat, BitVec.setWidth_eq]

theorem isPrefixOf?_cons_of_ne {m c : Char} (h : m ≠ c) (q s : List Char) :
    (m :: q).isPrefixOf? (c :: s) = none := by
  simp [List.isPrefixOf?, h]

/-- A text without the mark's first character is passed over. -/
theorem findAfter_append {m : Char} {s : List Char} (hs : m ∉ s) (q t : List Char) :
    findAfter (m :: q) (s ++ t) = findAfter (m :: q) t := by
  induction s with
  | nil => rfl
  | cons c s ih =>
    obtain ⟨hc, hs⟩ := not_or.mp (List.mem_cons.not.mp hs)
    rw [List.cons_append, findAfter, isPrefixOf?_cons_of_ne hc]
    exact ih hs

theorem first_of_not_word {p : Piece} (hp : p.isWord = false) :
    ¬ Plain p.first ∧ ∃ s, p.chars = p.first :: s := by
  cases p with
  | blank b =>
    refine ⟨fun h => ?_, [], rfl⟩
    have := isWhiteSpace_of_plain h
    rw [show (Piece.blank b).first = b.1 from rfl, blank_isWhiteSpace b] at this
    cases this
  | token t =>
    obtain ⟨s, hs, -⟩ := t.chars_eq
    refine ⟨?_, s, hs⟩
    cases t with
    | lparen | rparen => decide
    | _ => cases hp

/-- Behind a word a run of plain characters ends. -/
theorem takeWhile_word {inLiteral : Char → Bool} (hplain : ∀ c, inLiteral c = true → Plain c)
    {p : Piece} {ps : List Piece} (hsep : Separated (p :: ps)) (hp : p.isWord = true)
    {ds : List Char} (hds : ∀ c ∈ ds, inLiteral c = true) :
    (ds ++ text ps).takeWhile inLiteral = ds := by
  rw [List.takeWhile_append_of_pos hds]
  suffices h : (text ps).takeWhile inLiteral = [] by rw [h, List.append_nil]
  cases ps with
  | nil => rfl
  | cons q ps =>
    have hq : q.isWord = false := by
      have := (List.isChain_cons_cons.mp hsep).1
      rwa [hp, Bool.true_and] at this
    obtain ⟨hnot, s, hs⟩ := first_of_not_word hq
    rw [text_cons, hs, List.cons_append, List.takeWhile_cons_of_neg fun h => hnot (hplain _ h)]

theorem findAfter_cons_none {pat : List Char} {c : Char} {s : List Char}
    (h : pat.isPrefixOf? (c :: s) = none) : findAfter pat (c :: s) = findAfter pat s := by
  rw [findAfter, h]

theorem findAfter_cons_some {pat : List Char} {c : Char} {s rest : List Char}
    (h : pat.isPrefixOf? (c :: s) = some rest) : findAfter pat (c :: s) = some rest := by
  rw [findAfter, h]

/-- A literal behind `#` and a letter is the one of the first token of its form. -/
theorem literalAfter_hash {mark : String} (k : Char) (hmark : mark.toList = ['#', k])
    {inLiteral : Char → Bool} (hplain : ∀ c, inLiteral c = true → Plain c)
    (form : Piece → Option (List Char))
    (hform : ∀ p ds, form p = some ds → p.chars = '#' :: k :: ds ∧ p.isWord = true ∧ ds ≠ [] ∧
      ∀ c ∈ ds, inLiteral c = true)
    (hother : ∀ p t, form p = none →
      findAfter ['#', k] (p.chars ++ t) = findAfter ['#', k] t)
    {ps : List Piece} (hsep : Separated ps) :
    literalAfter mark inLiteral (text ps) = ps.findSome? form := by
  unfold literalAfter
  rw [hmark]
  induction ps with
  | nil => rfl
  | cons p ps ih =>
    rw [text_cons]
    cases hp : form p with
    | none =>
      rw [hother p _ hp, List.findSome?_cons_of_isNone (by simp [hp])]
      exact ih hsep.tail
    | some ds =>
      obtain ⟨hchars, hword, hne, hds⟩ := hform p ds hp
      have hprefix : ['#', k].isPrefixOf? ('#' :: (k :: ds ++ text ps)) = some (ds ++ text ps) := by
        simp [List.isPrefixOf?]
      rw [hchars, List.cons_append, findAfter_cons_some hprefix,
        List.findSome?_cons_of_isSome (by simp [hp])]
      simp only [takeWhile_word hplain hsep hword hds, if_neg hne, hp]

/-- Pieces without a literal of a form are passed over in the search for its mark. -/
theorem findAfter_other {k : Char} {p : Piece} (t : List Char)
    (hp : ∀ k' ds, p.chars = '#' :: k' :: ds → k ≠ k' ∧ ∀ c ∈ k' :: ds, Plain c) :
    findAfter ['#', k] (p.chars ++ t) = findAfter ['#', k] t := by
  have hhash : ¬ Plain '#' := by decide
  by_cases hfirst : p.first = '#'
  · cases p with
    | blank b =>
      have := blank_isWhiteSpace b
      rw [show b.1 = '#' from hfirst] at this
      exact absurd this (by decide)
    | token tok =>
      have hcase : ∃ k' ds, (Piece.token tok).chars = '#' :: k' :: ds := by
        cases tok with
        | hex ds => exact ⟨'x', ds.1, rfl⟩
        | binary ds => exact ⟨'b', ds.1, rfl⟩
        | _ => cases hfirst
      obtain ⟨k', ds, hchars⟩ := hcase
      obtain ⟨hk, hplain⟩ := hp k' ds hchars
      have hnone : ['#', k].isPrefixOf? ('#' :: (k' :: ds ++ t)) = none := by
        simp [List.isPrefixOf?, hk]
      rw [hchars, List.cons_append, findAfter_cons_none hnone]
      exact findAfter_append (not_plain_of_mem hhash hplain) _ _
  · refine findAfter_append ?_ _ _
    cases p with
    | blank b => exact fun h => hfirst (List.mem_singleton.mp h).symm
    | token tok =>
      obtain ⟨s, hs, hplain⟩ := tok.chars_eq
      rw [Piece.chars, hs]
      refine List.not_mem_cons_of_ne_of_not_mem (Ne.symm hfirst) ?_
      exact not_plain_of_mem hhash hplain

theorem literalAfter_hex {ps : List Piece} (hsep : Separated ps) :
    literalAfter "#x" isHexDigit (text ps) = (ps.findSome? Piece.hex?).map (·.1) := by
  rw [List.map_findSome?]
  refine literalAfter_hash 'x' (by simp) (fun _ => plain_of_isHexDigit) _ ?_ ?_ hsep
  · intro p ds hp
    obtain ⟨d, hd, rfl⟩ := Option.map_eq_some_iff.mp hp
    cases p with
    | blank b => cases hd
    | token tok =>
      cases tok with
      | hex ds' =>
        cases hd
        exact ⟨rfl, rfl, fun h => by simpa [h] using d.2.1, d.2.2⟩
      | _ => cases hd
  · intro p t hp
    refine findAfter_other t fun k' ds hchars => ?_
    cases p with
    | blank b => cases (List.cons.inj hchars).2
    | token tok =>
      cases tok with
      | binary ds' =>
        cases hchars
        refine ⟨by decide, fun c hc => ?_⟩
        rcases List.mem_cons.mp hc with rfl | hc
        · decide
        · exact plain_of_isBinaryDigit (ds'.2.2 c hc)
      | hex ds' => cases hp
      | _ => cases hchars

theorem literalAfter_binary {ps : List Piece} (hsep : Separated ps) :
    literalAfter "#b" isBinaryDigit (text ps) = (ps.findSome? Piece.binary?).map (·.1) := by
  rw [List.map_findSome?]
  refine literalAfter_hash 'b' (by simp) (fun _ => plain_of_isBinaryDigit) _ ?_ ?_ hsep
  · intro p ds hp
    obtain ⟨d, hd, rfl⟩ := Option.map_eq_some_iff.mp hp
    cases p with
    | blank b => cases hd
    | token tok =>
      cases tok with
      | binary ds' =>
        cases hd
        exact ⟨rfl, rfl, fun h => by simpa [h] using d.2.1, d.2.2⟩
      | _ => cases hd
  · intro p t hp
    refine findAfter_other t fun k' ds hchars => ?_
    cases p with
    | blank b => cases (List.cons.inj hchars).2
    | token tok =>
      cases tok with
      | hex ds' =>
        cases hchars
        refine ⟨by decide, fun c hc => ?_⟩
        rcases List.mem_cons.mp hc with rfl | hc
        · decide
        · exact plain_of_isHexDigit (ds'.2.2 c hc)
      | binary ds' => cases hp
      | _ => cases hchars

theorem firstDecimal_here (v : BitVec 8) (rest : List Piece) :
    firstDecimal (.token .lparen :: .token .underscore :: spaceBlank :: .token (.bv v) :: rest) =
      some (v, rest) := by
  simp [firstDecimal]

theorem firstDecimal_skip {p : Piece} {ps : List Piece}
    (h : ∀ v rest, p :: ps ≠
      .token .lparen :: .token .underscore :: spaceBlank :: .token (.bv v) :: rest) :
    firstDecimal (p :: ps) = firstDecimal ps := by
  rw [firstDecimal.eq_def]
  simp only
  split
  · rename_i space v rest
    rw [if_neg fun hs => h v rest (by rw [hs])]
  · rfl

theorem findAfter_decimal (ps : List Piece) :
    findAfter "(_ bv".toList (text ps) =
      (firstDecimal ps).map fun found => Nat.toDigits 10 found.1.toNat ++ text found.2 := by
  have hmark : "(_ bv".toList = '(' :: "_ bv".toList := by simp
  induction ps with
  | nil =>
    rw [hmark]
    rfl
  | cons p ps ih =>
    by_cases hp : p = .token .lparen
    · subst hp
      cases hpre : "(_ bv".toList.isPrefixOf? (text (.token .lparen :: ps)) with
      | none =>
        rw [firstDecimal_skip, ← ih]
        · exact findAfter_cons_none hpre
        · intro v rest h
          rw [h] at hpre
          have := isPrefixOf?_decimal.mpr ⟨v, rest, rfl, rfl⟩
          rw [this] at hpre
          cases hpre
      | some s =>
        obtain ⟨v, rest, hps, rfl⟩ := isPrefixOf?_decimal.mp hpre
        rw [show findAfter _ (text (.token .lparen :: ps)) = _ from findAfter_cons_some hpre, hps,
          firstDecimal_here, Option.map_some]
    · rw [firstDecimal_skip fun v rest h => hp (List.cons.inj h).1, ← ih, text_cons, hmark]
      refine findAfter_append ?_ _ _
      have hopen : ¬ Plain '(' := by decide
      cases p with
      | blank b =>
        intro h
        have := blank_isWhiteSpace b
        rw [← List.mem_singleton.mp h] at this
        exact absurd this (by decide)
      | token tok =>
        obtain ⟨s, hs, hplain⟩ := tok.chars_eq
        rw [Piece.chars, hs]
        refine List.not_mem_cons_of_ne_of_not_mem (fun h => hp ?_) (not_plain_of_mem hopen hplain)
        rw [first_inj (t := .lparen) (by simp) h.symm]

theorem digits_not_space (n : Nat) : ∀ c ∈ Nat.toDigits 10 n, decide (c ≠ ' ') = true := by
  intro c hc
  have hplain := plain_of_mem_toDigits hc
  refine decide_eq_true fun h => ?_
  rw [h] at hplain
  exact absurd hplain (by decide)

/-- Before a space or the end of the line, a number is set off. -/
theorem number_atSpace {ps : List Piece} (hps : atSpace ps = true) (n : Nat) :
    (Nat.toDigits 10 n ++ text ps).takeWhile (· ≠ ' ') = Nat.toDigits 10 n ∧
      (Nat.toDigits 10 n ++ text ps).dropWhile (· ≠ ' ') = text ps := by
  have hrest : (text ps).takeWhile (· ≠ ' ') = [] ∧ (text ps).dropWhile (· ≠ ' ') = text ps := by
    cases ps with
    | nil => exact ⟨rfl, rfl⟩
    | cons q qs =>
      obtain rfl : q = spaceBlank := of_decide_eq_true hps
      exact ⟨rfl, rfl⟩
  rw [List.takeWhile_append_of_pos (digits_not_space n), List.dropWhile_append_of_pos
    (digits_not_space n), hrest.1, List.append_nil, hrest.2]
  exact ⟨rfl, rfl⟩

/-- Before anything else, a character that is no digit is read with it. -/
theorem number_not_atSpace {p : Piece} {ps : List Piece} (hsep : Separated (p :: ps))
    (hp : p.isWord = true) (hps : atSpace ps = false) (n : Nat) :
    ∃ c s, (Nat.toDigits 10 n ++ text ps).takeWhile (· ≠ ' ') = Nat.toDigits 10 n ++ c :: s ∧
      ¬ Plain c := by
  cases ps with
  | nil => cases hps
  | cons q qs =>
    have hq : q.isWord = false := by
      have := (List.isChain_cons_cons.mp hsep).1
      rwa [hp, Bool.true_and] at this
    obtain ⟨hnot, s, hs⟩ := first_of_not_word hq
    have hspace : q.first ≠ ' ' := by
      intro h
      cases q with
      | token tok => cases tok <;> cases h
      | blank b =>
        have hb : b = ⟨' ', by simp⟩ := Subtype.ext h
        simp [atSpace, spaceBlank, hb] at hps
    refine ⟨q.first, (s ++ text qs).takeWhile (· ≠ ' '), ?_, hnot⟩
    rw [List.takeWhile_append_of_pos (digits_not_space n), text_cons, hs, List.cons_append,
      List.takeWhile_cons_of_pos (by simpa using hspace)]

theorem toDigits_ne_plus (n : Nat) (s : List Char) : ∀ ds, Nat.toDigits 10 n ++ s ≠ '+' :: ds := by
  intro ds h
  obtain ⟨c, cs, hc⟩ := List.exists_cons_of_ne_nil (Nat.toDigits_ne_nil (b := 10) (n := n))
  rw [hc] at h
  have hplain := plain_of_mem_toDigits (n := n) (c := c) (by simp [hc])
  rw [(List.cons.inj h).1] at hplain
  exact absurd hplain (by decide)

theorem decimal_unread {n : Nat} {c : Char} (hc : ¬ Plain c) (s : List Char) :
    u8FromStrRadix (Nat.toDigits 10 n ++ c :: s) 10 = none := by
  have hplus := toDigits_ne_plus n (c :: s)
  have hmem : c ∈ Nat.toDigits 10 n ++ c :: s := by simp
  generalize Nat.toDigits 10 n ++ c :: s = t at hplus hmem
  have hnone : digits 10 t = none := by
    cases h : digits 10 t with
    | none => rfl
    | some m => exact absurd (plain_of_isDigit (digits_ten h c hmem)) hc
  unfold u8FromStrRadix
  split
  · exact absurd rfl (hplus _)
  · rw [hnone]
    rfl

theorem parseU32_unread {n : Nat} {c : Char} (hc : ¬ Plain c) (s : List Char) :
    parseU32 (Nat.toDigits 10 n ++ c :: s) = none := by
  have hplus := toDigits_ne_plus n (c :: s)
  have hmem : c ∈ Nat.toDigits 10 n ++ c :: s := by simp
  generalize Nat.toDigits 10 n ++ c :: s = t at hplus hmem
  have hall : t.all Char.isDigit = false := by
    rw [List.all_eq_false]
    exact ⟨c, hmem, fun h => hc (plain_of_isDigit h)⟩
  simp [parseU32_eq hplus, hall]

theorem Separated.of_infix {ps qs : List Piece} (h : Separated ps) (hq : qs <:+: ps) :
    Separated qs := h.infix hq

theorem separated_of_firstDecimal {ps rest : List Piece} {v : BitVec 8} (hsep : Separated ps)
    (h : firstDecimal ps = some (v, rest)) : Separated (.token (.bv v) :: rest) := by
  induction ps with
  | nil => cases h
  | cons p ps ih =>
    by_cases hp : ∃ v rest, p :: ps =
        .token .lparen :: .token .underscore :: spaceBlank :: .token (.bv v) :: rest
    · obtain ⟨v', rest', heq⟩ := hp
      rw [heq] at h hsep
      rw [firstDecimal_here, Option.some.injEq, Prod.mk.injEq] at h
      obtain ⟨rfl, rfl⟩ := h
      exact hsep.tail.tail.tail
    · rw [firstDecimal_skip fun v rest heq => hp ⟨v, rest, heq⟩] at h
      exact ih hsep.tail h

/-- The reader finds the first literal of the strongest form. -/
theorem parseByteLiteral_text {ps : List Piece} (hsep : Separated ps) :
    parseByteLiteral (text ps) = readLiteral ps := by
  unfold parseByteLiteral readLiteral
  rw [literalAfter_hex hsep, literalAfter_binary hsep]
  cases ps.findSome? Piece.hex? with
  | some ds => exact ds.read
  | none =>
    cases ps.findSome? Piece.binary? with
    | some ds => exact ds.read
    | none =>
      simp only [Option.map_none, literalAfter, findAfter_decimal]
      cases hfound : firstDecimal ps with
      | none => rfl
      | some found =>
        obtain ⟨v, rest⟩ := found
        have hrest := separated_of_firstDecimal hsep hfound
        simp only [Option.map_some]
        cases hat : atSpace rest with
        | true =>
          rw [(number_atSpace hat v.toNat).1, if_neg Nat.toDigits_ne_nil]
          exact decimal_read v
        | false =>
          obtain ⟨c, s, hs, hc⟩ := number_not_atSpace hrest rfl hat v.toNat
          rw [hs, if_neg (by simp)]
          exact decimal_unread hc s

theorem splitBreaks_within {α : Type} {isBreak : α → Bool} {l part : List α}
    (h : part ∈ splitBreaks isBreak l) : part <:+: l := by
  -- the first part is even a prefix
  have hparts : (∃ first rest, splitBreaks isBreak l = first :: rest ∧ first <+: l) ∧
      ∀ part ∈ splitBreaks isBreak l, part <:+: l := by
    clear h
    induction l with
    | nil => simp [splitBreaks]
    | cons a l ih =>
      obtain ⟨⟨first, rest, hsplit, hfirst⟩, hall⟩ := ih
      have hcons : ∀ part ∈ splitBreaks isBreak l, part <:+: a :: l := fun part hp =>
        (hall part hp).trans (List.suffix_cons a l).isInfix
      rw [hsplit] at hcons
      unfold splitBreaks
      by_cases ha : isBreak a = true
      · rw [if_pos ha, hsplit]
        refine ⟨⟨[], _, rfl, List.nil_prefix⟩, fun part hp => ?_⟩
        rcases List.mem_cons.mp hp with rfl | hp
        · exact List.nil_infix
        · exact hcons part hp
      · rw [if_neg ha, hsplit]
        have hpre : a :: first <+: a :: l := (List.prefix_cons_inj a).mpr hfirst
        refine ⟨⟨a :: first, rest, rfl, hpre⟩, fun part hp => ?_⟩
        rcases List.mem_cons.mp hp with rfl | hp
        · exact hpre.isInfix
        · exact hcons part (List.mem_cons_of_mem _ hp)
  exact hparts.2 part h

theorem trimPieces_within (ps : List Piece) : trimPieces ps <:+: ps := by
  unfold trimPieces
  have h := (List.dropWhile_suffix (l := (ps.dropWhile Piece.isBlank).reverse) Piece.isBlank)
  have h' := List.reverse_prefix.mpr h
  rw [List.reverse_reverse] at h'
  exact h'.isInfix.trans (List.dropWhile_suffix _).isInfix

theorem opened_eq_some {line rest : List Piece} {i : Nat} :
    opened line = some (i, rest) ↔ trimPieces line = .token .lparen :: .token .defineFun ::
      spaceBlank :: .token (.name i) :: rest ∧ atSpace rest = true := by
  unfold opened
  constructor
  · intro h
    split at h
    · rename_i space j rest' heq
      obtain ⟨⟨rfl, hat⟩, hinj⟩ := Option.ite_none_right_eq_some.mp h
      cases hinj
      exact ⟨heq, hat⟩
    · cases h
  · rintro ⟨heq, hat⟩
    rw [heq]
    simp [hat]

/-- What the reader does with a line. -/
theorem parseModelLine_text {line : List Piece} (hsep : Separated line) {n : Nat}
    (hn : n ≤ 2 ^ 32) (out : List (BitVec 8)) :
    parseModelLine n out (text line) =
      ((opened line).bind fun found => if found.1 < n then
        (readLiteral found.2).map fun b => out.set found.1 b else none).getD out := by
  unfold parseModelLine
  rw [trim_text]
  cases hpre : "(define-fun input_b".toList.isPrefixOf? (text (trimPieces line)) with
  | none =>
    have hnone : opened line = none := by
      cases hop : opened line with
      | none => rfl
      | some found =>
        have heq := (opened_eq_some.mp hop).1
        have := isPrefixOf?_opening.mpr ⟨found.1, found.2, heq, rfl⟩
        rw [hpre] at this
        cases this
    rw [hnone]
    rfl
  | some s =>
    obtain ⟨i, rest, heq, rfl⟩ := isPrefixOf?_opening.mp hpre
    have hsep' : Separated (.token (.name i) :: rest) := by
      have := hsep.of_infix (trimPieces_within line)
      rw [heq] at this
      exact this.tail.tail.tail
    simp only
    cases hat : atSpace rest with
    | true =>
      have hrest : Separated rest := hsep'.tail
      rw [(number_atSpace hat i).1, (number_atSpace hat i).2, opened_eq_some.mpr ⟨heq, hat⟩,
        parseU32_toDigits, parseByteLiteral_text hrest, Option.bind_some]
      by_cases hi : i < n
      · rw [if_pos (show i < 2 ^ 32 by omega), if_pos hi]
        simp only [ge_iff_le, if_neg (show ¬ n ≤ i by omega)]
        cases readLiteral rest <;> rfl
      · rw [if_neg hi, Option.getD_none]
        by_cases h32 : i < 2 ^ 32
        · rw [if_pos h32]
          simp only [ge_iff_le, if_pos (show n ≤ i by omega)]
        · rw [if_neg h32]
    | false =>
      have hnone : opened line = none := by
        cases hop : opened line with
        | none => rfl
        | some found =>
          obtain ⟨heq', hat'⟩ := opened_eq_some.mp hop
          rw [heq] at heq'
          cases heq'
          rw [hat] at hat'
          cases hat'
      obtain ⟨c, s, hs, hc⟩ := number_not_atSpace hsep' rfl hat i
      rw [hs, parseU32_unread hc, hnone]
      rfl

/-- What is read for an index on a line. -/
def readOn (i : Nat) (line : List Piece) : Option (BitVec 8) :=
  (opened line).bind fun found => if found.1 = i then readLiteral found.2 else none

theorem readOn_eq_some {i : Nat} {line : List Piece} {b : BitVec 8} :
    readOn i line = some b ↔ ∃ rest, opened line = some (i, rest) ∧ readLiteral rest = some b := by
  unfold readOn
  constructor
  · intro h
    obtain ⟨found, hop, h⟩ := Option.bind_eq_some_iff.mp h
    obtain ⟨rfl, hb⟩ := Option.ite_none_right_eq_some.mp h
    exact ⟨found.2, hop, hb⟩
  · rintro ⟨rest, hop, hb⟩
    rw [hop, Option.bind_some, if_pos rfl, hb]

theorem length_parseModelLine (n : Nat) (out : List (BitVec 8)) (line : List Char) :
    (parseModelLine n out line).length = out.length := by
  unfold parseModelLine
  split
  · rfl
  · split
    · rfl
    · split
      · rfl
      · split
        · exact List.length_set
        · rfl

theorem parseModelLine_getElem? {line : List Piece} (hsep : Separated line) {n i : Nat}
    (hn : n ≤ 2 ^ 32) (hi : i < n) {out : List (BitVec 8)} (hout : out.length = n) :
    (parseModelLine n out (text line))[i]? = (readOn i line).or out[i]? := by
  rw [parseModelLine_text hsep hn, readOn]
  cases opened line with
  | none => rfl
  | some found =>
    obtain ⟨j, rest⟩ := found
    simp only [Option.bind_some]
    by_cases hj : j = i
    · subst hj
      rw [if_pos hi, if_pos rfl]
      cases readLiteral rest with
      | none => rfl
      | some b => simp [hout, hi]
    · rw [if_neg hj, Option.none_or]
      split
      · cases readLiteral rest with
        | none => rfl
        | some b => simp [hj]
      · rfl

/-- The last byte read for an index stands. -/
theorem foldl_parseModelLine {n i : Nat} (hn : n ≤ 2 ^ 32) (hi : i < n)
    (lines : List (List Piece)) (hsep : ∀ line ∈ lines, Separated line)
    {out : List (BitVec 8)} (hout : out.length = n) :
    ((lines.map text).foldl (parseModelLine n) out)[i]? =
      (lines.filterMap (readOn i)).getLast?.or out[i]? := by
  induction lines generalizing out with
  | nil => rfl
  | cons line lines ih =>
    rw [List.map_cons, List.foldl_cons, ih (fun l hl => hsep l (List.mem_cons_of_mem _ hl))
      (by rw [length_parseModelLine, hout]),
      parseModelLine_getElem? (hsep line List.mem_cons_self) hn hi hout, List.filterMap_cons]
    cases readOn i line with
    | none => rfl
    | some b =>
      rw [List.getLast?_cons, Option.some_or, Option.some_or]
      cases (lines.filterMap (readOn i)).getLast? <;> rfl

theorem trim_stripCarriageReturn (line : List Char) :
    trim (stripCarriageReturn line) = trim line := by
  unfold stripCarriageReturn
  split
  · rename_i h
    have hwhite : isWhiteSpace '\r' = true := by rfl
    conv_rhs => rw [← List.dropLast_append_getLast? '\r' h]
    generalize line.dropLast = init
    unfold trim
    rw [List.dropWhile_append]
    split
    · rename_i hall
      rw [List.isEmpty_iff.mp hall, List.dropWhile_cons_of_pos hwhite]
      rfl
    · rw [List.reverse_append, List.reverse_singleton, List.singleton_append,
        List.dropWhile_cons_of_pos hwhite]
  · rfl

theorem strLines_foldl (s : List Char) (n : Nat) (out : List (BitVec 8)) :
    (strLines s).foldl (parseModelLine n) out =
      (splitBreaks (· = '\n') s).foldl (parseModelLine n) out := by
  have hstrip : ∀ (lines : List (List Char)) (out : List (BitVec 8)),
      (lines.map stripCarriageReturn).foldl (parseModelLine n) out =
        lines.foldl (parseModelLine n) out := by
    intro lines
    induction lines with
    | nil => exact fun _ => rfl
    | cons line lines ih =>
      intro out
      rw [List.map_cons, List.foldl_cons, List.foldl_cons, ih]
      simp only [parseModelLine, trim_stripCarriageReturn]
  have hempty : ∀ out, parseModelLine n out [] = out := fun out => by
    have hpre : "(define-fun input_b".toList.isPrefixOf? (trim []) = none := by
      have hmark : "(define-fun input_b".toList = '(' :: "define-fun input_b".toList := by simp
      rw [hmark]
      rfl
    rw [parseModelLine, hpre]
  unfold strLines
  obtain ⟨init, last, hparts⟩ := List.eq_nil_or_concat'
    (splitBreaks (fun c : Char => decide (c = '\n')) s) |>.resolve_left (splitBreaks_ne_nil s)
  rw [hparts]
  simp only [List.dropLast_concat, List.getLast?_concat]
  split
  · rename_i h
    rw [List.foldl_append, hstrip]
    cases h
  · rename_i h
    cases h
    rw [List.foldl_append, hstrip, List.foldl_cons, hempty, List.foldl_nil]
  · rename_i h
    cases h
    rw [List.foldl_append, List.foldl_append, hstrip]

theorem splitBreaks_flatten {α : Type} (isBreak : α → Bool) (l : List α) :
    (splitBreaks isBreak l).flatten = l.filter fun a => !isBreak a := by
  induction l with
  | nil => rfl
  | cons a l ih =>
    have hne : splitBreaks isBreak l ≠ [] := splitBreaks_ne_nil l
    obtain ⟨first, rest, h⟩ := List.exists_cons_of_ne_nil hne
    rw [h] at ih
    by_cases ha : isBreak a = true
    · simp [splitBreaks, ha, h, ← ih]
    · simp [splitBreaks, ha, h, ← ih]

def nameCount (i : Nat) (ps : List Piece) : Nat := (ps.filterMap Piece.token?).count (.name i)

theorem nameCount_lines (i : Nat) (ps : List Piece) :
    nameCount i (splitBreaks Piece.isNewline ps).flatten = nameCount i ps := by
  rw [splitBreaks_flatten]
  unfold nameCount
  congr 1
  induction ps with
  | nil => rfl
  | cons p ps ih =>
    cases p with
    | token t => simpa [Piece.isNewline, Piece.token?] using ih
    | blank b =>
      cases hb : (Piece.blank b).isNewline with
      | true =>
        rw [List.filter_cons_of_neg (by simp [hb])]
        exact ih
      | false =>
        rw [List.filter_cons_of_pos (by simp [hb])]
        exact ih

theorem nameCount_of_opened {line rest : List Piece} {i : Nat}
    (h : opened line = some (i, rest)) : 1 ≤ nameCount i line := by
  have heq := (opened_eq_some.mp h).1
  have hmem : Piece.token (.name i) ∈ line :=
    (trimPieces_within line).subset (by simp [heq])
  exact List.count_pos_iff.mpr (List.mem_filterMap.mpr ⟨_, hmem, rfl⟩)

theorem length_reads_le (i : Nat) (lines : List (List Piece)) :
    (lines.filterMap (readOn i)).length ≤ nameCount i lines.flatten := by
  induction lines with
  | nil => exact Nat.zero_le _
  | cons line lines ih =>
    have hcount : nameCount i (line :: lines).flatten =
        nameCount i line + nameCount i lines.flatten := by
      simp [nameCount]
    rw [hcount, List.filterMap_cons]
    cases h : readOn i line with
    | none => exact Nat.le_add_left_of_le ih
    | some b =>
      obtain ⟨rest, hop, -⟩ := readOn_eq_some.mp h
      have := nameCount_of_opened hop
      simp only [List.length_cons]
      omega

theorem Item.count_name (item : Item) (i : Nat) :
    item.tokens.count (.name i) = [item.index].count i := by
  have hliteral : item.literal.tokens.count (.name i) = 0 := by
    refine List.count_eq_zero.mpr fun h => ?_
    cases hl : item.literal <;> simp [hl, Literal.tokens] at h
  rw [Item.tokens, List.count_append, List.count_append, hliteral]
  simp [List.count_cons]

theorem Enclosure.count_name (enclosure : Enclosure) (tokens : List Token) (i : Nat) :
    (enclosure.tokens tokens).count (.name i) = tokens.count (.name i) := by
  cases enclosure <;> simp [Enclosure.tokens]

/-- Every name occurs once. -/
theorem Rendering.nameCount_le {bytes : List (BitVec 8)} (r : Rendering bytes) (i : Nat) :
    nameCount i r.pieces ≤ 1 := by
  have hcount : ∀ items : List Item,
      (items.flatMap Item.tokens).count (.name i) = (items.map Item.index).count i := by
    intro items
    induction items with
    | nil => rfl
    | cons item items ih =>
      rw [List.flatMap_cons, List.count_append, ih, item.count_name, List.map_cons]
      exact List.count_append.symm
  rw [nameCount, r.tokens, Enclosure.count_name, hcount, r.each_once.count_eq]
  exact List.nodup_iff_count_le_one.mp List.nodup_range i

/-- Of at most one byte read, the last is legible, and zero is where there is none. -/
theorem legible_iff {ps : List Piece} {i : Nat} (hle : nameCount i ps ≤ 1) (byte : BitVec 8) :
    (((splitBreaks Piece.isNewline ps).filterMap (readOn i)).getLast?.or (some 0) = some byte) ↔
      Legible ps i byte := by
  have hlen := length_reads_le i (splitBreaks Piece.isNewline ps)
  rw [nameCount_lines] at hlen
  have hmem : ∀ b, b ∈ (splitBreaks Piece.isNewline ps).filterMap (readOn i) ↔
      ∃ line ∈ splitBreaks Piece.isNewline ps, ∃ rest, opened line = some (i, rest) ∧
        readLiteral rest = some b := by
    intro b
    simp only [List.mem_filterMap, readOn_eq_some]
  unfold Legible
  rw [← hmem]
  generalize (splitBreaks Piece.isNewline ps).filterMap (readOn i) = found at hlen hmem
  rcases found with _ | ⟨v, _ | ⟨w, found⟩⟩
  · simp only [List.getLast?_nil, Option.none_or, Option.some.injEq, List.not_mem_nil, false_or]
    refine ⟨fun h => ⟨h.symm, fun line hl rest hop => ?_⟩, fun h => h.1.symm⟩
    cases hb : readLiteral rest with
    | none => rfl
    | some b => cases (hmem b).mpr ⟨line, hl, rest, hop, hb⟩
  · obtain ⟨line, hl, rest, hop, hb⟩ := (hmem v).mp List.mem_cons_self
    simp only [List.getLast?_singleton, Option.some_or, Option.some.injEq, List.mem_singleton]
    refine ⟨fun h => .inl h.symm, fun h => ?_⟩
    rcases h with h | ⟨-, h⟩
    · exact h.symm
    · rw [h line hl rest hop] at hb
      cases hb
  · simp only [List.length_cons] at hlen
    omega

theorem length_parseModelInputBytes (s : List Char) (n : Nat) :
    (parseModelInputBytes s n).length = n := by
  have hfold : ∀ (lines : List (List Char)) (out : List (BitVec 8)),
      (lines.foldl (parseModelLine n) out).length = out.length := by
    intro lines
    induction lines with
    | nil => exact fun _ => rfl
    | cons line lines ih =>
      intro out
      rw [List.foldl_cons, ih, length_parseModelLine]
  rw [parseModelInputBytes, hfold, List.length_replicate]

/-- A rendering is read back exactly when every byte is legible. -/
theorem parseModelInputBytes_iff {bytes : List (BitVec 8)} (r : Rendering bytes) :
    parseModelInputBytes (text r.pieces) bytes.length = bytes ↔
      ∀ i byte, bytes[i]? = some byte → Legible r.pieces i byte := by
  have hsep : ∀ line ∈ splitBreaks Piece.isNewline r.pieces, Separated line := fun line hl =>
    Separated.of_infix r.separated (splitBreaks_within hl)
  have hlegible : ∀ i byte, i < bytes.length →
      ((parseModelInputBytes (text r.pieces) bytes.length)[i]? = some byte ↔
        Legible r.pieces i byte) := by
    intro i byte hi
    rw [parseModelInputBytes, strLines_foldl, splitBreaks_text,
      foldl_parseModelLine (Nat.le_of_lt r.fits) hi _ hsep List.length_replicate,
      List.getElem?_replicate, if_pos hi]
    exact legible_iff (r.nameCount_le i) byte
  constructor
  · intro h i byte hbyte
    have hi := (List.getElem?_eq_some_iff.mp hbyte).1
    exact (hlegible i byte hi).mp (by rw [h, hbyte])
  · intro h
    refine List.ext_getElem? fun i => ?_
    by_cases hi : i < bytes.length
    · have hbyte : bytes[i]? = some bytes[i] := List.getElem?_eq_getElem hi
      rw [hbyte]
      exact (hlegible i _ hi).mpr (h i _ hbyte)
    · have hread : (parseModelInputBytes (text r.pieces) bytes.length)[i]? = none :=
        List.getElem?_eq_none (by rw [length_parseModelInputBytes]; omega)
      rw [hread, List.getElem?_eq_none (by omega)]

def newlineBlank : Piece := .blank ⟨'\n', by simp⟩

/-- `0x41`, with its literal on a line of its own. -/
def brokenPieces : List Piece :=
  [.token .lparen, .token .defineFun, spaceBlank, .token (.name 0), spaceBlank, .token .lparen,
    .token .rparen, spaceBlank, .token .lparen, .token .underscore, spaceBlank, .token .bitVec,
    spaceBlank, .token .eight, .token .rparen, newlineBlank, spaceBlank,
    .token (.hex ⟨['4', '1'], by simp; decide⟩), .token .rparen]

def brokenRendering : Rendering [0x41] where
  fits := by decide
  items := [⟨0, .hex ⟨['4', '1'], by simp; decide⟩⟩]
  enclosure := .none
  pieces := brokenPieces
  each_once := List.Perm.refl [0]
  values := by
    intro item hitem
    rw [List.mem_singleton.mp hitem]
    decide
  tokens := rfl
  separated := by
    unfold brokenPieces
    decide

/-- A literal on the next line is not seen. -/
theorem broken_line_reads_zero :
    String.ofList (text brokenRendering.pieces) =
        "(define-fun input_b0 () (_ BitVec 8)\n #x41)" ∧
      parseModelInputBytes (text brokenRendering.pieces) 1 ≠ [0x41] := by
  constructor
  · decide +kernel
  · decide +kernel

end Axe.Concolic
