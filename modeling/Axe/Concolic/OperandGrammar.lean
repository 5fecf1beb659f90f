import Mathlib
import Axe.Concolic.OperandParser

/-!
# The operands that the parser understands

Registers, integers, and memory operands of one base and one displacement, as texts.
The parser reads back what a memory operand prints as, except for a size keyword
without `ptr` and for the displacement that has no negation.
-/
namespace Axe.Concolic

open X86 (Reg)

section Texts
variable {s t : List Char} {c : Char}

/-- Letters and digits only. -/
def Word (s : List Char) : Prop := ∀ c ∈ s, c.isAlphanum

theorem isAlphanum_iff : c.isAlphanum ↔ (65 ≤ c.toNat ∧ c.toNat ≤ 90 ∨
    97 ≤ c.toNat ∧ c.toNat ≤ 122) ∨ 48 ≤ c.toNat ∧ c.toNat ≤ 57 := by
  simp only [Char.isAlphanum, Char.isAlpha, Char.isUpper, Char.isLower, Char.isDigit,
    Bool.or_eq_true, Bool.and_eq_true, decide_eq_true_eq, ge_iff_le, UInt32.le_iff_toNat_le]
  exact Iff.rfl

theorem isWhiteSpace_of_alphanum (h : c.isAlphanum) : isWhiteSpace c = false := by
  have hc := isAlphanum_iff.mp h
  simp only [isWhiteSpace, Bool.or_eq_false_iff, Bool.and_eq_false_iff, decide_eq_false_iff_not]
  omega

theorem trim_of_all (h : ∀ c ∈ s, isWhiteSpace c = false) : trim s = s := by
  have hdrop : ∀ t : List Char, (∀ c ∈ t, isWhiteSpace c = false) →
      t.dropWhile isWhiteSpace = t := by
    intro t ht
    cases t with
    | nil => rfl
    | cons c t => rw [List.dropWhile_cons_of_neg (by simpa using ht c (by simp))]
  rw [trim, hdrop s h, hdrop _ (fun c hc => h c (List.mem_reverse.mp hc)), List.reverse_reverse]

/-- The first and the last character alone decide whether there is something to trim. -/
theorem trim_of_ends {c d : Char} (hc : isWhiteSpace c = false) (hd : isWhiteSpace d = false)
    (hs : s.getLast? = some d) (hs' : s.head? = some c) : trim s = s := by
  obtain ⟨t, rfl⟩ : ∃ t, s = t ++ [d] := List.getLast?_eq_some_iff.mp hs
  rw [trim]
  obtain ⟨u, hu⟩ : ∃ u, t ++ [d] = c :: u := by
    cases h : t ++ [d] with
    | nil => simp [h] at hs'
    | cons x u =>
      rw [h] at hs'
      cases hs'
      exact ⟨u, rfl⟩
  have hfirst : (t ++ [d]).dropWhile isWhiteSpace = t ++ [d] := by
    rw [hu, List.dropWhile_cons_of_neg (by simpa using hc)]
  rw [hfirst, List.reverse_append, List.reverse_singleton, List.singleton_append,
    List.dropWhile_cons_of_neg (by simpa using hd), List.reverse_cons, List.reverse_reverse]

theorem Word.trim (h : Word s) : trim s = s :=
  trim_of_all fun c hc => isWhiteSpace_of_alphanum (h c hc)

theorem Word.ne (h : Word s) (hc : c ∈ s) {d : Char} (hd : d.isAlphanum = false) : c ≠ d := by
  rintro rfl
  rw [h c hc] at hd
  cases hd

/-- The separator after a text without it. -/
theorem splitOnce_append {sep : Char} (h : ∀ c ∈ s, c ≠ sep) :
    splitOnce sep (s ++ sep :: t) = some (s, t) := by
  have hspan : (s ++ sep :: t).span (· ≠ sep) = (s, sep :: t) := by
    rw [List.span_eq_takeWhile_dropWhile]
    refine Prod.ext ?_ ?_
    · rw [List.takeWhile_append_of_pos (by simpa using h)]
      simp
    · rw [List.dropWhile_append_of_pos (by simpa using h)]
      simp
  rw [splitOnce, hspan]

theorem splitOnce_none {sep : Char} (h : ∀ c ∈ s, c ≠ sep) : splitOnce sep s = none := by
  have hspan : s.span (· ≠ sep) = (s, []) := by
    rw [List.span_eq_takeWhile_dropWhile, List.takeWhile_eq_self_iff.mpr (by simpa using h),
      List.dropWhile_eq_nil_iff.mpr (by simpa using h)]
  rw [splitOnce, hspan]

end Texts

section Words
variable {s ds : List Char} {n : Nat}

theorem isAlphanum_of_toLower {c : Char} (h : c.toLower.isAlphanum) : c.isAlphanum := by
  by_cases hu : c.isUpper
  · simp [Char.isAlphanum, Char.isAlpha, hu]
  · have hlow : c.toLower = c := by
      rw [Char.toLower, dif_neg]
      simpa [Char.isUpper] using hu
    rwa [hlow] at h

/-- A register name is a word that starts with a letter. -/
theorem registerWidth_word (h : (registerWidth s).isSome) :
    Word s ∧ ∃ c cs, s = c :: cs ∧ c.isDigit = false := by
  obtain ⟨w, hw⟩ := Option.isSome_iff_exists.mp h
  obtain ⟨p, hp, hmem, -⟩ := registerNames_of_width hw
  have hall : registerNames.all (fun p => p.1.all fun s =>
      s.toList.all Char.isAlphanum && s.toList.head?.any (!·.isDigit)) = true := by decide
  have hname := List.all_eq_true.mp (List.all_eq_true.mp hall p hp) _ hmem
  rw [Bool.and_eq_true, List.all_eq_true, Option.any_eq_true] at hname
  obtain ⟨hword, c, hc, hdigit⟩ := hname
  rw [Bool.not_eq_true'] at hdigit
  rw [String.toList_ofList] at hword hc
  refine ⟨fun c hc => isAlphanum_of_toLower (hword _ (List.mem_map_of_mem hc)), ?_⟩
  cases s with
  | nil => cases hc
  | cons d ds =>
    cases hc
    refine ⟨d, ds, rfl, ?_⟩
    by_contra hd
    have hd : d.isDigit = true := by simpa using hd
    have hlow : d.toLower = d := by
      rw [Char.toLower, dif_neg]
      simp only [Char.isDigit, Bool.and_eq_true, decide_eq_true_eq, ge_iff_le,
        UInt32.le_iff_toNat_le] at hd ⊢
      simp at hd ⊢
      omega
    rw [hlow, hd] at hdigit
    cases hdigit

theorem toDigit_alphanum {c : Char} {radix d : Nat} (h : toDigit radix c = some d) :
    c.isAlphanum := by
  unfold toDigit at h
  dsimp only at h
  obtain ⟨hlt, -⟩ := Option.ite_none_right_eq_some.mp h
  rw [isAlphanum_iff]
  split at hlt
  · rename_i hc
    exact .inr ⟨Char.le_def.mp hc.1, Char.le_def.mp hc.2⟩
  · split at hlt
    · rename_i hc
      exact .inl (.inr ⟨Char.le_def.mp hc.1, Char.le_def.mp hc.2⟩)
    · split at hlt
      · rename_i hc
        exact .inl (.inl ⟨Char.le_def.mp hc.1, Char.le_def.mp hc.2⟩)
      · exact absurd hlt (Nat.lt_irrefl _)

/-- Every character of a number is a digit of its radix. -/
theorem digits_forall {radix : Nat} (h : digits radix s = some n) :
    s ≠ [] ∧ ∀ c ∈ s, ∃ d, toDigit radix c = some d := by
  obtain ⟨hne, hf⟩ := Option.ite_none_left_eq_some.mp h
  refine ⟨hne, ?_⟩
  clear h hne
  generalize 0 = m at hf
  induction s generalizing m with
  | nil => exact fun _ hc => (by cases hc)
  | cons c s ih =>
    rw [List.foldlM_cons] at hf
    obtain ⟨m', hm', hf⟩ := Option.bind_eq_some_iff.mp hf
    obtain ⟨d, hd, -⟩ := Option.map_eq_some_iff.mp hm'
    exact List.forall_mem_cons.mpr ⟨⟨d, hd⟩, ih (m := m') hf⟩

theorem digits_word {radix : Nat} (h : digits radix s = some n) : Word s := fun c hc =>
  have ⟨_, hd⟩ := (digits_forall h).2 c hc
  toDigit_alphanum hd

end Words

section Numerals

/-- A numeral and its value: decimal, or hexadecimal with a prefix or a suffix. With the
suffix it starts with a decimal digit. -/
inductive Numeral : List Char → Nat → Prop
  | dec {ds : List Char} {n : Nat} : digits 10 ds = some n → Numeral ds n
  | hex {ds : List Char} {n : Nat} : digits 16 ds = some n → Numeral ('0' :: 'x' :: ds) n
  | hexH {d : Char} {ds : List Char} {n : Nat} : d.isDigit → digits 16 (d :: ds) = some n →
      Numeral (d :: ds ++ ['h']) n

variable {t : List Char} {n : Nat}

theorem toDigit_ten {c : Char} {d : Nat} (h : toDigit 10 c = some d) : c.isDigit := by
  unfold toDigit at h
  dsimp only at h
  obtain ⟨hlt, -⟩ := Option.ite_none_right_eq_some.mp h
  split at hlt
  · rename_i hc
    simp only [Char.isDigit, Bool.and_eq_true, decide_eq_true_eq, ge_iff_le]
    exact ⟨Char.le_def.mp hc.1, Char.le_def.mp hc.2⟩
  · split at hlt
    · omega
    · split at hlt
      · omega
      · omega

theorem digits_ten {ds : List Char} (h : digits 10 ds = some n) : ∀ c ∈ ds, c.isDigit :=
  fun c hc =>
    have ⟨_, hd⟩ := (digits_forall h).2 c hc
    toDigit_ten hd

/-- A numeral is a word that starts with a digit. -/
theorem Numeral.word (h : Numeral t n) : Word t ∧ ∃ c cs, t = c :: cs ∧ c.isDigit := by
  cases h with
  | dec h =>
    obtain ⟨c, cs, rfl⟩ := List.exists_cons_of_ne_nil (digits_forall h).1
    exact ⟨digits_word h, c, cs, rfl, digits_ten h c (by simp)⟩
  | hex h =>
    refine ⟨?_, '0', _, rfl, by decide⟩
    exact List.forall_mem_cons.mpr ⟨by decide, List.forall_mem_cons.mpr ⟨by decide, digits_word h⟩⟩
  | @hexH d ds _ hd h =>
    refine ⟨?_, d, ds ++ ['h'], rfl, hd⟩
    exact List.forall_mem_append.mpr ⟨digits_word h, by simp⟩

theorem u64FromStrRadix_digits {radix : Nat} {c : Char} {cs : List Char} (hc : c ≠ '+')
    (h : digits radix (c :: cs) = some n) (hn : n < 2 ^ 64) :
    u64FromStrRadix (c :: cs) radix = some (BitVec.ofNat 64 n) := by
  unfold u64FromStrRadix
  split
  · rename_i ds heq
    cases heq
    exact absurd rfl hc
  · rw [h, Option.bind_some, if_pos hn]

theorem isDigit_ne {c d : Char} (h : c.isDigit) (hd : d.isDigit = false) : c ≠ d := by
  rintro rfl
  rw [h] at hd
  cases hd

theorem alphanum_ne {c d : Char} (h : c.isAlphanum) (hd : d.isAlphanum = false) : c ≠ d := by
  rintro rfl
  rw [h] at hd
  cases hd

/-- A text without `x` after its first character has no hexadecimal prefix. -/
theorem no_hexPrefix {c : Char} {cs : List Char} (h : ∀ x ∈ cs.head?, x ≠ 'x' ∧ x ≠ 'X') :
    ("0x".toList.isPrefixOf? (c :: cs) <|> "0X".toList.isPrefixOf? (c :: cs)) = none := by
  have hno : ∀ x, (x = 'x' ∨ x = 'X') → ['0', x].isPrefixOf? (c :: cs) = none := by
    intro x hx
    by_contra hne
    obtain ⟨r, hr⟩ := Option.ne_none_iff_exists'.mp hne
    cases List.isPrefixOf?_eq_some_iff_append_eq.mp hr
    obtain ⟨h₁, h₂⟩ := h x (by simp)
    exact hx.elim h₁ h₂
  rw [show "0x".toList = ['0', 'x'] from rfl, show "0X".toList = ['0', 'X'] from rfl,
    hno 'x' (.inl rfl), hno 'X' (.inr rfl)]
  rfl

theorem toDigit_ne_x {radix d : Nat} {c : Char} (hr : radix ≤ 16)
    (h : toDigit radix c = some d) : c ≠ 'x' ∧ c ≠ 'X' := by
  have hno : ∀ c ∈ ['x', 'X'], toDigit radix c = none := by
    simp [toDigit]
    omega
  constructor <;>
  · rintro rfl
    rw [hno _ (by simp)] at h
    cases h

/-- A numeral that fits 64 bits is read as its value. -/
theorem parseIntLike_numeral (h : Numeral t n) (hn : n < 2 ^ 64) :
    parseIntLike t = some (some (BitVec.ofNat 64 n)) := by
  rw [parseIntLike, h.word.1.trim]
  cases h with
  | dec h =>
    obtain ⟨c, cs, rfl⟩ := List.exists_cons_of_ne_nil (digits_forall h).1
    have hd := digits_ten h
    have hlast : ∀ x ∈ (c :: cs).getLast?, x.isDigit := fun x hx => hd x (List.mem_of_getLast? hx)
    rw [no_hexPrefix fun x hx => (digits_forall h).2 x
      (List.mem_cons_of_mem _ (List.mem_of_head? hx)) |>.elim fun _ => toDigit_ne_x (by decide)]
    dsimp only
    rw [if_neg]
    · split
      · rename_i rest heq
        cases heq
        exact absurd (hd '-' (by simp)) (by decide)
      · rw [u64FromStrRadix_digits (isDigit_ne (hd c (by simp)) (by decide)) h hn]
    · rintro (hl | hl)
      · exact absurd (hlast _ hl) (by decide)
      · exact absurd (hlast _ hl) (by decide)
  | @hex ds _ h =>
    have hp : "0x".toList.isPrefixOf? ('0' :: 'x' :: ds) = some ds := by
      simp [List.isPrefixOf?]
    rw [hp]
    obtain ⟨c, cs, rfl⟩ := List.exists_cons_of_ne_nil (digits_forall h).1
    have hc : c ≠ '+' := alphanum_ne (digits_word h c (by simp)) (by decide)
    show some (u64FromStrRadix (c :: cs) 16) = _
    rw [u64FromStrRadix_digits hc h hn]
  | @hexH d ds _ hd h =>
    rw [List.cons_append, no_hexPrefix]
    · dsimp only
      rw [if_pos (.inl (by rw [← List.cons_append, List.getLast?_append]; rfl)), ← List.cons_append, List.dropLast_concat,
        u64FromStrRadix_digits (isDigit_ne hd (by decide)) h hn]
    · intro x hx
      cases ds with
      | nil =>
        cases hx
        decide
      | cons y ds =>
        cases hx
        obtain ⟨e, he⟩ := (digits_forall h).2 x (by simp)
        exact toDigit_ne_x le_rfl he

/-- Only two signs in a row make the negation overflow. -/
theorem parseIntLike_eq_none {s : List Char} (h : parseIntLike s = none) :
    ∃ r, trim s = '-' :: '-' :: r := by
  unfold parseIntLike at h
  dsimp only at h
  split at h
  · cases h
  · split at h
    · cases h
    · split at h
      · rename_i rest heq
        split at h
        · rename_i v hv
          rw [heq]
          have hmin : v = BitVec.intMin 64 := by
            by_contra hne
            rw [negI64, if_neg hne] at h
            cases h
          have hsmall : ∀ n, ((if n < 2 ^ 63 then some (BitVec.ofNat 64 n) else none) =
              some (BitVec.intMin 64)) → False := by
            intro n hn
            obtain ⟨hlt, heq⟩ := Option.ite_none_right_eq_some.mp hn
            have := congrArg BitVec.toNat (Option.some.inj heq)
            rw [BitVec.toNat_ofNat, Nat.mod_eq_of_lt (by omega)] at this
            have h63 : (BitVec.intMin 64).toNat = 2 ^ 63 := by decide
            omega
          rw [hmin] at hv
          unfold i64Parse at hv
          split at hv
          · exact ⟨_, rfl⟩
          · obtain ⟨n, -, hn⟩ := Option.bind_eq_some_iff.mp hv
            exact (hsmall n hn).elim
          · obtain ⟨n, -, hn⟩ := Option.bind_eq_some_iff.mp hv
            exact (hsmall n hn).elim
        · cases h
      · cases h

end Numerals

section Memory

/-- An address as a text, with its base and its displacement. -/
inductive AddressText : List Char → Option (List Char) → BitVec 64 → Prop
  | base {b : List Char} : (registerWidth b).isSome → AddressText b (some (toAsciiLowercase b)) 0
  | plus {b t : List Char} {n : Nat} : (registerWidth b).isSome → Numeral t n → n < 2 ^ 64 →
      AddressText (b ++ '+' :: t) (some (toAsciiLowercase b)) (BitVec.ofNat 64 n)
  | minus {b t : List Char} {n : Nat} : (registerWidth b).isSome → Numeral t n → n < 2 ^ 64 →
      AddressText (b ++ '-' :: t) (some (toAsciiLowercase b)) (-BitVec.ofNat 64 n)
  | disp {t : List Char} {n : Nat} : Numeral t n → n < 2 ^ 64 → AddressText t none (BitVec.ofNat 64 n)

/-- A displacement of minus 2^63. -/
def NegatesMin (t : List Char) : Prop :=
  ∃ b u, (registerWidth b).isSome ∧ Numeral u (2 ^ 63) ∧ t = b ++ '-' :: u

def sizeWords : List (List Char × Nat) :=
  [("byte".toList, 8), ("word".toList, 16), ("dword".toList, 32), ("qword".toList, 64)]

def bracketed (t : List Char) : List Char := '[' :: t ++ [']']

/-- A memory operand as a text: an address in brackets, after a size keyword with or
without `ptr` or after none. -/
inductive MemoryText : List Char → Operand → Prop
  | bare {t : List Char} {b : Option (List Char)} {d : BitVec 64} : AddressText t b d →
      MemoryText (bracketed t) (.mem b d 64)
  | ptr {t : List Char} {b : Option (List Char)} {d : BitVec 64} {k : List Char × Nat} :
      k ∈ sizeWords → AddressText t b d →
      MemoryText (k.1 ++ ' ' :: ("ptr".toList ++ ' ' :: bracketed t)) (.mem b d k.2)
  | keyword {t : List Char} {b : Option (List Char)} {d : BitVec 64} {k : List Char × Nat} :
      k ∈ sizeWords → AddressText t b d → MemoryText (k.1 ++ ' ' :: bracketed t) (.mem b d k.2)

variable {t raw : List Char} {b : Option (List Char)} {d : BitVec 64} {n : Nat}

/-- The characters of an address. -/
theorem AddressText.chars (h : AddressText t b d) :
    ∀ c ∈ t, c.isAlphanum ∨ c = '+' ∨ c = '-' := by
  cases h with
  | base hb => exact fun c hc => .inl ((registerWidth_word hb).1 c hc)
  | plus hb hn _ =>
    refine List.forall_mem_append.mpr ⟨fun c hc => .inl ((registerWidth_word hb).1 c hc), ?_⟩
    exact List.forall_mem_cons.mpr ⟨.inr (.inl rfl), fun c hc => .inl (hn.word.1 c hc)⟩
  | minus hb hn _ =>
    refine List.forall_mem_append.mpr ⟨fun c hc => .inl ((registerWidth_word hb).1 c hc), ?_⟩
    exact List.forall_mem_cons.mpr ⟨.inr (.inr rfl), fun c hc => .inl (hn.word.1 c hc)⟩
  | disp hn _ => exact fun c hc => .inl (hn.word.1 c hc)

theorem AddressText.ne (h : AddressText t b d) {c x : Char} (hc : c ∈ t)
    (hx : x.isAlphanum = false) (hplus : x ≠ '+') (hminus : x ≠ '-') : c ≠ x := by
  obtain hc | rfl | rfl := h.chars c hc
  · exact alphanum_ne hc hx
  · exact hplus.symm
  · exact hminus.symm

theorem AddressText.trim (h : AddressText t b d) : trim t = t := by
  refine trim_of_all fun c hc => ?_
  obtain hc | rfl | rfl := h.chars c hc
  · exact isWhiteSpace_of_alphanum hc
  · decide
  · decide

/-- A word followed by a sign is split at the sign. -/
theorem splitAddrTerms_sign {w u : List Char} {sign : Char} (hw : Word w) (hne : w ≠ [])
    (hs : sign = '+' ∨ sign = '-') (hu : Word u) :
    splitAddrTerms (w ++ sign :: u) = (w, sign, some u) := by
  obtain ⟨c, cs, rfl⟩ := List.exists_cons_of_ne_nil hne
  have hspan : (cs ++ sign :: u).span (fun c => c ≠ '+' ∧ c ≠ '-') = (cs, sign :: u) := by
    have hcs : ∀ x ∈ cs, decide (x ≠ '+' ∧ x ≠ '-') = true := fun x hx =>
      decide_eq_true ⟨hw.ne (List.mem_cons_of_mem _ hx) (by decide),
        hw.ne (List.mem_cons_of_mem _ hx) (by decide)⟩
    have hsign : decide (sign ≠ '+' ∧ sign ≠ '-') = false := by
      obtain rfl | rfl := hs <;> decide
    rw [List.span_eq_takeWhile_dropWhile]
    refine Prod.ext ?_ ?_
    · rw [List.takeWhile_append_of_pos hcs, List.takeWhile_cons_of_neg (by simp [hsign]),
        List.append_nil]
    · rw [List.dropWhile_append_of_pos hcs, List.dropWhile_cons_of_neg (by simp [hsign])]
  rw [List.cons_append, splitAddrTerms, hspan]
  simp only [hw.trim, hu.trim]

theorem splitAddrTerms_word {w : List Char} (hw : Word w) (hne : w ≠ []) :
    splitAddrTerms w = (w, '+', none) := by
  obtain ⟨c, cs, rfl⟩ := List.exists_cons_of_ne_nil hne
  have hcs : ∀ x ∈ cs, decide (x ≠ '+' ∧ x ≠ '-') = true := fun x hx =>
    decide_eq_true ⟨hw.ne (List.mem_cons_of_mem _ hx) (by decide),
      hw.ne (List.mem_cons_of_mem _ hx) (by decide)⟩
  have hspan : cs.span (fun c => c ≠ '+' ∧ c ≠ '-') = (cs, []) := by
    rw [List.span_eq_takeWhile_dropWhile, List.takeWhile_eq_self_iff.mpr hcs,
      List.dropWhile_eq_nil_iff.mpr hcs]
  rw [splitAddrTerms, hspan]
  simp only [hw.trim]

theorem negI64_ofNat (hn : n < 2 ^ 64) :
    negI64 (BitVec.ofNat 64 n) = if n = 2 ^ 63 then none else some (-BitVec.ofNat 64 n) := by
  have hiff : BitVec.ofNat 64 n = BitVec.intMin 64 ↔ n = 2 ^ 63 := by
    rw [← BitVec.toNat_inj, BitVec.toNat_ofNat, Nat.mod_eq_of_lt hn,
      show (BitVec.intMin 64).toNat = 2 ^ 63 from by decide]
  simp only [negI64, hiff]

/-- What is read of the terms of an address. -/
theorem parseAddrInner_eq (h : AddressText t b d) :
    parseAddrInner t =
      let terms := splitAddrTerms t
      let base := if terms.1 ≠ [] ∧ (registerWidth terms.1).isSome then
        some (toAsciiLowercase terms.1) else none
      (addrDisp base.isSome terms).map fun disp => (base, disp) := by
  have hrel : "rel ".toList.isPrefixOf? t = none := by
    by_contra hne
    obtain ⟨r, hr⟩ := Option.ne_none_iff_exists'.mp hne
    cases List.isPrefixOf?_eq_some_iff_append_eq.mp hr
    exact h.ne (c := ' ') (by simp) (by decide) (by decide) (by decide) rfl
  simp only [parseAddrInner, h.trim, hrel, Option.getD_none]

theorem registerWidth_ne_nil {b : List Char} (h : (registerWidth b).isSome) : b ≠ [] := by
  obtain ⟨-, c, cs, rfl, -⟩ := registerWidth_word h
  exact List.cons_ne_nil _ _

theorem registerWidth_numeral (h : Numeral t n) : (registerWidth t).isSome = false := by
  by_contra hne
  have hsome : (registerWidth t).isSome := Bool.of_not_eq_false hne
  obtain ⟨-, c, cs, rfl, hd⟩ := registerWidth_word hsome
  obtain ⟨-, c', cs', heq, hd'⟩ := h.word
  cases heq
  rw [hd'] at hd
  cases hd

/-- The base and the signed term that are read of an address. -/
theorem parseAddrInner_sign {w u : List Char} {sign : Char} (h : AddressText (w ++ sign :: u) b d)
    (hw : (registerWidth w).isSome) (hs : sign = '+' ∨ sign = '-') (hu : Numeral u n)
    (hn : n < 2 ^ 64) : parseAddrInner (w ++ sign :: u) =
      (if sign = '-' then negI64 (BitVec.ofNat 64 n) else some (BitVec.ofNat 64 n)).map fun disp =>
        (some (toAsciiLowercase w), disp) := by
  rw [parseAddrInner_eq h, splitAddrTerms_sign (registerWidth_word hw).1 (registerWidth_ne_nil hw) hs
    hu.word.1]
  simp only [ne_eq, registerWidth_ne_nil hw, not_false_eq_true, hw, and_self, if_true, addrDisp,
    parseIntLike_numeral hu hn, Option.bind_some, Option.getD_some]

/-- An address is read back, but for the displacement without a negation. -/
theorem parseAddrInner_text (h : AddressText t b d) (hmin : ¬ NegatesMin t) :
    parseAddrInner t = some (b, d) := by
  have h' := h
  cases h with
  | base hb =>
    rw [parseAddrInner_eq h', splitAddrTerms_word (registerWidth_word hb).1 (registerWidth_ne_nil hb)]
    simp only [ne_eq, registerWidth_ne_nil hb, not_false_eq_true, hb, and_self, if_true, addrDisp,
      Option.isSome_some, Option.map_some]
  | plus hb hu hn =>
    rw [parseAddrInner_sign h' hb (.inl rfl) hu hn, if_neg (by decide)]
    rfl
  | @minus w u n hb hu hn =>
    have hne : n ≠ 2 ^ 63 := fun h => hmin ⟨w, u, hb, h ▸ hu, rfl⟩
    rw [parseAddrInner_sign h' hb (.inr rfl) hu hn, if_pos rfl, negI64_ofNat hn, if_neg hne]
    rfl
  | disp hu hn =>
    obtain ⟨hword, c, cs, hcs, -⟩ := hu.word
    rw [parseAddrInner_eq h', splitAddrTerms_word hword (by simp [hcs])]
    simp only [registerWidth_numeral hu, Bool.false_eq_true, and_false, if_false, addrDisp,
      Option.isSome_none, parseIntLike_numeral hu hn, Option.map_some, Option.getD_some]

theorem parseAddrInner_min (h : AddressText t b d) (hmin : NegatesMin t) :
    parseAddrInner t = none := by
  obtain ⟨w, u, hw, hu, rfl⟩ := hmin
  rw [parseAddrInner_sign h hw (.inr rfl) hu (by decide), if_pos rfl, negI64_ofNat (by decide),
    if_pos rfl]
  rfl

end Memory

section Pieces
variable {raw t : List Char} {b : Option (List Char)} {d : BitVec 64} {k : List Char × Nat}
  {op : Operand}

theorem bracketed_ends (t : List Char) : (bracketed t).head? = some '[' ∧
    (bracketed t).getLast? = some ']' ∧ (bracketed t).tail.getLast? = some ']' ∧
      (bracketed t).tail.dropLast = t := by
  have hlast : (bracketed t).getLast? = some ']' := by
    rw [bracketed, ← List.singleton_append, List.append_assoc, ← List.append_assoc,
      List.getLast?_concat]
  exact ⟨rfl, hlast, by simp [bracketed], by simp [bracketed]⟩

theorem trim_bracketed (t : List Char) : trim (bracketed t) = bracketed t :=
  trim_of_ends (by decide) (by decide) (bracketed_ends t).2.1 (bracketed_ends t).1

theorem bracketed_no_space (h : AddressText t b d) : ∀ c ∈ bracketed t, c ≠ ' ' := by
  refine List.forall_mem_cons.mpr ⟨by decide, List.forall_mem_append.mpr ⟨fun c hc => ?_, by simp⟩⟩
  exact h.ne hc (by decide) (by decide) (by decide)

/-- What follows the size keyword and is in brackets is read as an address. -/
theorem parseSingleOperand_bracketed {w : Option Nat}
    (hstrip : stripWidthPrefix (trim raw) = (w, bracketed t)) : parseSingleOperand raw =
      (parseAddrInner t).map fun p => .mem p.1 p.2 (w.getD 64) := by
  obtain ⟨hhead, -, hlast, hinner⟩ := bracketed_ends t
  unfold parseSingleOperand
  rw [hstrip]
  simp only [trim_bracketed, hhead, hlast, hinner, and_self, if_true]
  cases parseAddrInner t <;> rfl

theorem stripWidthPrefix_none {s : List Char} (h : ∀ c ∈ s, c ≠ ' ') :
    stripWidthPrefix s = (none, s) := by
  rw [stripWidthPrefix, splitOnce_none h]

theorem sizeWords_spec (hk : k ∈ sizeWords) : (∀ c ∈ k.1, c ≠ ' ') ∧
    widthOfKeyword k.1 = some k.2 ∧ ∃ c cs, k.1 = c :: cs ∧ c.isDigit = false ∧
      isWhiteSpace c = false ∧ c ≠ '[' ∧ c ≠ '-' ∧ c ≠ '+' ∧ ∀ x ∈ cs.head?, x ≠ 'x' ∧ x ≠ 'X' := by
  have hall : sizeWords.all (fun k => k.1.all (· != ' ') && widthOfKeyword k.1 == some k.2 &&
      (k.1.head?.any fun c => !c.isDigit && !isWhiteSpace c && c != '[' && c != '-' && c != '+') &&
      k.1.tail.head?.all fun x => x != 'x' && x != 'X') = true := by decide
  have hword := List.all_eq_true.mp hall k hk
  cases hk₁ : k.1 with
  | nil => simp [hk₁] at hword
  | cons c cs =>
    simp only [hk₁, List.head?_cons, List.tail_cons, Option.any_some, Bool.and_eq_true,
      List.all_eq_true, Option.all_eq_true, beq_iff_eq, bne_iff_ne, Bool.not_eq_true'] at hword
    obtain ⟨⟨⟨hspace, hwidth⟩, ⟨⟨⟨hdigit, hwhite⟩, hbracket⟩, hminus⟩, hplus⟩, hx⟩ := hword
    exact ⟨hspace, hwidth, c, cs, rfl, hdigit, hwhite, hbracket, hminus, hplus, hx⟩

theorem stripWidthPrefix_ptr (hk : k ∈ sizeWords) (t : List Char) :
    stripWidthPrefix (k.1 ++ ' ' :: ("ptr".toList ++ ' ' :: t)) = (some k.2, t) := by
  obtain ⟨hspace, hwidth, -⟩ := sizeWords_spec hk
  have hptr : ∀ c ∈ "ptr".toList, c ≠ ' ' := by
    have hall : "ptr".toList.all (· != ' ') = true := by decide
    exact fun c hc => bne_iff_ne.mp (List.all_eq_true.mp hall c hc)
  rw [stripWidthPrefix, splitOnce_append hspace]
  dsimp only
  rw [splitOnce_append hptr]
  dsimp only
  rw [if_pos (by decide), hwidth]

/-- Without `ptr` the keyword is not recognised. -/
theorem stripWidthPrefix_keyword (hk : k ∈ sizeWords) (h : AddressText t b d) :
    stripWidthPrefix (k.1 ++ ' ' :: bracketed t) = (none, k.1 ++ ' ' :: bracketed t) := by
  obtain ⟨hspace, -⟩ := sizeWords_spec hk
  rw [stripWidthPrefix, splitOnce_append hspace]
  dsimp only
  rw [splitOnce_none (bracketed_no_space h)]

theorem digits_eq_none {radix : Nat} {s : List Char} {c : Char} (hc : c ∈ s)
    (hd : c.isAlphanum = false) : digits radix s = none := by
  by_contra hne
  obtain ⟨n, hn⟩ := Option.ne_none_iff_exists'.mp hne
  rw [digits_word hn c hc] at hd
  cases hd

/-- A memory operand with a bare size keyword is read as a zero. -/
theorem parseSingleOperand_keyword (hk : k ∈ sizeWords) (h : AddressText t b d)
    (hraw : trim raw = k.1 ++ ' ' :: bracketed t) : parseSingleOperand raw = some (.imm 0) := by
  obtain ⟨-, -, c, cs, hcs, hdigit, hwhite, hbracket, hminus, hplus, hx⟩ := sizeWords_spec hk
  have hs : k.1 ++ ' ' :: bracketed t = c :: (cs ++ ' ' :: bracketed t) := by
    rw [hcs, List.cons_append]
  have hlast : (k.1 ++ ' ' :: bracketed t).getLast? = some ']' := by
    rw [show k.1 ++ ' ' :: bracketed t = (k.1 ++ [' ', '['] ++ t) ++ [']'] by simp [bracketed],
      List.getLast?_concat]
  have htrim : trim (k.1 ++ ' ' :: bracketed t) = k.1 ++ ' ' :: bracketed t :=
    trim_of_ends hwhite (by decide) hlast (by rw [hs]; rfl)
  have hmem : ']' ∈ k.1 ++ ' ' :: bracketed t := List.mem_of_getLast? hlast
  have hreg : registerWidth (k.1 ++ ' ' :: bracketed t) = none := by
    by_contra hne
    have hsome := Option.isSome_iff_ne_none.mpr hne
    exact absurd ((registerWidth_word hsome).1 _ hmem) (by decide)
  have hint : parseIntLike (k.1 ++ ' ' :: bracketed t) = some none := by
    rw [parseIntLike, htrim]
    rw [show (_ <|> _ : Option (List Char)) = none from hs ▸ no_hexPrefix (c := c) fun x hx' => by
      cases cs with
      | nil =>
        cases hx'
        decide
      | cons y ys => exact hx x hx']
    dsimp only
    rw [if_neg (by rw [hlast]; decide), hs]
    split
    · rename_i rest heq
      cases heq
      exact absurd rfl hminus
    · unfold u64FromStrRadix
      split
      · rename_i ds heq
        cases heq
        exact absurd rfl hplus
      · rw [digits_eq_none (hs ▸ hmem) (by decide)]
        rfl
  unfold parseSingleOperand
  rw [hraw, stripWidthPrefix_keyword hk h]
  dsimp only
  rw [htrim, if_neg (by rw [hs]; simp [hbracket]), hreg]
  dsimp only
  rw [hint]
  rfl

end Pieces

end Axe.Concolic
