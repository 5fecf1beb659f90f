import Mathlib.Data.List.Sort
import Axe.Lib.Separators
import Axe.Static.Diff

/-!
# The fingerprint of a function

A fingerprint is the digest of one text: the size, the imports and the strings of a function, with
separators that the names and the strings may contain too.
-/
namespace Axe.Static

/-- A JSON value; of a number, what it is as an unsigned number of 64 bits. -/
inductive Json
  | null
  | boolean (b : Bool)
  | number (value : Option (BitVec 64))
  | string (text : String)
  | array (values : List Json)
  | object (fields : List (String × Json))

namespace Json

def get (key : String) : Json → Option Json
  | object fields => (fields.find? fun field => field.1 = key).map Prod.snd
  | _ => none

def asU64 : Json → Option Nat
  | number value => value.map BitVec.toNat
  | _ => none

def asStr : Json → Option String
  | string text => some text
  | _ => none

def asArray : Json → Option (List Json)
  | array values => some values
  | _ => none

/-- The entries of a list that are texts. -/
def texts (key : String) (row : Json) : List String :=
  (((row.get key).bind asArray).map (·.filterMap asStr)).getD []

end Json

def sortTexts (texts : List String) : List String := texts.insertionSort (· ≤ ·)

def hasherInput (size : Nat) (imports strings : List String) : String :=
  toString size ++ "|" ++ ",".intercalate (sortTexts imports) ++ "|" ++
    ",".intercalate (sortTexts strings)

def hexByte (byte : UInt8) : List Char :=
  [Nat.digitChar (byte.toNat / 16), Nat.digitChar (byte.toNat % 16)]

/-- The first eight bytes of a digest. -/
def sha256Short (digest : String → List UInt8) (input : String) : String :=
  String.ofList (((digest input).take 8).flatMap hexByte)

theorem sha256Short_hex (digest : String → List UInt8) (input : String) :
    ∀ c ∈ (sha256Short digest input).toList, c ∈ "0123456789abcdef".toList := by
  have hdigit : ∀ n < 16, Nat.digitChar n ∈ "0123456789abcdef".toList := by decide
  intro c hc
  rw [sha256Short, String.toList_ofList, List.mem_flatMap] at hc
  obtain ⟨byte, -, hc⟩ := hc
  have hlt := byte.toNat_lt
  rw [hexByte, List.mem_pair] at hc
  rcases hc with rfl | rfl
  · exact hdigit _ (by omega)
  · exact hdigit _ (by omega)

def functionFingerprint (digest : String → List UInt8) (row : Json) :
    Option FunctionFingerprint := do
  let function ← row.get "function"
  let va ← function.asU64
  let size ← row.get "size"
  let size := size.asU64.getD 0
  let imports := row.texts "imports"
  let strings := row.texts "strings"
  return {
    fingerprint := sha256Short digest (hasherInput size imports strings)
    va, size, imports, strings
    hex := sha256Short_hex digest _ }

/-- The functions of a side. -/
def loadSide (digest : String → List UInt8) (dossiers : List Json) : List FunctionFingerprint :=
  dossiers.filterMap (functionFingerprint digest)

/-- A character of a text, the end of a text before another of its list, or the end of the
imports. -/
inductive Mark
  | text (c : Char)
  | textEnd
  | listEnd
  deriving DecidableEq

def Mark.char : Mark → Char
  | text c => c
  | textEnd => ','
  | listEnd => '|'

def textMarks (texts : List String) : List Mark :=
  [Mark.textEnd].intercalate ((sortTexts texts).map fun text => text.toList.map Mark.text)

namespace FunctionFingerprint

variable (f g : FunctionFingerprint)

def marks : List Mark := textMarks f.imports ++ .listEnd :: textMarks f.strings

structure SameContent : Prop where
  size : f.size = g.size
  imports : f.imports.Perm g.imports
  strings : f.strings.Perm g.strings

/-- No text against one empty text. -/
def OneEmpty (xs ys : List String) : Prop := xs = [] ∧ ys = [""] ∨ xs = [""] ∧ ys = []

/-- The sorted texts of two functions are written alike, but one has the end of a text or of the
imports where a text of the other has a separator, or it has a list empty where the other has an
empty text. -/
structure Regrouped : Prop where
  size : f.size = g.size
  written : f.marks.map Mark.char = g.marks.map Mark.char
  otherwise : f.marks ≠ g.marks ∨ OneEmpty f.imports g.imports ∨ OneEmpty f.strings g.strings

section Texts
variable {xs ys : List String} {m n : Nat} {f g : FunctionFingerprint}

theorem sortTexts_eq_iff : sortTexts xs = sortTexts ys ↔ xs.Perm ys := by
  have hperm : ∀ zs : List String, (sortTexts zs).Perm zs := List.perm_insertionSort _
  constructor
  · intro h
    exact (hperm xs).symm.trans (h ▸ hperm ys)
  · intro h
    exact ((hperm xs).trans (h.trans (hperm ys).symm)).eq_of_pairwise'
      (List.pairwise_insertionSort _ _) (List.pairwise_insertionSort _ _)

theorem sortTexts_eq_nil : sortTexts xs = [] ↔ xs = [] := by
  rw [show [] = sortTexts [] from rfl, sortTexts_eq_iff, List.perm_nil]
  rfl

theorem sortTexts_eq_singleton {text : String} : sortTexts xs = [text] ↔ xs = [text] := by
  rw [show [text] = sortTexts [text] from rfl, sortTexts_eq_iff, List.perm_singleton]
  rfl

/-- The marks tell the texts, up to one empty text. -/
theorem textMarks_eq_iff : textMarks xs = textMarks ys ↔ xs.Perm ys ∨ OneEmpty xs ys := by
  have hend : ∀ zs : List String, ∀ marks ∈ (sortTexts zs).map (·.toList.map Mark.text),
      Mark.textEnd ∉ marks := by
    intro zs marks hmarks
    obtain ⟨text, -, rfl⟩ := List.mem_map.mp hmarks
    rw [List.mem_map]
    rintro ⟨c, -, hc⟩
    cases hc
  have hinj : Function.Injective fun text : String => text.toList.map Mark.text :=
    (List.map_injective_iff.mpr fun _ _ h => Mark.text.inj h).comp
      fun _ _ => String.toList_injective
  have hempty : ∀ zs : List String, (sortTexts zs).map (·.toList.map Mark.text) = [[]] ↔
      zs = [""] := by
    intro zs
    rw [← sortTexts_eq_singleton]
    exact (List.map_injective_iff.mpr hinj).eq_iff (b := [""])
  rw [textMarks, textMarks, intercalate_eq_iff (hend xs) (hend ys), hempty, hempty,
    (List.map_injective_iff.mpr hinj).eq_iff, sortTexts_eq_iff, List.map_eq_nil_iff,
    List.map_eq_nil_iff, sortTexts_eq_nil, sortTexts_eq_nil, OneEmpty]

theorem marks_eq_iff : f.marks = g.marks ↔
    (f.imports.Perm g.imports ∨ OneEmpty f.imports g.imports) ∧
      (f.strings.Perm g.strings ∨ OneEmpty f.strings g.strings) := by
  have hend : ∀ zs : List String, Mark.listEnd ∉ textMarks zs := by
    intro zs h
    rcases mem_of_mem_intercalate h with h | ⟨marks, hmarks, h⟩
    · cases List.mem_singleton.mp h
    · obtain ⟨text, -, rfl⟩ := List.mem_map.mp hmarks
      obtain ⟨c, -, hc⟩ := List.mem_map.mp h
      cases hc
  rw [marks, marks, append_cons_inj (hend _) (hend _), textMarks_eq_iff, textMarks_eq_iff]

theorem toList_join (zs : List String) :
    (",".intercalate (sortTexts zs)).toList = (textMarks zs).map Mark.char := by
  have htext : ∀ text : String, (text.toList.map Mark.text).map Mark.char = text.toList :=
    fun text => by rw [List.map_map]; exact List.map_id _
  rw [String.toList_intercalate, textMarks, map_intercalate, List.map_map]
  congr 1
  exact List.map_congr_left fun text _ => (htext text).symm

theorem hasherInput_eq_iff : hasherInput f.size f.imports f.strings =
    hasherInput g.size g.imports g.strings ↔
      f.size = g.size ∧ f.marks.map Mark.char = g.marks.map Mark.char := by
  have htext : ∀ f : FunctionFingerprint, (hasherInput f.size f.imports f.strings).toList =
      Nat.toDigits 10 f.size ++ '|' :: f.marks.map Mark.char := by
    intro f
    have hbar : "|".toList = ['|'] := rfl
    simp only [hasherInput, String.toList_append, toList_join, marks, List.map_append,
      List.map_cons, Mark.char, Nat.toString_eq_ofList_toDigits, String.toList_ofList, hbar,
      List.append_assoc, List.cons_append, List.nil_append]
  have hdigits : ∀ n, '|' ∉ Nat.toDigits 10 n := fun n h =>
    absurd (Nat.isDigit_of_mem_toDigits (by decide) (by decide) h) (by decide)
  rw [← String.toList_inj, htext, htext, append_cons_inj (hdigits _) (hdigits _)]
  refine and_congr_left fun _ => ⟨fun h => ?_, fun h => by rw [h]⟩
  rw [← @Nat.ofDigitChars_ten_toDigits f.size, h, Nat.ofDigitChars_ten_toDigits]

/-- Functions of other content with the same text are regrouped. -/
theorem regrouped_iff : Regrouped f g ↔ hasherInput f.size f.imports f.strings =
    hasherInput g.size g.imports g.strings ∧ ¬ SameContent f g := by
  rw [hasherInput_eq_iff]
  have hempty : ∀ xs ys : List String, OneEmpty xs ys → ¬ xs.Perm ys := by
    rintro xs ys (⟨rfl, rfl⟩ | ⟨rfl, rfl⟩) h <;> simpa using h.length_eq
  constructor
  · rintro ⟨hsize, hwritten, hother⟩
    refine ⟨⟨hsize, hwritten⟩, fun hsame => ?_⟩
    rcases hother with hmarks | hone | hone
    · exact hmarks (marks_eq_iff.mpr ⟨.inl hsame.imports, .inl hsame.strings⟩)
    · exact hempty _ _ hone hsame.imports
    · exact hempty _ _ hone hsame.strings
  · rintro ⟨⟨hsize, hwritten⟩, hsame⟩
    refine ⟨hsize, hwritten, ?_⟩
    by_contra hother
    push Not at hother
    obtain ⟨hmarks, himports, hstrings⟩ := hother
    obtain ⟨hi, hs⟩ := marks_eq_iff.mp hmarks
    exact hsame ⟨hsize, hi.resolve_right himports, hs.resolve_right hstrings⟩

/-- A text that is not empty and holds no separator. -/
def Plain (text : String) : Prop := text ≠ "" ∧ ',' ∉ text.toList ∧ '|' ∉ text.toList

instance (text : String) : Decidable (Plain text) :=
  inferInstanceAs (Decidable (text ≠ "" ∧ ',' ∉ text.toList ∧ '|' ∉ text.toList))

theorem mem_textMarks {c : Char} (h : Mark.text c ∈ textMarks xs) :
    ∃ text ∈ xs, c ∈ text.toList := by
  rcases mem_of_mem_intercalate h with h | ⟨marks, hmarks, h⟩
  · cases List.mem_singleton.mp h
  · obtain ⟨text, htext, rfl⟩ := List.mem_map.mp hmarks
    obtain ⟨c', hc', hc⟩ := List.mem_map.mp h
    cases hc
    exact ⟨text, (List.mem_insertionSort _).mp htext, hc'⟩

theorem char_inj {m m' : Mark} (hm : ∀ c, m = .text c → c ≠ ',' ∧ c ≠ '|')
    (hm' : ∀ c, m' = .text c → c ≠ ',' ∧ c ≠ '|') (h : m.char = m'.char) : m = m' := by
  cases m with
  | text c =>
    cases m' with
    | text c' => exact congrArg _ h
    | textEnd => exact absurd h (hm c rfl).1
    | listEnd => exact absurd h (hm c rfl).2
  | textEnd =>
    cases m' with
    | text c => exact absurd h.symm (hm' c rfl).1
    | textEnd => rfl
    | listEnd => exact absurd h (by decide)
  | listEnd =>
    cases m' with
    | text c => exact absurd h.symm (hm' c rfl).2
    | textEnd => exact absurd h (by decide)
    | listEnd => rfl

/-- Among marks without separators in texts, the characters tell the marks. -/
theorem map_char_inj {l l' : List Mark} (hl : ∀ c, Mark.text c ∈ l → c ≠ ',' ∧ c ≠ '|')
    (hl' : ∀ c, Mark.text c ∈ l' → c ≠ ',' ∧ c ≠ '|') (h : l.map Mark.char = l'.map Mark.char) :
    l = l' := by
  induction l generalizing l' with
  | nil => exact (List.map_eq_nil_iff.mp h.symm).symm
  | cons m l ih =>
    cases l' with
    | nil => cases h
    | cons m' l' =>
      rw [List.map_cons, List.map_cons, List.cons.injEq] at h
      rw [ih (fun c hc => hl c (List.mem_cons_of_mem _ hc))
        (fun c hc => hl' c (List.mem_cons_of_mem _ hc)) h.2]
      rw [char_inj (fun c hc => hl c (hc ▸ List.mem_cons_self))
        (fun c hc => hl' c (hc ▸ List.mem_cons_self)) h.1]

/-- Plain texts cannot be regrouped. -/
theorem not_regrouped_of_plain (hf : ∀ text ∈ f.imports ++ f.strings, Plain text)
    (hg : ∀ text ∈ g.imports ++ g.strings, Plain text) : ¬ Regrouped f g := by
  have hmarks : ∀ f : FunctionFingerprint, (∀ text ∈ f.imports ++ f.strings, Plain text) →
      ∀ c, Mark.text c ∈ f.marks → c ≠ ',' ∧ c ≠ '|' := by
    intro f hf c hc
    have htext : ∃ text ∈ f.imports ++ f.strings, c ∈ text.toList := by
      rw [marks, List.mem_append, List.mem_cons] at hc
      rcases hc with hc | hc | hc
      · obtain ⟨text, htext, hc⟩ := mem_textMarks hc
        exact ⟨text, List.mem_append_left _ htext, hc⟩
      · cases hc
      · obtain ⟨text, htext, hc⟩ := mem_textMarks hc
        exact ⟨text, List.mem_append_right _ htext, hc⟩
    obtain ⟨text, htext, hc⟩ := htext
    obtain ⟨-, hcomma, hbar⟩ := hf text htext
    exact ⟨fun h => hcomma (h ▸ hc), fun h => hbar (h ▸ hc)⟩
  have hempty : ∀ xs ys : List String, (∀ text ∈ xs, Plain text) → (∀ text ∈ ys, Plain text) →
      ¬ OneEmpty xs ys := by
    rintro xs ys hxs hys (⟨rfl, rfl⟩ | ⟨rfl, rfl⟩)
    · exact (hys "" List.mem_cons_self).1 rfl
    · exact (hxs "" List.mem_cons_self).1 rfl
  rw [List.forall_mem_append] at hf hg
  rintro ⟨-, hwritten, hother | hone | hone⟩
  · exact hother (map_char_inj (hmarks f (List.forall_mem_append.mpr hf))
      (hmarks g (List.forall_mem_append.mpr hg)) hwritten)
  · exact hempty _ _ hf.1 hg.1 hone
  · exact hempty _ _ hf.2 hg.2 hone

end Texts

theorem functionFingerprint_eq {digest : String → List UInt8} {row : Json}
    {f : FunctionFingerprint} (h : functionFingerprint digest row = some f) :
    f.fingerprint = sha256Short digest (hasherInput f.size f.imports f.strings) := by
  simp only [functionFingerprint, Option.bind_eq_bind, Option.bind_eq_some_iff] at h
  obtain ⟨function, -, va, -, size, -, h⟩ := h
  obtain rfl := Option.some.inj h
  rfl

/-- Where the digest tells the two texts apart, the fingerprints of two functions are equal just
for the same content, unless the one is the other regrouped. -/
theorem fingerprint_content_iff (digest : String → List UInt8) {row row' : Json}
    {f g : FunctionFingerprint} (hf : functionFingerprint digest row = some f)
    (hg : functionFingerprint digest row' = some g)
    (hdigest : sha256Short digest (hasherInput f.size f.imports f.strings) =
        sha256Short digest (hasherInput g.size g.imports g.strings) →
      hasherInput f.size f.imports f.strings = hasherInput g.size g.imports g.strings) :
    (f.fingerprint = g.fingerprint ↔ SameContent f g) ↔ ¬ Regrouped f g := by
  have hsame : SameContent f g → hasherInput f.size f.imports f.strings =
      hasherInput g.size g.imports g.strings := by
    rintro ⟨hsize, himports, hstrings⟩
    rw [hasherInput, hasherInput, hsize, sortTexts_eq_iff.mpr himports,
      sortTexts_eq_iff.mpr hstrings]
  have hinput : f.fingerprint = g.fingerprint ↔ hasherInput f.size f.imports f.strings =
      hasherInput g.size g.imports g.strings := by
    rw [functionFingerprint_eq hf, functionFingerprint_eq hg]
    exact ⟨hdigest, fun h => by rw [h]⟩
  rw [regrouped_iff, hinput, not_and, not_not]
  exact ⟨Iff.mp, fun h => ⟨h, hsame⟩⟩

/-- A function of sixteen bytes. -/
def dossier (imports strings : List String) : Json :=
  .object [("function", .number (some 0x1000)), ("size", .number (some 16)),
    ("imports", .array (imports.map .string)), ("strings", .array (strings.map .string))]

/-- The first bytes of the digests of three texts. -/
def digestOf (input : String) : List UInt8 :=
  if input = "16|recv|hello" then [0x2e, 0xb6, 0x37, 0x9e, 0xd0, 0x21, 0xf4, 0x02]
  else if input = "16|send|hello" then [0xf8, 0xe0, 0x87, 0x89, 0x96, 0xc3, 0x14, 0xb6]
  else if input = "16|a,b|" then [0xcd, 0x53, 0x01, 0xfe, 0xcc, 0xd5, 0x48, 0x50]
  else []

def receiver : Json := dossier ["recv"] ["hello"]

def sender : Json := dossier ["send"] ["hello"]

theorem fingerprint_content_sender : ∃ f g, functionFingerprint digestOf receiver = some f ∧
    functionFingerprint digestOf sender = some g ∧
    (f.fingerprint = g.fingerprint ↔ SameContent f g) := by
  have hf : functionFingerprint digestOf receiver = some _ := rfl
  have hg : functionFingerprint digestOf sender = some _ := rfl
  refine ⟨_, _, hf, hg, (fingerprint_content_iff digestOf hf hg fun h => ?_).mpr ?_⟩
  · have hne : sha256Short digestOf (hasherInput 16 ["recv"] ["hello"]) ≠
        sha256Short digestOf (hasherInput 16 ["send"] ["hello"]) := by decide +kernel
    exact absurd h hne
  · exact not_regrouped_of_plain (by decide +kernel) (by decide +kernel)

/-- A name with a comma against the two names on its sides. -/
theorem comma_regroups : ¬ ∀ (row row' : Json) (f g : FunctionFingerprint),
    functionFingerprint digestOf row = some f → functionFingerprint digestOf row' = some g →
    (sha256Short digestOf (hasherInput f.size f.imports f.strings) =
        sha256Short digestOf (hasherInput g.size g.imports g.strings) →
      hasherInput f.size f.imports f.strings = hasherInput g.size g.imports g.strings) →
    (f.fingerprint = g.fingerprint ↔ SameContent f g) := by
  intro h
  have hinput : hasherInput 16 ["a", "b"] [] = hasherInput 16 ["a,b"] [] := by decide +kernel
  have hsame := (h (dossier ["a", "b"] []) (dossier ["a,b"] []) _ _ rfl rfl
    (fun _ => hinput)).mp (congrArg (sha256Short digestOf) hinput)
  have hlength := hsame.imports.length_eq
  exact absurd hlength (by decide)

end FunctionFingerprint

end Axe.Static
