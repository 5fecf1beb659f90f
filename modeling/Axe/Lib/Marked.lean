import Mathlib.Data.List.Basic

/-!
# Texts with replaced words

A text in which some occurrences of words are replaced is a list of cells, each a letter that is
kept or a word that is replaced. It has the text it comes from and the text it is rendered as,
and an occurrence has a place in both.
-/
namespace Marked

variable {α : Type}

inductive Cell (α : Type)
  | kept (letter : α)
  | replaced (word : List α)

def Cell.original : Cell α → List α
  | .kept a => [a]
  | .replaced w => w

def Cell.rendered (new : List α) : Cell α → List α
  | .kept a => [a]
  | .replaced _ => new

def original (cells : List (Cell α)) : List α := cells.flatMap Cell.original

def rendered (new : List α) (cells : List (Cell α)) : List α := cells.flatMap (Cell.rendered new)

def kept (text : List α) : List (Cell α) := text.map Cell.kept

/-- The replaced words with their places, where the cells lie one behind the other. -/
def marks (text : Cell α → List α) : Nat → List (Cell α) → List (Nat × List α)
  | _, [] => []
  | i, .kept a :: cells => marks text (i + (text (.kept a)).length) cells
  | i, .replaced w :: cells => (i, w) :: marks text (i + (text (.replaced w)).length) cells

def occurrences (cells : List (Cell α)) : List (Nat × List α) := marks Cell.original 0 cells

def insertions (new : List α) (cells : List (Cell α)) : List (Nat × List α) :=
  marks (Cell.rendered new) 0 cells

variable {text new v w : List α} {c d e : List (Cell α)} {cell : Cell α} {a : α} {i j n : Nat}
  {f : Cell α → List α} {isWord : α → Bool}

@[simp] theorem original_append : original (c ++ d) = original c ++ original d :=
  List.flatMap_append

@[simp] theorem rendered_append : rendered new (c ++ d) = rendered new c ++ rendered new d :=
  List.flatMap_append

@[simp] theorem original_kept : original (kept w) = w := by
  simp [original, kept, List.flatMap_map, Cell.original]

@[simp] theorem rendered_kept : rendered new (kept w) = w := by
  simp [rendered, kept, List.flatMap_map, Cell.rendered]

@[simp] theorem original_replaced : original (.replaced w :: c) = w ++ original c := rfl

@[simp] theorem rendered_replaced : rendered new (.replaced w :: c) = new ++ rendered new c := rfl

theorem original_between : original (d ++ (kept w ++ e)) = original d ++ (w ++ original e) := by
  rw [original_append, original_append, original_kept]

theorem rendered_between :
    rendered new (d ++ (kept w ++ e)) = rendered new d ++ (w ++ rendered new e) := by
  rw [rendered_append, rendered_append, rendered_kept]

theorem marks_append :
    marks f i (c ++ d) = marks f i c ++ marks f (i + (c.flatMap f).length) d := by
  induction c generalizing i with
  | nil => rfl
  | cons x c ih =>
    have hsum : i + (f x).length + (c.flatMap f).length = i + ((x :: c).flatMap f).length := by
      rw [List.flatMap_cons, List.length_append, Nat.add_assoc]
    cases x with
    | kept a => rw [List.cons_append, marks, marks, ih, hsum]
    | replaced v => rw [List.cons_append, marks, marks, ih, hsum, List.cons_append]

theorem marks_shift : marks f (i + n) c = (marks f i c).map fun mark => (mark.1 + n, mark.2) := by
  induction c generalizing i with
  | nil => rfl
  | cons x c ih =>
    cases x with
    | kept a => rw [marks, marks, Nat.add_right_comm, ih]
    | replaced v => rw [marks, marks, Nat.add_right_comm, ih, List.map_cons]

theorem marks_kept : marks f i (kept w) = [] := by
  induction w generalizing i with
  | nil => rfl
  | cons a w ih => exact ih

theorem mem_marks : (j, w) ∈ marks f i c ↔
    ∃ d e, c = d ++ .replaced w :: e ∧ j = i + (d.flatMap f).length := by
  constructor
  · intro h
    induction c generalizing i with
    | nil => cases h
    | cons x c ih =>
      cases x with
      | kept a =>
        obtain ⟨d, e, rfl, rfl⟩ := ih h
        exact ⟨.kept a :: d, e, rfl, by rw [List.flatMap_cons, List.length_append, Nat.add_assoc]⟩
      | replaced v =>
        rcases List.mem_cons.mp h with heq | h
        · cases heq
          exact ⟨[], c, rfl, rfl⟩
        · obtain ⟨d, e, rfl, rfl⟩ := ih h
          exact ⟨.replaced v :: d, e, rfl,
            by rw [List.flatMap_cons, List.length_append, Nat.add_assoc]⟩
  · rintro ⟨d, e, rfl, rfl⟩
    rw [marks_append]
    exact List.mem_append_right _ List.mem_cons_self

theorem mem_occurrences :
    (i, w) ∈ occurrences c ↔ ∃ d e, c = d ++ .replaced w :: e ∧ i = (original d).length := by
  rw [occurrences, mem_marks]
  simp only [Nat.zero_add, original]

theorem mem_insertions : (i, w) ∈ insertions new c ↔
    ∃ d e, c = d ++ .replaced w :: e ∧ i = (rendered new d).length := by
  rw [insertions, mem_marks]
  simp only [Nat.zero_add, rendered]

/-- The cell that a place of a text lies in. -/
theorem exists_cell (h : i < (c.flatMap f).length) :
    ∃ d x e, c = d ++ x :: e ∧ (d.flatMap f).length ≤ i ∧
      i < (d.flatMap f).length + (f x).length := by
  induction c generalizing i with
  | nil => exact absurd h (Nat.not_lt_zero _)
  | cons x c ih =>
    by_cases hx : i < (f x).length
    · exact ⟨[], x, c, rfl, Nat.zero_le _, by simpa using hx⟩
    · rw [List.flatMap_cons, List.length_append] at h
      obtain ⟨d, y, e, rfl, hd, hy⟩ := @ih (i - (f x).length) (by omega)
      refine ⟨x :: d, y, e, rfl, ?_, ?_⟩ <;>
        (rw [List.flatMap_cons, List.length_append]; omega)

/-- No letter of a word is next to a place. -/
def Open (isWord : α → Bool) (neighbour : Option α) : Prop := ∀ a ∈ neighbour, isWord a = false

def Stands (isWord : α → Bool) (text w : List α) (i : Nat) : Prop :=
  w ≠ [] ∧ ∃ before after, text = before ++ (w ++ after) ∧ before.length = i ∧
    Open isWord before.getLast? ∧ Open isWord after.head?

/-- The words that stand alone do not overlap, and what directly follows one of them and ends
where a word may end stands alone as well. -/
structure Compatible (isWord : α → Bool) (words : List (List α)) (text : List α) : Prop where
  apart : ∀ v ∈ words, ∀ w ∈ words, ∀ i j, Stands isWord text v i → Stands isWord text w j →
    i ≤ j → i = j ∧ v = w ∨ i + v.length ≤ j
  clear : ∀ v ∈ words, ∀ w ∈ words, w ≠ [] → ∀ before after,
    text = before ++ (v ++ (w ++ after)) → Stands isWord text v before.length →
      Open isWord after.head? → Open isWord (before ++ v).getLast?

theorem stands_iff {before after : List α} (h : text = before ++ (w ++ after)) :
    Stands isWord text w before.length ↔
      w ≠ [] ∧ Open isWord before.getLast? ∧ Open isWord after.head? := by
  refine and_congr_right fun _ => ⟨?_, fun h' => ⟨before, after, h, rfl, h'⟩⟩
  rintro ⟨b, a, heq, hlen, hb, ha⟩
  obtain ⟨rfl, hrest⟩ := List.append_inj (heq.symm.trans h) hlen
  exact List.append_cancel_left hrest ▸ ⟨hb, ha⟩

theorem Stands.add_le (h : Stands isWord text w i) : i + w.length ≤ text.length := by
  obtain ⟨_, b, a, rfl, rfl, _, _⟩ := h
  simp only [List.length_append]
  omega

theorem Stands.lt (h : Stands isWord text w i) : i < text.length := by
  have := List.length_pos_of_ne_nil h.1
  have := h.add_le
  omega

theorem open_none : Open isWord none := by
  intro a ha
  cases ha

theorem open_some (h : isWord a = false) : Open isWord (some a) := by
  intro b hb
  cases hb
  exact h

theorem open_getLast?_append {b t : List α} (hb : Open isWord b.getLast?) :
    Open isWord (b ++ t).getLast? ↔ Open isWord t.getLast? := by
  by_cases ht : t = []
  · subst ht
    rw [List.append_nil]
    exact ⟨fun _ => open_none, fun _ => hb⟩
  · rw [List.getLast?_append_of_ne_nil _ ht]

theorem open_head?_append {a u : List α} (ha : Open isWord a.head?) :
    Open isWord (u ++ a).head? ↔ Open isWord u.head? := by
  by_cases hu : u = []
  · subst hu
    exact ⟨fun _ => open_none, fun _ => ha⟩
  · rw [List.head?_append_of_ne_nil _ hu]

/-- Inside of a part with no letters next to it a word stands alone as it does in the text. -/
theorem stands_inside {b m a : List α} (hb : Open isWord b.getLast?) (ha : Open isWord a.head?) :
    Stands isWord (b ++ (m ++ a)) w (b.length + i) ∧ i + w.length ≤ m.length ↔
      Stands isWord m w i := by
  constructor
  · rintro ⟨⟨hne, before, after, htext, hlen, hleft, hright⟩, hle⟩
    obtain ⟨t, rfl⟩ : b <+: before :=
      List.prefix_of_prefix_length_le ⟨_, rfl⟩ ⟨_, htext.symm⟩ (by omega)
    have ht : t.length = i := by
      rw [List.length_append] at hlen
      omega
    rw [List.append_assoc, List.append_right_inj, ← List.append_assoc t] at htext
    obtain ⟨u, rfl⟩ : t ++ w <+: m := List.prefix_of_prefix_length_le ⟨_, htext.symm⟩ ⟨_, rfl⟩
      (by rw [List.length_append]; omega)
    rw [List.append_assoc (t ++ w), List.append_right_inj] at htext
    subst htext
    refine ⟨hne, t, u, by rw [List.append_assoc], ht, ?_, ?_⟩
    · exact (open_getLast?_append hb).mp hleft
    · exact (open_head?_append ha).mp hright
  · rintro ⟨hne, t, u, rfl, rfl, hleft, hright⟩
    refine ⟨⟨hne, b ++ t, u ++ a, by simp only [List.append_assoc], by simp,
      (open_getLast?_append hb).mpr hleft, (open_head?_append ha).mpr hright⟩, ?_⟩
    simp only [List.length_append]
    omega

/-- Words that stand alone and have no other letters are apart. -/
theorem stands_apart (hv : ∀ a ∈ v, isWord a = true) (hw : ∀ a ∈ w, isWord a = true)
    (h : Stands isWord text v i) (h' : Stands isWord text w j) (hij : i ≤ j) :
    i = j ∧ v = w ∨ i + v.length ≤ j := by
  obtain ⟨hvne, b, a, rfl, rfl, hb, ha⟩ := h
  obtain ⟨hwne, b', a', heq, rfl, hb', ha'⟩ := h'
  by_cases hfar : b.length + v.length ≤ b'.length
  · exact .inr hfar
  refine .inl ?_
  obtain ⟨t, rfl⟩ : b <+: b' := List.prefix_of_prefix_length_le ⟨_, rfl⟩ ⟨_, heq.symm⟩ hij
  rw [List.append_assoc, List.append_right_inj] at heq
  have hlen : t.length < v.length := by
    rw [List.length_append] at hfar
    omega
  obtain ⟨u, rfl⟩ : t <+: v :=
    List.prefix_of_prefix_length_le ⟨_, heq.symm⟩ ⟨_, rfl⟩ (Nat.le_of_lt hlen)
  rcases List.eq_nil_or_concat t with rfl | ⟨t, x, rfl⟩
  · rw [List.nil_append, List.nil_append] at heq
    refine ⟨by simp, ?_⟩
    rcases List.append_eq_append_iff.mp heq with ⟨r, rfl, hr⟩ | ⟨r, hr, rfl⟩
    · cases r with
      | nil => simp
      | cons x r =>
        have hx := ha x (by rw [hr]; rfl)
        rw [hw x (by simp)] at hx
        cases hx
    · cases r with
      | nil => simpa using hr
      | cons x r =>
        have hx := ha' x rfl
        rw [hv x (by simp [hr])] at hx
        cases hx
  · have hx := hb' x (by simp)
    rw [hv x (by simp)] at hx
    cases hx

theorem compatible_of_words {words : List (List α)} (h : ∀ w ∈ words, ∀ a ∈ w, isWord a = true)
    (text : List α) : Compatible isWord words text where
  apart v hv w hw _ _ := stands_apart (h v hv) (h w hw)
  clear v hv w hw hne before after htext hstands _ := by
    have hopen := ((stands_iff htext).mp hstands).2.2
    obtain ⟨x, w, rfl⟩ := List.exists_cons_of_ne_nil hne
    have hx := hopen x rfl
    rw [h _ hw x List.mem_cons_self] at hx
    cases hx

section Neighbours
variable (hnew : new ≠ [])
include hnew

theorem getLast?_rendered_replaced :
    (rendered new (d ++ [.replaced v])).getLast? = new.getLast? := by
  have hlast : rendered new [.replaced v] = new := by simp [rendered, Cell.rendered]
  rw [rendered_append, hlast, List.getLast?_append_of_ne_nil _ hnew]

theorem open_last_rendered (hlast : Open isWord new.getLast?)
    (h : Open isWord (original d).getLast?) : Open isWord (rendered new d).getLast? := by
  rcases List.eq_nil_or_concat' d with rfl | ⟨d, x, rfl⟩
  · exact h
  · cases x with
    | kept a => simpa [original, rendered, Cell.original, Cell.rendered] using h
    | replaced v => rwa [getLast?_rendered_replaced hnew]

theorem open_head_rendered (hhead : Open isWord new.head?)
    (h : Open isWord (original d).head?) : Open isWord (rendered new d).head? := by
  rcases d with _ | ⟨x, d⟩
  · exact h
  · cases x with
    | kept a => simpa [original, rendered, Cell.original, Cell.rendered] using h
    | replaced v => rwa [rendered_replaced, List.head?_append_of_ne_nil _ hnew]

end Neighbours

theorem open_last_original (h : Open isWord (rendered new d).getLast?) :
    Open isWord (original d).getLast? ∨ ∃ e v, d = e ++ [.replaced v] := by
  rcases List.eq_nil_or_concat' d with rfl | ⟨d, x, rfl⟩
  · exact .inl h
  · cases x with
    | kept a => exact .inl (by simpa [original, rendered, Cell.original, Cell.rendered] using h)
    | replaced v => exact .inr ⟨d, v, rfl⟩

theorem open_head_original (h : Open isWord (rendered new d).head?) :
    Open isWord (original d).head? ∨ ∃ v e, d = .replaced v :: e := by
  rcases d with _ | ⟨x, d⟩
  · exact .inl h
  · cases x with
    | kept a => exact .inl (by simpa [original, rendered, Cell.original, Cell.rendered] using h)
    | replaced v => exact .inr ⟨v, d, rfl⟩

/-- A word that a rendered text starts with is kept letters, unless it starts in what is new. -/
theorem kept_of_rendered (hnew : new ≠ []) (hhead : Open isWord new.head?)
    (hw : (∀ a ∈ w, isWord a = true) ∨ ∀ v, Cell.replaced v ∉ c) (h : w ++ text = rendered new c) :
    ∃ d, c = kept w ++ d ∧ text = rendered new d := by
  induction w generalizing c with
  | nil => exact ⟨c, rfl, h⟩
  | cons a w ih =>
    rcases c with _ | ⟨x, c⟩
    · cases h
    · cases x with
      | kept b =>
        obtain ⟨rfl, hrest⟩ := List.cons.inj h
        have hw' : (∀ a ∈ w, isWord a = true) ∨ ∀ v, Cell.replaced v ∉ c :=
          hw.imp (fun h x hx => h x (List.mem_cons_of_mem _ hx))
            fun h v hv => h v (List.mem_cons_of_mem _ hv)
        obtain ⟨d, rfl, htext⟩ := ih hw' hrest
        exact ⟨d, rfl, htext⟩
      | replaced v =>
        refine absurd h fun h => ?_
        rcases hw with hw | hw
        · obtain ⟨b, new, rfl⟩ := List.exists_cons_of_ne_nil hnew
          obtain ⟨rfl, _⟩ := List.cons.inj h
          have ha := hhead a rfl
          rw [hw a List.mem_cons_self] at ha
          cases ha
        · exact hw v List.mem_cons_self

/-- A word that the original text starts with is kept letters, unless a replaced word starts
in it. -/
theorem kept_of_original (hfree : ∀ j v, (j, v) ∈ occurrences c → w.length ≤ j)
    (h : w ++ text = original c) : ∃ d, c = kept w ++ d ∧ text = original d := by
  induction w generalizing c with
  | nil => exact ⟨c, rfl, h⟩
  | cons a w ih =>
    rcases c with _ | ⟨x, c⟩
    · cases h
    · cases x with
      | kept b =>
        obtain ⟨rfl, hrest⟩ := List.cons.inj h
        obtain ⟨d, rfl, htext⟩ := ih (fun j v hj => by
          have hmark : (j + 1, v) ∈ occurrences (.kept a :: c) := by
            obtain ⟨d, e, rfl, rfl⟩ := mem_occurrences.mp hj
            exact mem_occurrences.mpr ⟨.kept a :: d, e, rfl, rfl⟩
          have := hfree _ _ hmark
          rw [List.length_cons] at this
          omega) hrest
        exact ⟨d, rfl, htext⟩
      | replaced v =>
        have := hfree 0 v (mem_occurrences.mpr ⟨[], c, rfl, rfl⟩)
        exact absurd this (Nat.not_succ_le_zero _)

structure Faithful (isWord : α → Bool) (words : List (List α)) (text : List α)
    (cells : List (Cell α)) : Prop where
  original : original cells = text
  stands : ∀ i v, (i, v) ∈ occurrences cells → v ∈ words ∧ Stands isWord text v i

theorem mem_occurrences_replaced : (i, v) ∈ occurrences (d ++ .replaced w :: e) ↔
    (i, v) = ((original d).length, w) ∨ (i, v) ∈ occurrences (d ++ (kept w ++ e)) := by
  have hkept : ((kept w).flatMap Cell.original).length = w.length :=
    congrArg List.length original_kept
  rw [occurrences, occurrences, marks_append, marks_append, marks_append, marks_kept, marks, hkept,
    List.nil_append, Nat.zero_add, Cell.original, List.mem_append, List.mem_cons, List.mem_append]
  exact or_left_comm

theorem occurrences_inside {b a : List α} : occurrences (kept b ++ (c ++ kept a)) =
    (occurrences c).map fun mark => (mark.1 + b.length, mark.2) := by
  have hkept : ((kept b).flatMap Cell.original).length = b.length :=
    congrArg List.length original_kept
  rw [occurrences, marks_append, marks_append, marks_kept, marks_kept, List.nil_append,
    List.append_nil, hkept, marks_shift]
  rfl

theorem mem_occurrences_inside {b a : List α} : (i, v) ∈ occurrences (kept b ++ (c ++ kept a)) ↔
    ∃ j, i = b.length + j ∧ (j, v) ∈ occurrences c := by
  rw [occurrences_inside, List.mem_map]
  constructor
  · rintro ⟨⟨j, u⟩, hj, heq⟩
    cases heq
    exact ⟨j, Nat.add_comm j _, hj⟩
  · rintro ⟨j, rfl, hj⟩
    exact ⟨(j, v), hj, by rw [Nat.add_comm]⟩

variable {words : List (List α)}

theorem faithful_kept (text : List α) : Faithful isWord words text (kept text) where
  original := original_kept
  stands i v h := by
    rw [occurrences, marks_kept] at h
    cases h

theorem Faithful.replace (hf : Faithful isWord words text (d ++ (kept w ++ e))) (hw : w ∈ words)
    (hs : Stands isWord text w (Marked.original d).length) :
    Faithful isWord words text (d ++ .replaced w :: e) where
  original := by
    rw [← hf.original]
    simp
  stands i v h := by
    rcases mem_occurrences_replaced.mp h with heq | h
    · cases heq
      exact ⟨hw, hs⟩
    · exact hf.stands i v h

/-- A word that stands alone starts at a cell. -/
theorem Faithful.exists_split (hf : Faithful isWord words text c)
    (hcompat : Compatible isWord words text) (hw : w ∈ words) (hs : Stands isWord text w i) :
    ∃ d e, c = d ++ e ∧ (Marked.original d).length = i := by
  have hi := hs.lt
  rw [← hf.original] at hi
  obtain ⟨d, x, e, rfl, hd, hx⟩ := exists_cell hi
  change (Marked.original d).length ≤ i at hd
  change i < (Marked.original d).length + _ at hx
  refine ⟨d, x :: e, rfl, ?_⟩
  cases x with
  | kept a =>
    rw [Cell.original, List.length_singleton] at hx
    omega
  | replaced v =>
    obtain ⟨hv, hstands⟩ := hf.stands _ v (mem_occurrences.mpr ⟨d, e, rfl, rfl⟩)
    rw [Cell.original] at hx
    rcases hcompat.apart v hv w hw _ _ hstands hs hd with ⟨heq, _⟩ | hfar
    · exact heq
    · omega

section Rendered
variable (hnew : new ≠ []) (hcompat : Compatible isWord words text) (hw : w ∈ words)

include hcompat hw in
/-- What stands alone in the rendered text does so in the text that it comes from. -/
theorem Faithful.stands_of_rendered (hf : Faithful isWord words text (d ++ (kept w ++ e)))
    (he : (∀ a ∈ w, isWord a = true) ∨ ∀ v, Cell.replaced v ∉ e)
    (h : Stands isWord (rendered new (d ++ (kept w ++ e))) w (rendered new d).length) :
    Stands isWord text w (Marked.original d).length := by
  have htext : text = Marked.original d ++ (w ++ Marked.original e) :=
    hf.original.symm.trans original_between
  obtain ⟨hne, hleft, hright⟩ := (stands_iff rendered_between).mp h
  have hright' : Open isWord (Marked.original e).head? := by
    rcases open_head_original hright with hopen | ⟨v, e, rfl⟩
    · exact hopen
    · rcases he with hletters | hnone
      · -- The letter before the replaced word is the last one of `w`.
        obtain ⟨_, hs⟩ := hf.stands _ v (mem_occurrences.mpr
          ⟨d ++ kept w, e, by rw [List.append_assoc], rfl⟩)
        obtain ⟨w, x, rfl⟩ := (List.eq_nil_or_concat' w).resolve_left hne
        have hbefore :
            text = Marked.original (d ++ kept (w ++ [x])) ++ (v ++ Marked.original e) := by
          rw [htext, original_append, original_kept, original_replaced]
          exact (List.append_assoc _ _ _).symm
        have hopen := ((stands_iff hbefore).mp hs).2.1 x (by simp)
        rw [hletters x (by simp)] at hopen
        cases hopen
      · exact absurd List.mem_cons_self (hnone v)
  refine (stands_iff htext).mpr ⟨hne, ?_, hright'⟩
  rcases open_last_original hleft with hopen | ⟨d, v, rfl⟩
  · exact hopen
  · obtain ⟨hv, hs⟩ := hf.stands _ v (mem_occurrences.mpr
      ⟨d, kept w ++ e, by rw [List.append_assoc]; rfl, rfl⟩)
    have hbehind := hcompat.clear v hv w hw hne (Marked.original d) (Marked.original e)
      (by rw [htext]; simp [Marked.original, Cell.original]) hs hright'
    simpa [Marked.original, Cell.original] using hbehind

include hnew hcompat hw in
/-- What stands alone and is not replaced stands alone in the rendered text. -/
theorem Faithful.rendered_of_stands (hf : Faithful isWord words text (d ++ e))
    (hhead : Open isWord new.head?) (hlast : Open isWord new.getLast?)
    (hs : Stands isWord text w (Marked.original d).length)
    (hnot : ((Marked.original d).length, w) ∉ occurrences (d ++ e)) :
    ∃ e', e = kept w ++ e' ∧
      Stands isWord (rendered new (d ++ e)) w (rendered new d).length := by
  have htext : text = Marked.original d ++ Marked.original e := by rw [← hf.original]; simp
  obtain ⟨hne, b, a, heq, hlen, hb, ha⟩ := hs
  obtain ⟨rfl, hrest⟩ := List.append_inj (heq.symm.trans htext) hlen
  have hs : Stands isWord text w (Marked.original d).length := (stands_iff heq).mpr ⟨hne, hb, ha⟩
  have hfree : ∀ j v, (j, v) ∈ occurrences e → w.length ≤ j := by
    intro j v hj
    obtain ⟨e₁, e₂, rfl, rfl⟩ := mem_occurrences.mp hj
    have hmark : ((Marked.original (d ++ e₁)).length, v) ∈
        occurrences (d ++ (e₁ ++ .replaced v :: e₂)) :=
      mem_occurrences.mpr ⟨d ++ e₁, e₂, (List.append_assoc d e₁ _).symm, rfl⟩
    obtain ⟨hv, hstands⟩ := hf.stands _ v hmark
    rw [original_append, List.length_append] at hmark hstands
    rcases hcompat.apart w hw v hv _ _ hs hstands (Nat.le_add_right _ _) with ⟨hplace, rfl⟩ | hfar
    · exact absurd (hplace ▸ hmark) hnot
    · omega
  obtain ⟨e, rfl, rfl⟩ := kept_of_original hfree hrest
  refine ⟨e, rfl, (stands_iff rendered_between).mpr ⟨hne, ?_, ?_⟩⟩
  · exact open_last_rendered hnew hlast hb
  · exact open_head_rendered hnew hhead ha

end Rendered

theorem rendered_ne_nil (hnew : new ≠ []) (hc : c ≠ []) : rendered new c ≠ [] := by
  obtain ⟨x, c, rfl⟩ := List.exists_cons_of_ne_nil hc
  cases x with
  | kept a => exact List.cons_ne_nil _ _
  | replaced v => simp [hnew]

/-- A place of the rendered text lies in one cell. -/
theorem cell_unique (hnew : new ≠ []) {x y : Cell α} {d' e' : List (Cell α)}
    (h : d ++ x :: e = d' ++ y :: e') (hle : (rendered new d).length ≤ (rendered new d').length)
    (hlt : (rendered new d').length < (rendered new d).length + (x.rendered new).length) :
    x = y := by
  rcases List.append_eq_append_iff.mp h with ⟨t, rfl, ht⟩ | ⟨t, rfl, ht⟩
  · cases t with
    | nil => exact (List.cons.inj ht).1
    | cons z t =>
      obtain ⟨rfl, _⟩ := List.cons.inj ht
      have hcons : rendered new (x :: t) = x.rendered new ++ rendered new t := rfl
      rw [rendered_append, List.length_append, hcons, List.length_append] at hlt
      omega
  · cases t with
    | nil => exact (List.cons.inj ht).1.symm
    | cons z t =>
      have := List.length_pos_of_ne_nil (rendered_ne_nil hnew (List.cons_ne_nil z t))
      rw [rendered_append, List.length_append] at hle
      omega

theorem insertions_between : insertions new (d ++ (kept w ++ e)) =
    marks (Cell.rendered new) 0 d ++
      marks (Cell.rendered new) ((rendered new d).length + w.length) e := by
  have hkept : ((kept w).flatMap (Cell.rendered new)).length = w.length :=
    congrArg List.length rendered_kept
  rw [insertions, marks_append, marks_append, marks_kept, hkept, List.nil_append, Nat.zero_add]
  rfl

theorem insertions_replaced : insertions new (d ++ .replaced w :: e) =
    marks (Cell.rendered new) 0 d ++ ((rendered new d).length, w) ::
      marks (Cell.rendered new) ((rendered new d).length + new.length) e := by
  rw [insertions, marks_append, Nat.zero_add]
  rfl

theorem le_of_mem_front (h : (j, v) ∈ marks (Cell.rendered new) 0 d) :
    j ≤ (rendered new d).length := by
  obtain ⟨d, e, rfl, rfl⟩ := mem_marks.mp h
  rw [rendered_append, List.length_append, Nat.zero_add]
  exact Nat.le_add_right _ _

/-- What is inserted behind a place is inserted behind the letters that are kept there. -/
theorem add_le_of_mem_insertions (h : (j, v) ∈ insertions new (d ++ (kept w ++ e)))
    (hlt : (rendered new d).length < j) : (rendered new d).length + w.length ≤ j := by
  rw [insertions_between] at h
  rcases List.mem_append.mp h with h | h
  · exact absurd (le_of_mem_front h) (Nat.not_le.mpr hlt)
  · obtain ⟨e₁, e₂, rfl, rfl⟩ := mem_marks.mp h
    exact Nat.le_add_right _ _

/-- A further replaced word is inserted at its place, and what is behind it moves. -/
theorem mem_insertions_replaced (hw : w ≠ []) :
    (i, v) ∈ insertions new (d ++ .replaced w :: e) ↔ (i, v) = ((rendered new d).length, w) ∨
      ∃ j, (j, v) ∈ insertions new (d ++ (kept w ++ e)) ∧
        i = if (rendered new d).length < j then j + new.length - w.length else j := by
  have hpos := List.length_pos_of_ne_nil hw
  rw [insertions_between, insertions_replaced, List.mem_append, List.mem_cons, or_left_comm]
  refine or_congr_right ?_
  constructor
  · rintro (h | h)
    · exact ⟨i, List.mem_append_left _ h, (if_neg (Nat.not_lt.mpr (le_of_mem_front h))).symm⟩
    · obtain ⟨e₁, e₂, rfl, rfl⟩ := mem_marks.mp h
      refine ⟨_, List.mem_append_right _ (mem_marks.mpr ⟨e₁, e₂, rfl, rfl⟩), ?_⟩
      rw [if_pos (by omega)]
      omega
  · rintro ⟨j, hj, rfl⟩
    rcases List.mem_append.mp hj with hj | hj
    · rw [if_neg (Nat.not_lt.mpr (le_of_mem_front hj))]
      exact .inl hj
    · obtain ⟨e₁, e₂, rfl, rfl⟩ := mem_marks.mp hj
      refine .inr (mem_marks.mpr ⟨e₁, e₂, rfl, ?_⟩)
      rw [if_pos (by omega)]
      omega

/-- Each replaced word has only letters of words and ends where a word may end. -/
def Lettered (isWord : α → Bool) (c : List (Cell α)) : Prop :=
  ∀ d w e, c = d ++ .replaced w :: e →
    w ≠ [] ∧ (∀ a ∈ w, isWord a = true) ∧ Open isWord (original e).head?

theorem Lettered.tail {x : Cell α} (h : Lettered isWord (x :: c)) : Lettered isWord c :=
  fun d w e hc => h (x :: d) w e (by rw [hc, List.cons_append])

theorem Faithful.lettered (hf : Faithful isWord words text c)
    (hwords : ∀ w ∈ words, ∀ a ∈ w, isWord a = true) : Lettered isWord c := by
  rintro d w e rfl
  obtain ⟨hw, hs⟩ := hf.stands _ w (mem_occurrences.mpr ⟨d, e, rfl, rfl⟩)
  have htext : text = Marked.original d ++ (w ++ Marked.original e) := by
    rw [← hf.original, original_append, original_replaced]
  obtain ⟨hne, _, hopen⟩ := (stands_iff htext).mp hs
  exact ⟨hne, hwords w hw, hopen⟩

theorem length_le_of_append {a b : List α} (hv : ∀ x ∈ v, isWord x = true)
    (hopen : Open isWord b.head?) (h : v ++ a = w ++ b) : v.length ≤ w.length := by
  rcases List.append_eq_append_iff.mp h with ⟨t, rfl, _⟩ | ⟨t, rfl, rfl⟩
  · rw [List.length_append]
    exact Nat.le_add_right _ _
  · cases t with
    | nil => simp
    | cons x t =>
      have hx := hopen x rfl
      rw [hv x (by simp)] at hx
      cases hx

/-- What is inserted does not start like a word. -/
theorem not_both {p : α} {rest b₁ b₂ : List α} (hl : Lettered isWord (.replaced v :: c))
    (hhead : Open isWord (p :: rest).head?) (horiginal : a :: b₁ = v ++ original c)
    (hrendered : a :: b₂ = p :: rest ++ rendered (p :: rest) c) : False := by
  obtain ⟨hne, hletters, _⟩ := hl [] v c rfl
  obtain ⟨x, v, rfl⟩ := List.exists_cons_of_ne_nil hne
  obtain ⟨rfl, _⟩ := List.cons.inj horiginal
  obtain ⟨rfl, _⟩ := List.cons.inj hrendered
  have hx := hhead a rfl
  rw [hletters a List.mem_cons_self] at hx
  cases hx

/-- The two texts of cells determine the cells. -/
theorem eq_of_texts (hnew : new ≠ []) (hhead : Open isWord new.head?) (hc : Lettered isWord c)
    (hd : Lettered isWord d) (horiginal : original c = original d)
    (hrendered : rendered new c = rendered new d) : c = d := by
  obtain ⟨p, rest, rfl⟩ := List.exists_cons_of_ne_nil hnew
  induction c generalizing d with
  | nil =>
    rcases d with _ | ⟨y, d⟩
    · rfl
    · cases y <;> cases hrendered
  | cons x c ih =>
    rcases d with _ | ⟨y, d⟩
    · cases x <;> cases hrendered
    · cases x with
      | kept a =>
        cases y with
        | kept b =>
          obtain ⟨rfl, hor⟩ := List.cons.inj horiginal
          exact congrArg _ (ih hc.tail hd.tail hor (List.cons.inj hrendered).2)
        | replaced w => exact (not_both hd hhead horiginal hrendered).elim
      | replaced v =>
        cases y with
        | kept b => exact (not_both hc hhead horiginal.symm hrendered.symm).elim
        | replaced w =>
          obtain ⟨_, hv, hopen⟩ := hc [] v c rfl
          obtain ⟨_, hw, hopen'⟩ := hd [] w d rfl
          have hlen := Nat.le_antisymm (length_le_of_append hv hopen' horiginal)
            (length_le_of_append hw hopen horiginal.symm)
          obtain ⟨rfl, hor⟩ := List.append_inj horiginal hlen
          have hre := (List.append_right_inj (p :: rest)).mp hrendered
          exact congrArg _ (ih hc.tail hd.tail hor hre)

end Marked
