import Mathlib.Logic.Function.Basic

/-!
# Traps and their journal

A trap overwrites a place, and a note of the value that was there is taken or lost. Putting the
notes back from the last to the first leaves a trap where the note of the first one was lost.
From the first to the last a trap also stays where a note was taken of a trap.
-/
namespace Journal

variable {α β : Type} [DecidableEq α] {trap : β} {store : α → β} {notes : List (α × β)}
  {laid : List (α × Bool)} {a place : α} {noted : Bool} {value : β}

/-- The places after traps were laid, and the notes that were taken. -/
def lay (trap : β) : (α → β) → List (α × Bool) → (α → β) × List (α × β)
  | store, [] => (store, [])
  | store, (place, noted) :: laid =>
    let after := lay trap (Function.update store place trap) laid
    (after.1, if noted then (place, store place) :: after.2 else after.2)

def putBack (store : α → β) (notes : List (α × β)) : α → β :=
  notes.foldl (fun store note => Function.update store note.1 note.2) store

/-- Which of the traps of a place have a note. -/
def notesAt (laid : List (α × Bool)) (a : α) : List Bool :=
  (laid.filter (·.1 = a)).map Prod.snd

theorem lay_noted : lay trap store ((place, true) :: laid) =
    ((lay trap (Function.update store place trap) laid).1,
      (place, store place) :: (lay trap (Function.update store place trap) laid).2) := rfl

theorem lay_lost : lay trap store ((place, false) :: laid) =
    lay trap (Function.update store place trap) laid := rfl

theorem notesAt_self : notesAt ((a, noted) :: laid) a = noted :: notesAt laid a := by
  rw [notesAt, List.filter_cons_of_pos (by simp), List.map_cons, notesAt]

theorem notesAt_of_ne (h : place ≠ a) : notesAt ((place, noted) :: laid) a = notesAt laid a := by
  rw [notesAt, List.filter_cons_of_neg (by simpa using h), notesAt]

theorem putBack_cons (note : α × β) :
    putBack store (note :: notes) = putBack (Function.update store note.1 note.2) notes := rfl

theorem putBack_concat (note : α × β) :
    putBack store (notes ++ [note]) = Function.update (putBack store notes) note.1 note.2 := by
  rw [putBack, List.foldl_append, ← putBack]
  rfl

theorem putBack_of_not_mem (h : ∀ v, (a, v) ∉ notes) : putBack store notes a = store a := by
  induction notes generalizing store with
  | nil => rfl
  | cons note notes ih =>
    have hne : a ≠ note.1 := fun heq => h note.2 (heq ▸ List.mem_cons_self)
    rw [putBack_cons, ih fun v hv => h v (List.mem_cons_of_mem _ hv), Function.update_of_ne hne]

theorem putBack_congr {s s' : α → β} (h : s a = s' a) :
    putBack s notes a = putBack s' notes a := by
  induction notes generalizing s s' with
  | nil => exact h
  | cons note notes ih =>
    rw [putBack_cons, putBack_cons]
    refine ih ?_
    by_cases heq : a = note.1
    · rw [heq, Function.update_self, Function.update_self]
    · rw [Function.update_of_ne heq, Function.update_of_ne heq, h]

/-- The value that is put back last is one of those noted. -/
theorem putBack_of_mem (h : (a, value) ∈ notes) :
    ∃ v, (a, v) ∈ notes ∧ putBack store notes a = v := by
  induction notes generalizing store value with
  | nil => cases h
  | cons note notes ih =>
    by_cases hlater : ∃ v, (a, v) ∈ notes
    · obtain ⟨v, hv⟩ := hlater
      obtain ⟨v, hv, hput⟩ := @ih (Function.update store note.1 note.2) _ hv
      exact ⟨v, List.mem_cons_of_mem _ hv, hput⟩
    · rcases List.mem_cons.mp h with rfl | h
      · refine ⟨value, List.mem_cons_self, ?_⟩
        rw [putBack_cons, putBack_of_not_mem fun v hv => hlater ⟨v, hv⟩]
        exact Function.update_self ..
      · exact absurd ⟨value, h⟩ hlater

theorem exists_note_iff : (∃ v, (a, v) ∈ (lay trap store laid).2) ↔ true ∈ notesAt laid a := by
  induction laid generalizing store with
  | nil => exact ⟨fun ⟨v, hv⟩ => absurd hv List.not_mem_nil, fun h => absurd h List.not_mem_nil⟩
  | cons head laid ih =>
    obtain ⟨place, noted⟩ := head
    by_cases hp : place = a
    · subst hp
      rw [notesAt_self, List.mem_cons]
      cases noted with
      | true => exact ⟨fun _ => .inl rfl, fun _ => ⟨store place, List.mem_cons_self⟩⟩
      | false => exact ih.trans (by simp)
    · rw [notesAt_of_ne hp, ← @ih (Function.update store place trap)]
      cases noted with
      | true =>
        refine exists_congr fun v => ?_
        rw [lay_noted, List.mem_cons, or_iff_right]
        exact fun heq => hp (congrArg Prod.fst heq).symm
      | false => rfl

/-- A place that holds a trap keeps it, and its notes say so. -/
theorem lay_trapped (ha : store a = trap) :
    (lay trap store laid).1 a = trap ∧ ∀ v, (a, v) ∈ (lay trap store laid).2 → v = trap := by
  induction laid generalizing store with
  | nil => exact ⟨ha, fun v hv => absurd hv List.not_mem_nil⟩
  | cons head laid ih =>
    obtain ⟨place, noted⟩ := head
    have hkept : Function.update store place trap a = trap := by
      by_cases hp : a = place
      · rw [hp, Function.update_self]
      · rw [Function.update_of_ne hp, ha]
    obtain ⟨hstore, hnotes⟩ := ih hkept
    cases noted with
    | true =>
      refine ⟨hstore, fun v hv => ?_⟩
      rcases List.mem_cons.mp hv with heq | hv
      · obtain ⟨rfl, rfl⟩ := Prod.mk.inj heq
        exact ha
      · exact hnotes v hv
    | false => exact ⟨hstore, hnotes⟩

/-- From the last note to the first. -/
theorem putBack_reverse :
    putBack (lay trap store laid).1 (lay trap store laid).2.reverse a =
      if (notesAt laid a).head? = some false then trap else store a := by
  induction laid generalizing store with
  | nil => rfl
  | cons head laid ih =>
    obtain ⟨place, noted⟩ := head
    have hrest := @ih (Function.update store place trap)
    by_cases hp : place = a
    · subst hp
      rw [notesAt_self, List.head?_cons]
      cases noted with
      | true =>
        rw [if_neg (by decide), lay_noted, List.reverse_cons, putBack_concat]
        exact Function.update_self ..
      | false =>
        rw [if_pos rfl, lay_lost]
        rwa [Function.update_self, ite_self] at hrest
    · rw [notesAt_of_ne hp]
      rw [Function.update_of_ne (Ne.symm hp)] at hrest
      cases noted with
      | true =>
        rw [lay_noted, List.reverse_cons, putBack_concat]
        exact (Function.update_of_ne (Ne.symm hp) ..).trans hrest
      | false =>
        rw [lay_lost]
        exact hrest

/-- The later notes of a place that holds a trap leave the trap, or the value put back first. -/
theorem putBack_trapped (ha : store a = trap) (s : α → β) :
    putBack s (lay trap store laid).2 a = if true ∈ notesAt laid a then trap else s a := by
  split
  · rename_i h
    obtain ⟨v, hv⟩ := exists_note_iff.mpr h
    obtain ⟨v, hv, hput⟩ := putBack_of_mem hv
    rw [hput, (lay_trapped ha).2 v hv]
  · rename_i h
    exact putBack_of_not_mem fun v hv => h (exists_note_iff.mp ⟨v, hv⟩)

/-- From the first note to the last. -/
theorem putBack_inOrder :
    putBack (lay trap store laid).1 (lay trap store laid).2 a =
      if (notesAt laid a).head? = some false ∨ true ∈ (notesAt laid a).tail then trap
      else store a := by
  induction laid generalizing store with
  | nil => rfl
  | cons head laid ih =>
    obtain ⟨place, noted⟩ := head
    by_cases hp : place = a
    · subst hp
      have htrapped : Function.update store place trap place = trap := Function.update_self ..
      rw [notesAt_self, List.head?_cons, List.tail_cons]
      cases noted with
      | true =>
        rw [lay_noted, putBack_cons, putBack_trapped htrapped, Function.update_self]
        simp
      | false =>
        rw [lay_lost, putBack_trapped htrapped, (lay_trapped htrapped).1, ite_self,
          if_pos (.inl rfl)]
    · rw [notesAt_of_ne hp]
      have hrest := @ih (Function.update store place trap)
      rw [Function.update_of_ne (Ne.symm hp)] at hrest
      cases noted with
      | true =>
        rw [lay_noted, putBack_cons]
        exact (putBack_congr (Function.update_of_ne (Ne.symm hp) ..)).trans hrest
      | false =>
        rw [lay_lost]
        exact hrest

end Journal
