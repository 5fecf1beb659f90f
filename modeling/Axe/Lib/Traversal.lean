import Mathlib.Data.List.Count
import Mathlib.Logic.Relation

/-!
# A stack search over a list of edges

The search pops a node, skips it if it was seen, and pushes its successors otherwise.
With as much fuel as there are edges, and one more, it sees just what can be reached.
-/
namespace Traversal

variable {α : Type*} [DecidableEq α]

def successors (edges : List (α × α)) (n : α) : List α :=
  edges.filterMap fun e => if e.1 = n then some e.2 else none

/-- The nodes in the order in which they are first popped, after those seen before. -/
def search (edges : List (α × α)) : Nat → List α → List α → List α
  | 0, _, seen => seen
  | _ + 1, [], seen => seen
  | fuel + 1, n :: stack, seen =>
    if n ∈ seen then search edges fuel stack seen
    else search edges fuel ((successors edges n).reverse ++ stack) (seen ++ [n])

def Reaches (edges : List (α × α)) : α → α → Prop :=
  Relation.ReflTransGen fun a b => (a, b) ∈ edges

variable {edges : List (α × α)} {fuel : Nat} {stack seen : List α} {a b n : α}

theorem mem_successors : b ∈ successors edges a ↔ (a, b) ∈ edges := by
  simp only [successors, List.mem_filterMap, Option.ite_none_right_eq_some, Option.some.injEq]
  constructor
  · rintro ⟨⟨x, y⟩, hmem, rfl, rfl⟩
    exact hmem
  · intro h
    exact ⟨(a, b), h, rfl, rfl⟩

theorem length_successors :
    (successors edges n).length = edges.countP (fun e => e.1 = n) := by
  rw [successors, List.length_filterMap_eq_countP]
  congr 1
  funext e
  by_cases h : e.1 = n <;> simp [h]

theorem successors_append (first second : List (α × α)) :
    successors (first ++ second) n = successors first n ++ successors second n :=
  List.filterMap_append

theorem successors_reverse : successors edges.reverse n = (successors edges n).reverse := by
  rw [successors, successors, List.filterMap_reverse]

/-- Of the edges inside a set of nodes, a node of the set keeps those that stay there. -/
theorem successors_filter {p : α → Bool} (hn : p n) :
    successors (edges.filter fun e => p e.1 && p e.2) n = (successors edges n).filter p := by
  induction edges with
  | nil => rfl
  | cons e rest ih =>
    rw [successors, successors] at ih ⊢
    by_cases hfrom : e.1 = n
    · cases hto : p e.2 <;> simp [hfrom, hn, hto, ih]
    · cases hp : p e.1 && p e.2 <;> simp [hfrom, hp, ih]

/-- The edges whose pushes are still to come. -/
def pending (edges : List (α × α)) (seen : List α) : Nat := edges.countP fun e => e.1 ∉ seen

theorem pending_append (h : n ∉ seen) :
    pending edges (seen ++ [n]) + (successors edges n).length = pending edges seen := by
  rw [length_successors, pending, pending]
  induction edges with
  | nil => rfl
  | cons e rest ih =>
    simp only [List.mem_append, List.mem_singleton, List.countP_cons] at ih ⊢
    by_cases he : e.1 = n
    · simp only [he, h, or_true, not_true_eq_false, not_false_eq_true, decide_true, decide_false,
        if_true, Bool.false_eq_true, if_false]
      omega
    · simp only [he, or_false, decide_false, Bool.false_eq_true, if_false]
      omega

/-- What a search has seen is what it had seen, and nodes that its stack reaches. -/
theorem search_sound (h : n ∈ search edges fuel stack seen) :
    n ∈ seen ∨ ∃ a ∈ stack, Reaches edges a n := by
  induction fuel generalizing stack seen with
  | zero => exact .inl h
  | succ fuel ih =>
    cases stack with
    | nil => exact .inl h
    | cons m stack =>
      rw [search] at h
      split at h
      · rcases ih h with hseen | ⟨a, ha, hreach⟩
        · exact .inl hseen
        · exact .inr ⟨a, List.mem_cons_of_mem _ ha, hreach⟩
      · rcases ih h with hseen | ⟨a, ha, hreach⟩
        · rcases List.mem_append.mp hseen with hseen | hm
          · exact .inl hseen
          · cases List.mem_singleton.mp hm
            exact .inr ⟨n, List.mem_cons_self, .refl⟩
        · rcases List.mem_append.mp ha with hnext | hstack
          · have hedge := mem_successors.mp (List.mem_reverse.mp hnext)
            exact .inr ⟨m, List.mem_cons_self, .head hedge hreach⟩
          · exact .inr ⟨a, List.mem_cons_of_mem _ hstack, hreach⟩

/-- Whatever was seen has its successors seen or on the stack. -/
def Closed (edges : List (α × α)) (stack seen : List α) : Prop :=
  ∀ a ∈ seen, ∀ b, (a, b) ∈ edges → b ∈ seen ∨ b ∈ stack

/-- With enough fuel a search ends with a set that the edges do not leave. -/
theorem search_complete (hfuel : stack.length + pending edges seen ≤ fuel)
    (hclosed : Closed edges stack seen) :
    (∀ a ∈ stack, a ∈ search edges fuel stack seen) ∧
      (∀ a ∈ seen, a ∈ search edges fuel stack seen) ∧
      Closed edges [] (search edges fuel stack seen) := by
  induction fuel generalizing stack seen with
  | zero =>
    cases stack with
    | nil => exact ⟨fun _ h => absurd h List.not_mem_nil, fun _ h => h, hclosed⟩
    | cons m stack =>
      rw [List.length_cons] at hfuel
      omega
  | succ fuel ih =>
    cases stack with
    | nil => exact ⟨fun _ h => absurd h List.not_mem_nil, fun _ h => h, hclosed⟩
    | cons m stack =>
      rw [List.length_cons] at hfuel
      rw [search]
      split
      · rename_i hm
        have hrest : Closed edges stack seen := by
          intro a ha b hb
          rcases hclosed a ha b hb with h | h
          · exact .inl h
          · rcases List.mem_cons.mp h with rfl | h
            · exact .inl hm
            · exact .inr h
        obtain ⟨hstack, hseen, hend⟩ := ih (by omega) hrest
        refine ⟨fun a ha => ?_, hseen, hend⟩
        rcases List.mem_cons.mp ha with rfl | ha
        · exact hseen _ hm
        · exact hstack _ ha
      · rename_i hm
        have hpending : pending edges (seen ++ [m]) + _ = pending edges seen := pending_append hm
        have hrest : Closed edges ((successors edges m).reverse ++ stack) (seen ++ [m]) := by
          intro a ha b hb
          rcases List.mem_append.mp ha with ha | ha
          · rcases hclosed a ha b hb with h | h
            · exact .inl (List.mem_append_left _ h)
            · rcases List.mem_cons.mp h with rfl | h
              · exact .inl (List.mem_append_right _ (List.mem_singleton_self _))
              · exact .inr (List.mem_append_right _ h)
          · cases List.mem_singleton.mp ha
            exact .inr (List.mem_append_left _ (List.mem_reverse.mpr (mem_successors.mpr hb)))
        obtain ⟨hstack, hseen, hend⟩ :=
          ih (by rw [List.length_append, List.length_reverse]; omega) hrest
        refine ⟨fun a ha => ?_, fun a ha => hseen _ (List.mem_append_left _ ha), hend⟩
        rcases List.mem_cons.mp ha with rfl | ha
        · exact hseen _ (List.mem_append_right _ (List.mem_singleton_self _))
        · exact hstack _ (List.mem_append_right _ ha)

/-- A search from a node sees just what the node reaches. -/
theorem mem_search_iff : n ∈ search edges (edges.length + 1) [a] [] ↔ Reaches edges a n := by
  constructor
  · intro h
    rcases search_sound h with h | ⟨b, hb, hreach⟩
    · exact absurd h List.not_mem_nil
    · cases List.mem_singleton.mp hb
      exact hreach
  · have hle : pending edges ([] : List α) ≤ edges.length := List.countP_le_length
    have hfuel : [a].length + pending edges [] ≤ edges.length + 1 := by
      rw [List.length_singleton]
      omega
    obtain ⟨hstack, -, hclosed⟩ := search_complete hfuel fun _ h => absurd h List.not_mem_nil
    intro h
    induction h with
    | refl => exact hstack _ (List.mem_singleton_self _)
    | tail _ hedge ih =>
      rcases hclosed _ ih _ hedge with h | h
      · exact h
      · exact absurd h List.not_mem_nil

end Traversal
