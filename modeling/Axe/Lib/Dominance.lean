import Mathlib.Data.Finset.Card
import Mathlib.Data.List.Nodup
import Mathlib.Data.Nat.Find
import Mathlib.Data.Set.Function
import Mathlib.Algebra.Order.Ring.Nat

/-!
# Dominance in a graph of edges

A node dominates another when it is on every path there from the root. The dominators of a
reachable node are in a line, so every one but the root has an immediate one, and to climb
from one immediate dominator to the next meets all of them.
-/
namespace Dominance

variable {α β : Type*}

/-- A path with the nodes on it, both ends included. -/
inductive Path (edges : List (α × α)) : α → α → List α → Prop
  | single (v : α) : Path edges v v [v]
  | cons {u v w : α} {p : List α} : (u, v) ∈ edges → Path edges v w p → Path edges u w (u :: p)

def Reachable (edges : List (α × α)) (u v : α) : Prop := ∃ p, Path edges u v p

def Dominates (edges : List (α × α)) (root a b : α) : Prop := ∀ p, Path edges root b p → a ∈ p

def Strictly (edges : List (α × α)) (root a b : α) : Prop := a ≠ b ∧ Dominates edges root a b

/-- The strict dominator that all others dominate. -/
def Immediately (edges : List (α × α)) (root d v : α) : Prop :=
  Strictly edges root d v ∧ ∀ a, Strictly edges root a v → Dominates edges root a d

/-- What an algorithm for dominators gives: an immediate dominator for the nodes that are
reached, apart from the root, and none for the others. -/
structure IsTree (edges : List (α × α)) (root : α) (idom : α → Option α) : Prop where
  none : ∀ v, v = root ∨ ¬ Reachable edges root v → idom v = none
  some : ∀ v, v ≠ root → Reachable edges root v →
    ∃ d, idom v = some d ∧ Immediately edges root d v

variable {edges : List (α × α)} {root a b c d u v w : α} {p q : List α}

section Paths

theorem Path.head_mem (h : Path edges u v p) : u ∈ p := by
  cases h <;> exact List.mem_cons_self

theorem Path.last_mem (h : Path edges u v p) : v ∈ p := by
  induction h with
  | single => exact List.mem_cons_self
  | cons _ _ ih => exact List.mem_cons_of_mem _ ih

theorem Path.append (h : Path edges u v p) (h' : Path edges v w (v :: q)) :
    Path edges u w (p ++ q) := by
  induction h with
  | single => exact h'
  | cons hedge _ ih => exact .cons hedge (ih h')

theorem Path.snoc (h : Path edges u v p) (hedge : (v, w) ∈ edges) :
    Path edges u w (p ++ [w]) :=
  h.append (.cons hedge (.single w))

/-- A path is cut in two at each of its nodes. -/
theorem Path.split {first second : List α} (h : Path edges u v (first ++ a :: second)) :
    Path edges u a (first ++ [a]) ∧ Path edges a v (a :: second) := by
  induction first generalizing u with
  | nil =>
    cases h with
    | single => exact ⟨.single _, .single _⟩
    | cons hedge hrest => exact ⟨.single _, .cons hedge hrest⟩
  | cons x first ih =>
    rw [List.cons_append] at h
    generalize hrest : first ++ a :: second = rest at h
    cases h with
    | single => simp at hrest
    | cons hedge htail =>
      subst hrest
      obtain ⟨hfirst, hsecond⟩ := ih htail
      exact ⟨.cons hedge hfirst, hsecond⟩

theorem Path.reach (h : Path edges u v p) (ha : a ∈ p) : Reachable edges u a := by
  obtain ⟨first, second, rfl⟩ := List.append_of_mem ha
  exact ⟨_, h.split.1⟩

def Shortest (edges : List (α × α)) (u v : α) (p : List α) : Prop :=
  Path edges u v p ∧ ∀ q, Path edges u v q → p.length ≤ q.length

theorem exists_shortest (h : Reachable edges u v) : ∃ p, Shortest edges u v p := by
  classical
  have hlength : ∃ n p, Path edges u v p ∧ p.length = n := by
    obtain ⟨p, hp⟩ := h
    exact ⟨p.length, p, hp, rfl⟩
  obtain ⟨p, hp, hn⟩ := Nat.find_spec hlength
  exact ⟨p, hp, fun q hq => hn ▸ Nat.find_min' hlength ⟨q, hq, rfl⟩⟩

/-- A shortest path meets no node twice. -/
theorem Shortest.not_mem {first second : List α} (h : Shortest edges u v (first ++ a :: second)) :
    a ∉ first ∧ a ∉ second := by
  obtain ⟨hpath, hle⟩ := h
  obtain ⟨hfirst, hsecond⟩ := hpath.split
  constructor
  · intro hmem
    obtain ⟨l, m, rfl⟩ := List.append_of_mem hmem
    rw [List.append_assoc, List.cons_append] at hpath
    have hcut := hle _ (hpath.split.1.append hsecond)
    simp only [List.length_append, List.length_cons, List.length_nil] at hcut
    omega
  · intro hmem
    obtain ⟨l, m, rfl⟩ := List.append_of_mem hmem
    have hrest : Path edges a v (a :: (l ++ a :: m)) := hsecond
    rw [← List.cons_append] at hrest
    have hcut := hle _ (hfirst.append hrest.split.2)
    simp only [List.length_append, List.length_cons, List.length_nil] at hcut
    omega

end Paths

section Order

theorem dominates_refl : Dominates edges root a a := fun _ h => h.last_mem

theorem Dominates.trans (hab : Dominates edges root a b) (hbc : Dominates edges root b c) :
    Dominates edges root a c := by
  intro p hp
  obtain ⟨first, second, rfl⟩ := List.append_of_mem (hbc p hp)
  have ha := hab _ hp.split.1
  grind

theorem Dominates.antisymm (hreach : Reachable edges root b) (hab : Dominates edges root a b)
    (hba : Dominates edges root b a) : a = b := by
  obtain ⟨p, hp⟩ := exists_shortest hreach
  obtain ⟨first, second, rfl⟩ := List.append_of_mem (hab p hp.1)
  by_contra hne
  have hb : b ∈ first := by
    have hmem := hba _ hp.1.split.1
    rw [List.mem_append, List.mem_singleton] at hmem
    exact hmem.resolve_right (Ne.symm hne)
  obtain ⟨l, m, rfl⟩ := List.append_of_mem hb
  -- the path would end at `b` before it does
  have hpath := hp.1
  rw [List.append_assoc, List.cons_append] at hpath
  have hle := hp.2 _ hpath.split.1
  simp at hle

/-- Two dominators of a node are in a line. -/
theorem dominates_total (hreach : Reachable edges root v) (ha : Dominates edges root a v)
    (hb : Dominates edges root b v) :
    Dominates edges root a b ∨ Dominates edges root b a := by
  obtain ⟨p, hp⟩ := exists_shortest hreach
  -- the node that comes second can be reached past the first, and the end from there
  have hlater : ∀ {x y : α} {first middle last : List α},
      p = first ++ x :: (middle ++ y :: last) → Dominates edges root x v →
      Dominates edges root x y := by
    rintro x y first middle last rfl hx q hq
    have hrest : Path edges x v (x :: middle ++ y :: last) := hp.1.split.2
    have hmem := hx _ (hq.append hrest.split.2)
    have hnot := hp.not_mem.2
    grind
  obtain ⟨first, second, heq⟩ := List.append_of_mem (ha p hp.1)
  have hbmem := hb p hp.1
  rw [heq, List.mem_append, List.mem_cons] at hbmem
  rcases hbmem with hb' | rfl | hb'
  · obtain ⟨l, m, rfl⟩ := List.append_of_mem hb'
    have heq' : p = l ++ b :: (m ++ a :: second) := by
      rw [heq, List.append_assoc, List.cons_append]
    exact .inr (hlater heq' hb)
  · exact .inl dominates_refl
  · obtain ⟨l, m, rfl⟩ := List.append_of_mem hb'
    exact .inl (hlater heq ha)

theorem exists_last {P : α → Prop} {l : List α} (h : ∃ x ∈ l, P x) :
    ∃ first x last, l = first ++ x :: last ∧ P x ∧ ∀ y ∈ last, ¬ P y := by
  induction l with
  | nil =>
    obtain ⟨x, hx, -⟩ := h
    exact absurd hx List.not_mem_nil
  | cons x rest ih =>
    by_cases hrest : ∃ y ∈ rest, P y
    · obtain ⟨first, y, last, rfl, hy, hlast⟩ := ih hrest
      exact ⟨x :: first, y, last, rfl, hy, hlast⟩
    · obtain ⟨y, hy, hP⟩ := h
      rcases List.mem_cons.mp hy with rfl | hy
      · exact ⟨[], y, rest, rfl, hP, fun z hz hPz => hrest ⟨z, hz, hPz⟩⟩
      · exact absurd ⟨y, hy, hP⟩ hrest

/-- Every node that is reached, apart from the root, has an immediate dominator: the last
strict dominator on a shortest path. -/
theorem exists_immediately (hreach : Reachable edges root v) (hne : v ≠ root) :
    ∃ d, Immediately edges root d v := by
  obtain ⟨p, hp⟩ := exists_shortest hreach
  have hroot : Strictly edges root root v := ⟨Ne.symm hne, fun q hq => hq.head_mem⟩
  obtain ⟨first, d, last, rfl, hd, hlast⟩ :=
    exists_last (P := fun x => Strictly edges root x v) ⟨root, hp.1.head_mem, hroot⟩
  refine ⟨d, hd, fun a ha => ?_⟩
  rcases dominates_total hreach ha.2 hd.2 with hle | hge
  · exact hle
  · have hmem := ha.2 _ hp.1
    rw [List.mem_append, List.mem_cons] at hmem
    rcases hmem with hmem | rfl | hmem
    · obtain ⟨l, m, rfl⟩ := List.append_of_mem hmem
      have hpath := hp.1
      rw [List.append_assoc, List.cons_append] at hpath
      have hin := hge _ hpath.split.1
      have hnot := hp.not_mem.1
      grind
    · exact dominates_refl
    · exact absurd ha (hlast a hmem)

/-- There is one immediate dominator at most. -/
theorem Immediately.unique (hreach : Reachable edges root v) (h : Immediately edges root c v)
    (h' : Immediately edges root d v) : c = d := by
  obtain ⟨p, hp⟩ := hreach
  have hd := hp.reach (h'.1.2 p hp)
  exact Dominates.antisymm hd (h'.2 c h.1) (h.2 d h'.1)

end Order

section Climb

/-- Whether a node is met on the way up from another. -/
def climb [DecidableEq α] (idom : α → Option α) (a : α) : Nat → Option α → Bool
  | _, none => false
  | 0, some _ => false
  | n + 1, some d => d = a || climb idom a n (idom d)

theorem strictly_trans (hreach : Reachable edges root v) (had : Strictly edges root a d)
    (hdv : Strictly edges root d v) : Strictly edges root a v := by
  refine ⟨?_, had.2.trans hdv.2⟩
  rintro rfl
  exact hdv.1 (Dominates.antisymm hreach hdv.2 had.2)

theorem Strictly.reachable (hreach : Reachable edges root v) (h : Strictly edges root a v) :
    Reachable edges root a := by
  obtain ⟨p, hp⟩ := hreach
  exact hp.reach (h.2 p hp)

/-- The way up from a node meets its strict dominators, given fuel for all of these. -/
theorem climb_iff [DecidableEq α] {idom : α → Option α} (htree : IsTree edges root idom) (n : Nat)
    (hreach : Reachable edges root v)
    (hn : ∀ s : Finset α, (∀ x ∈ s, Strictly edges root x v) → s.card ≤ n) :
    climb idom a n (idom v) ↔ Strictly edges root a v := by
  induction n generalizing v with
  | zero =>
    have hnone : ∀ x, ¬ Strictly edges root x v := fun x hx => by
      have hcard := hn {x} fun y hy => Finset.mem_singleton.mp hy ▸ hx
      rw [Finset.card_singleton] at hcard
      omega
    cases idom v <;> simp [climb, hnone a]
  | succ n ih =>
    by_cases hroot : v = root
    · rw [htree.none v (.inl hroot), climb]
      refine iff_of_false Bool.false_ne_true fun ha => ha.1 ?_
      subst hroot
      exact List.mem_singleton.mp (ha.2 _ (.single v))
    · obtain ⟨d, hd, hstrict, himmediate⟩ := htree.some v hroot hreach
      have hdreach := hstrict.reachable hreach
      have hfuel : ∀ s : Finset α, (∀ x ∈ s, Strictly edges root x d) → s.card ≤ n := by
        intro s hs
        have hnot : d ∉ s := fun hmem => (hs d hmem).1 rfl
        have hcard := hn (insert d s) fun x hx => by
          rcases Finset.mem_insert.mp hx with rfl | hx
          · exact hstrict
          · exact strictly_trans hreach (hs x hx) hstrict
        rw [Finset.card_insert_of_notMem hnot] at hcard
        omega
      rw [hd, climb, Bool.or_eq_true, decide_eq_true_eq, ih hdreach hfuel]
      constructor
      · rintro (rfl | ha)
        · exact hstrict
        · exact strictly_trans hreach ha hstrict
      · intro ha
        by_cases heq : d = a
        · exact .inl heq
        · exact .inr ⟨Ne.symm heq, himmediate a ha⟩

end Climb

/-- The tree, by choice. -/
noncomputable def idomOf (edges : List (α × α)) (root v : α) : Option α :=
  open Classical in
  if h : v ≠ root ∧ Reachable edges root v then some (exists_immediately h.2 h.1).choose else none

theorem isTree_idomOf (edges : List (α × α)) (root : α) :
    IsTree edges root (idomOf edges root) where
  none := by
    intro v hv
    rw [idomOf, dif_neg]
    rintro ⟨hne, hreach⟩
    exact hv.elim hne fun h => h hreach
  some := by
    intro v hne hreach
    rw [idomOf, dif_pos ⟨hne, hreach⟩]
    exact ⟨_, rfl, (exists_immediately hreach hne).choose_spec⟩

section Maps
variable {f : α → β} {nodes : Set α}

theorem Path.map (f : α → β) (h : Path edges u v p) :
    Path (edges.map fun e => (f e.1, f e.2)) (f u) (f v) (p.map f) := by
  induction h with
  | single v => exact .single (f v)
  | cons hedge _ ih => exact .cons (List.mem_map.mpr ⟨_, hedge, rfl⟩) ih

/-- Where nodes are named apart, a path of names is the names of a path. -/
theorem Path.of_map (hf : Set.InjOn f nodes)
    (hedges : ∀ e ∈ edges, e.1 ∈ nodes ∧ e.2 ∈ nodes) (hu : u ∈ nodes) {x y : β} {q : List β}
    (h : Path (edges.map fun e => (f e.1, f e.2)) x y q) (hx : x = f u) :
    ∃ v p, v ∈ nodes ∧ y = f v ∧ q = p.map f ∧ Path edges u v p := by
  induction h generalizing u with
  | single => exact ⟨u, [u], hu, hx, by rw [hx]; rfl, .single u⟩
  | cons hedge _ ih =>
    obtain ⟨⟨s, t⟩, hmem, heq⟩ := List.mem_map.mp hedge
    obtain ⟨rfl, rfl⟩ := Prod.mk.inj heq
    obtain ⟨hs, ht⟩ := hedges _ hmem
    cases hf hs hu hx
    obtain ⟨v, p, hv, hy, hq, hpath⟩ := ih ht rfl
    exact ⟨v, s :: p, hv, hy, by rw [hq]; rfl, .cons hmem hpath⟩

theorem Path.mem_nodes (hedges : ∀ e ∈ edges, e.1 ∈ nodes ∧ e.2 ∈ nodes) (hu : u ∈ nodes)
    (h : Path edges u v p) : ∀ x ∈ p, x ∈ nodes := by
  induction h with
  | single => exact fun x hx => List.mem_singleton.mp hx ▸ hu
  | cons hedge _ ih => exact List.forall_mem_cons.mpr ⟨hu, ih (hedges _ hedge).2⟩

theorem dominates_map (hf : Set.InjOn f nodes)
    (hedges : ∀ e ∈ edges, e.1 ∈ nodes ∧ e.2 ∈ nodes) (hroot : root ∈ nodes) (ha : a ∈ nodes)
    (hb : b ∈ nodes) :
    Dominates (edges.map fun e => (f e.1, f e.2)) (f root) (f a) (f b) ↔
      Dominates edges root a b := by
  constructor
  · intro h p hp
    obtain ⟨x, hx, heq⟩ := List.mem_map.mp (h _ (hp.map f))
    exact hf (hp.mem_nodes hedges hroot x hx) ha heq ▸ hx
  · intro h q hq
    obtain ⟨v, p, hv, heq, rfl, hpath⟩ := hq.of_map hf hedges hroot rfl
    cases hf hb hv heq
    exact List.mem_map.mpr ⟨a, h p hpath, rfl⟩

theorem reachable_map (hf : Set.InjOn f nodes)
    (hedges : ∀ e ∈ edges, e.1 ∈ nodes ∧ e.2 ∈ nodes) (hroot : root ∈ nodes) (hb : b ∈ nodes) :
    Reachable (edges.map fun e => (f e.1, f e.2)) (f root) (f b) ↔ Reachable edges root b := by
  constructor
  · rintro ⟨q, hq⟩
    obtain ⟨v, p, hv, heq, -, hpath⟩ := hq.of_map hf hedges hroot rfl
    cases hf hb hv heq
    exact ⟨p, hpath⟩
  · rintro ⟨p, hp⟩
    exact ⟨_, hp.map f⟩

theorem Path.reverse (h : Path edges u v p) : Path (edges.map Prod.swap) v u p.reverse := by
  induction h with
  | single v => exact .single v
  | cons hedge _ ih =>
    rw [List.reverse_cons]
    exact ih.snoc (List.mem_map.mpr ⟨_, hedge, rfl⟩)

theorem path_swap_iff : Path (edges.map Prod.swap) v u p ↔ Path edges u v p.reverse := by
  constructor
  · intro h
    have hback := h.reverse
    rwa [List.map_map, Prod.swap_swap_eq, List.map_id] at hback
  · intro h
    have hback := h.reverse
    rwa [List.reverse_reverse] at hback

end Maps

end Dominance
