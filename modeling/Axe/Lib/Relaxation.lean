import Mathlib.Order.Bounds.Basic
import Mathlib.Logic.Function.Basic
import Mathlib.Algebra.BigOperators.Group.List.Basic
import Mathlib.Algebra.Order.BigOperators.Group.List
import Mathlib.Algebra.Order.Ring.Nat

/-!
# Shortest distances by relaxation

A search that corrects its labels: a node whose distance gets smaller goes to the end of the queue
again, and distances above a cap are not taken. At the end every distance is the least weight
of a walk, since a node that is not in the queue has relaxed its edges.
-/
namespace Relaxation

/-- Weighted edges to finitely many nodes. -/
structure Graph (ν : Type) where
  next : ν → List (ν × Nat)
  nodes : List ν
  closed : ∀ u e, e ∈ next u → e.1 ∈ nodes

structure State (ν : Type) where
  dist : ν → Option Nat
  queue : List ν

/-- The weights of the walks between two nodes. -/
inductive Walk {ν : Type} (g : Graph ν) (start : ν) : ν → Nat → Prop
  | refl : Walk g start start 0
  | step {u : ν} {w : Nat} (e : ν × Nat) (h : Walk g start u w) (he : e ∈ g.next u) :
      Walk g start e.1 (w + e.2)

variable {ν : Type} [DecidableEq ν] {g : Graph ν} {cap : Nat} {s : State ν} {start u v : ν}

def better (existing : Option Nat) (new : Nat) : Prop := ∀ d, existing = some d → new < d

instance decidableBetter (existing : Option Nat) (new : Nat) : Decidable (better existing new) :=
  match existing with
  | none => isTrue fun _ h => nomatch h
  | some d =>
    if h : new < d then isTrue fun _ hd => Option.some.inj hd ▸ h
    else isFalse fun hall => h (hall d rfl)

/-- A node gets a distance and goes to the end of the queue. -/
def State.label (s : State ν) (v : ν) (d : Nat) : State ν :=
  ⟨Function.update s.dist v (some d), s.queue ++ [v]⟩

theorem dist_label_self (v : ν) (d : Nat) : (s.label v d).dist v = some d :=
  Function.update_self _ _ _

theorem dist_label_ne (h : u ≠ v) (d : Nat) : (s.label v d).dist u = s.dist u :=
  Function.update_of_ne h _ _

theorem mem_queue_label {d : Nat} : u ∈ (s.label v d).queue ↔ u ∈ s.queue ∨ u = v :=
  List.mem_append.trans (or_congr_right List.mem_singleton)

def relax (cap current : Nat) (s : State ν) (e : ν × Nat) : State ν :=
  if current + e.2 ≤ cap ∧ better (s.dist e.1) (current + e.2) then s.label e.1 (current + e.2)
  else s

/-- A node taken from the queue relaxes its edges. -/
def visit (g : Graph ν) (cap : Nat) (node : ν) (s : State ν) : State ν :=
  (g.next node).foldl (relax cap ((s.dist node).getD 0)) s

/-- What falls with every step: twice the distances, those not known above the cap. -/
def cost (g : Graph ν) (cap : Nat) (s : State ν) : Nat :=
  2 * (g.nodes.map fun v => (s.dist v).getD (cap + 1)).sum + s.queue.length

theorem cost_relax_le {current : Nat} {e : ν × Nat} (he : e.1 ∈ g.nodes) :
    cost g cap (relax cap current s e) ≤ cost g cap s := by
  unfold relax
  split
  · next h =>
    obtain ⟨hcap, hbetter⟩ := h
    have hlt : current + e.2 < (s.dist e.1).getD (cap + 1) := by
      cases hd : s.dist e.1 with
      | none => exact Nat.lt_succ_of_le hcap
      | some d => exact hbetter d hd
    have hsum : (g.nodes.map fun v =>
          ((s.label e.1 (current + e.2)).dist v).getD (cap + 1)).sum <
        (g.nodes.map fun v => (s.dist v).getD (cap + 1)).sum := by
      refine List.sum_lt_sum _ _ (fun v _ => ?_) ⟨e.1, he, ?_⟩
      · by_cases hv : v = e.1
        · subst hv
          rw [dist_label_self]
          exact hlt.le
        · rw [dist_label_ne hv]
      · rw [dist_label_self]
        exact hlt
    have hlen : (s.label e.1 (current + e.2)).queue.length = s.queue.length + 1 :=
      List.length_append
    unfold cost
    omega
  · exact Nat.le_refl _

theorem cost_visit_le (node : ν) : cost g cap (visit g cap node s) ≤ cost g cap s := by
  have hall : ∀ e ∈ g.next node, e.1 ∈ g.nodes := g.closed node
  unfold visit
  generalize (s.dist node).getD 0 = current
  generalize g.next node = edges at hall
  induction edges generalizing s with
  | nil => exact Nat.le_refl _
  | cons e rest ih =>
    rw [List.foldl_cons]
    refine (ih fun e he => hall e (List.mem_cons_of_mem _ he)).trans ?_
    exact cost_relax_le (hall e List.mem_cons_self)

/-- The loop over the queue. -/
def search (g : Graph ν) (cap : Nat) (s : State ν) : State ν :=
  match _h : s.queue with
  | [] => s
  | node :: rest => search g cap (visit g cap node { s with queue := rest })
termination_by cost g cap s
decreasing_by
  refine Nat.lt_of_le_of_lt (cost_visit_le node) ?_
  unfold cost
  rw [_h, List.length_cons]
  exact Nat.lt_succ_self _

/-- Distances are weights of walks within the cap, queued nodes have one, and the edges of the
others are relaxed, apart from those of a node that is still at them. -/
structure Inv (g : Graph ν) (cap : Nat) (start : ν) (left : ν → ν × Nat → Prop) (s : State ν) :
    Prop where
  walk : ∀ v d, s.dist v = some d → Walk g start v d ∧ d ≤ cap
  source : s.dist start = some 0
  queued : ∀ v ∈ s.queue, ∃ d, s.dist v = some d
  relaxed : ∀ u d, s.dist u = some d → u ∉ s.queue → ∀ e ∈ g.next u, ¬ left u e →
    d + e.2 ≤ cap → ∃ d', s.dist e.1 = some d' ∧ d' ≤ d + e.2

theorem not_better {existing : Option Nat} {new : Nat} (h : ¬ better existing new) :
    ∃ d, existing = some d ∧ d ≤ new := by
  cases existing with
  | none => exact (h fun _ hd => nomatch hd).elim
  | some d =>
    refine ⟨d, rfl, Nat.le_of_not_lt fun hlt => h fun d' hd' => ?_⟩
    cases hd'
    exact hlt

/-- A node at its edges relaxes one of them. -/
theorem Inv.relax {current : Nat} {e : ν × Nat} {rest : List (ν × Nat)}
    (h : Inv g cap start (fun x e' => x = u ∧ e' ∈ e :: rest) s) (hcur : s.dist u = some current)
    (he : e ∈ g.next u) : Inv g cap start (fun x e' => x = u ∧ e' ∈ rest) (relax cap current s e) ∧
      (Relaxation.relax cap current s e).dist u = some current := by
  unfold Relaxation.relax
  split
  · next hnew =>
    obtain ⟨hcap, hbetter⟩ := hnew
    have hu : u ≠ e.1 := by
      rintro rfl
      exact absurd (hbetter current hcur) (by omega)
    have hstart : start ≠ e.1 := by
      rintro rfl
      exact absurd (hbetter 0 h.source) (Nat.not_lt_zero _)
    refine ⟨⟨fun v d hv => ?_, ?_, fun v hv => ?_, fun x d hx hqueue e' he' hleft hle => ?_⟩, ?_⟩
    · by_cases hve : v = e.1
      · subst hve
        rw [dist_label_self] at hv
        cases hv
        exact ⟨.step e (h.walk u current hcur).1 he, hcap⟩
      · rw [dist_label_ne hve] at hv
        exact h.walk v d hv
    · rw [dist_label_ne hstart]
      exact h.source
    · by_cases hve : v = e.1
      · subst hve
        exact ⟨_, dist_label_self _ _⟩
      · rw [dist_label_ne hve]
        exact h.queued v ((mem_queue_label.mp hv).resolve_right hve)
    · rw [mem_queue_label, not_or] at hqueue
      rw [dist_label_ne hqueue.2] at hx
      by_cases hee : e'.1 = e.1
      · rw [hee, dist_label_self]
        refine ⟨_, rfl, ?_⟩
        by_cases hsame : x = u ∧ e' = e
        · obtain ⟨rfl, rfl⟩ := hsame
          cases hcur.symm.trans hx
          exact Nat.le_refl _
        · obtain ⟨d', hd', hle'⟩ := h.relaxed x d hx hqueue.1 e' he' (fun hin =>
            (List.mem_cons.mp hin.2).elim (fun heq => hsame ⟨hin.1, heq⟩)
              fun hrest => hleft ⟨hin.1, hrest⟩) hle
          have := hbetter d' (hee ▸ hd')
          omega
      · rw [dist_label_ne hee]
        refine h.relaxed x d hx hqueue.1 e' he' (fun hin => ?_) hle
        rcases List.mem_cons.mp hin.2 with rfl | hrest
        · exact hee rfl
        · exact hleft ⟨hin.1, hrest⟩
    · rw [dist_label_ne hu]
      exact hcur
  · next hold =>
    refine ⟨⟨h.walk, h.source, h.queued, fun x d hx hqueue e' he' hleft hle => ?_⟩, hcur⟩
    by_cases hsame : x = u ∧ e' = e
    · obtain ⟨rfl, rfl⟩ := hsame
      cases hcur.symm.trans hx
      exact not_better fun hbetter => hold ⟨hle, hbetter⟩
    · refine h.relaxed x d hx hqueue e' he' (fun hin => ?_) hle
      rcases List.mem_cons.mp hin.2 with rfl | hrest
      · exact hsame ⟨hin.1, rfl⟩
      · exact hleft ⟨hin.1, hrest⟩

/-- By induction on the edges of a node, all of them are relaxed. -/
theorem Inv.foldl {current : Nat} {edges : List (ν × Nat)}
    (h : Inv g cap start (fun x e => x = u ∧ e ∈ edges) s) (hcur : s.dist u = some current)
    (hedges : ∀ e ∈ edges, e ∈ g.next u) :
    Inv g cap start (fun _ _ => False) (edges.foldl (Relaxation.relax cap current) s) := by
  induction edges generalizing s with
  | nil =>
    refine ⟨h.walk, h.source, h.queued, fun x d hx hqueue e he _ => h.relaxed x d hx hqueue e he ?_⟩
    exact fun hin => absurd hin.2 List.not_mem_nil
  | cons e rest ih =>
    obtain ⟨hinv, hcur'⟩ := h.relax hcur (hedges e List.mem_cons_self)
    exact ih hinv hcur' fun e he => hedges e (List.mem_cons_of_mem _ he)

theorem Inv.visit {rest : List ν} (h : Inv g cap start (fun _ _ => False) s)
    (hqueue : s.queue = u :: rest) :
    Inv g cap start (fun _ _ => False) (visit g cap u { s with queue := rest }) := by
  obtain ⟨current, hcur⟩ := h.queued u (hqueue ▸ List.mem_cons_self)
  have hleft : Inv g cap start (fun x e => x = u ∧ e ∈ g.next u) { s with queue := rest } := by
    refine ⟨h.walk, h.source, fun v hv => h.queued v (hqueue ▸ List.mem_cons_of_mem _ hv),
      fun x d hx hnot e he hleft => h.relaxed x d hx (fun hin => ?_) e he id⟩
    rw [hqueue] at hin
    rcases List.mem_cons.mp hin with rfl | hin
    · exact hleft ⟨rfl, he⟩
    · exact hnot hin
  unfold Relaxation.visit
  rw [show ({ s with queue := rest } : State ν).dist u = some current from hcur]
  exact hleft.foldl hcur fun e he => he

theorem Inv.search (h : Inv g cap start (fun _ _ => False) s) :
    Inv g cap start (fun _ _ => False) (search g cap s) ∧
      (Relaxation.search g cap s).queue = [] := by
  induction s using search.induct g cap with
  | case1 s hqueue =>
    rw [Relaxation.search]
    split
    · exact ⟨h, hqueue⟩
    · next hcons => cases hqueue.symm.trans hcons
  | case2 s node rest hqueue ih =>
    rw [Relaxation.search]
    split
    · next hnil => cases hqueue.symm.trans hnil
    · next hcons =>
      cases hqueue.symm.trans hcons
      exact ih (h.visit hqueue)

def empty : State ν := ⟨fun _ => none, []⟩

/-- The search from one node. -/
def initial (start : ν) : State ν := empty.label start 0

theorem inv_initial : Inv g cap start (fun _ _ => False) (initial start) where
  walk := by
    intro v d hv
    by_cases h : v = start
    · subst h
      cases (dist_label_self v 0).symm.trans hv
      exact ⟨.refl, Nat.zero_le cap⟩
    · cases (dist_label_ne h 0).symm.trans hv
  source := dist_label_self start 0
  queued := by
    intro v hv
    cases List.mem_singleton.mp hv
    exact ⟨0, dist_label_self _ 0⟩
  relaxed := by
    intro u d hu hqueue
    have hne : u ≠ start := fun h => hqueue (List.mem_singleton.mpr h)
    cases (dist_label_ne hne 0).symm.trans hu

omit [DecidableEq ν] in
/-- Where all edges are relaxed, no walk within the cap is shorter than the distance. -/
theorem Inv.le_walk (h : Inv g cap start (fun _ _ => False) s) (hqueue : s.queue = []) {w : Nat}
    (hwalk : Walk g start v w) (hcap : w ≤ cap) : ∃ d, s.dist v = some d ∧ d ≤ w := by
  induction hwalk with
  | refl => exact ⟨0, h.source, Nat.le_refl 0⟩
  | step e hu he ih =>
    obtain ⟨d, hd, hle⟩ := ih (by omega)
    obtain ⟨d', hd', hle'⟩ :=
      h.relaxed _ d hd (by rw [hqueue]; exact List.not_mem_nil) e he id (by omega)
    exact ⟨d', hd', by omega⟩

/-- The distances at the end are the least weights of the walks within the cap. -/
theorem search_exact {d : Nat} : (search g cap (initial start)).dist v = some d ↔
    IsLeast {w | Walk g start v w} d ∧ d ≤ cap := by
  have hstart : Inv g cap start (fun _ _ => False) (initial start) := inv_initial
  obtain ⟨hinv, hqueue⟩ := hstart.search
  constructor
  · intro hd
    obtain ⟨hwalk, hcap⟩ := hinv.walk v d hd
    refine ⟨⟨hwalk, fun w hw => ?_⟩, hcap⟩
    by_cases hle : w ≤ cap
    · obtain ⟨d', hd', hle'⟩ := hinv.le_walk hqueue hw hle
      cases hd.symm.trans hd'
      exact hle'
    · omega
  · rintro ⟨⟨hwalk, hleast⟩, hcap⟩
    obtain ⟨d', hd', hle⟩ := hinv.le_walk hqueue hwalk hcap
    have heq : d' = d := Nat.le_antisymm hle (hleast (hinv.walk v d' hd').1)
    rw [hd', heq]

end Relaxation
