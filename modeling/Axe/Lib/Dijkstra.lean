import Axe.Lib.Relaxation
import Mathlib.Data.Nat.Find
import Mathlib.Data.Finset.Dedup
import Mathlib.Data.Finset.Card

/-!
# Settling nodes by their scores

The search settles a node of least score after another, and sums the score with the cost of each
edge to a node that is not settled. A sum above the limit overflows and ends the search without a
result. Which of several nodes of one score comes first is left open.
-/
namespace Dijkstra

open Relaxation (Graph Walk)

structure Front (ν : Type) where
  score : ν → Option Nat
  settled : List ν

/-- A node that may be settled next. -/
def Front.Next {ν : Type} (s : Front ν) (u : ν) (d : Nat) : Prop :=
  s.score u = some d ∧ u ∉ s.settled ∧ ∀ v d', s.score v = some d' → v ∉ s.settled → d ≤ d'

variable {ν : Type} [DecidableEq ν]

def lower (score : ν → Option Nat) (v : ν) (sum : Nat) : ν → Option Nat :=
  Function.update score v (some (((score v).map (min sum)).getD sum))

/-- The edges of a node lower the scores at their ends. -/
def relax (limit current : Nat) (settled : List ν) :
    List (ν × Nat) → (ν → Option Nat) → Option (ν → Option Nat)
  | [], score => some score
  | e :: edges, score =>
    if e.1 ∈ settled then relax limit current settled edges score
    else if limit < current + e.2 then none
    else relax limit current settled edges (lower score e.1 (current + e.2))

/-- A search ends where all is settled, or where the goal would be settled next. -/
inductive Search (g : Graph ν) (limit : Nat) (goal : Option ν) :
    Front ν → Option (ν → Option Nat) → Prop
  | done {s : Front ν} (h : ∀ u d, ¬ s.Next u d) : Search g limit goal s (some s.score)
  | found {s : Front ν} {u : ν} {d : Nat} (h : s.Next u d) (hgoal : goal = some u) :
      Search g limit goal s (some s.score)
  | overflow {s : Front ν} {u : ν} {d : Nat} (h : s.Next u d) (hgoal : goal ≠ some u)
      (hrelax : relax limit d s.settled (g.next u) s.score = none) : Search g limit goal s none
  | settle {s : Front ν} {u : ν} {d : Nat} {score : ν → Option Nat}
      {out : Option (ν → Option Nat)} (h : s.Next u d) (hgoal : goal ≠ some u)
      (hrelax : relax limit d s.settled (g.next u) s.score = some score)
      (hrest : Search g limit goal ⟨score, u :: s.settled⟩ out) : Search g limit goal s out

def initial (start : ν) : Front ν := ⟨Function.update (fun _ => none) start (some 0), []⟩

section Relax
variable {limit current d : Nat} {settled : List ν} {edges : List (ν × Nat)}
  {score score' : ν → Option Nat} {v : ν} {sum : Nat}

theorem lower_self_le (score : ν → Option Nat) (v : ν) (sum : Nat) :
    ∃ d, lower score v sum v = some d ∧ d ≤ sum := by
  rw [lower, Function.update_self]
  cases score v with
  | none => exact ⟨sum, rfl, Nat.le_refl _⟩
  | some d => exact ⟨min sum d, rfl, Nat.min_le_left _ _⟩

theorem lower_le (v : ν) (sum : Nat) {u : ν} (h : score u = some d) :
    ∃ d', lower score v sum u = some d' ∧ d' ≤ d := by
  by_cases huv : u = v
  · subst huv
    rw [lower, Function.update_self, h]
    exact ⟨min sum d, rfl, Nat.min_le_right _ _⟩
  · rw [lower, Function.update_of_ne huv]
    exact ⟨d, h, Nat.le_refl _⟩

theorem lower_origin {u : ν} (h : lower score v sum u = some d) :
    score u = some d ∨ u = v ∧ d = sum := by
  by_cases huv : u = v
  · subst huv
    rw [lower, Function.update_self] at h
    cases hu : score u with
    | none =>
      rw [hu] at h
      exact .inr ⟨rfl, (Option.some.inj h).symm⟩
    | some d' =>
      rw [hu] at h
      have hmin : min sum d' = d := Option.some.inj h
      rcases Nat.le_total sum d' with hle | hle
      · exact .inr ⟨rfl, by omega⟩
      · exact .inl (congrArg some (by omega))
  · rw [lower, Function.update_of_ne huv] at h
    exact .inl h

/-- The sums that are made are those of the edges to nodes not settled. -/
theorem relax_eq_none : relax limit current settled edges score = none ↔
    ∃ e ∈ edges, e.1 ∉ settled ∧ limit < current + e.2 := by
  induction edges generalizing score with
  | nil => simp [relax]
  | cons e edges ih =>
    rw [relax]
    simp only [List.mem_cons, exists_eq_or_imp]
    split
    · rename_i hsettled
      rw [ih, or_iff_right fun h => h.1 hsettled]
    · rename_i hsettled
      split
      · rename_i hover
        exact iff_of_true rfl (.inl ⟨hsettled, hover⟩)
      · rename_i hover
        rw [ih, or_iff_right fun h => hover h.2]

/-- What the edges of a node do to the scores. -/
structure Relaxed (current : Nat) (settled : List ν) (edges : List (ν × Nat))
    (score score' : ν → Option Nat) : Prop where
  kept : ∀ v ∈ settled, score' v = score v
  origin : ∀ v d, score' v = some d →
    score v = some d ∨ v ∉ settled ∧ ∃ e ∈ edges, e.1 = v ∧ d = current + e.2
  le : ∀ v d, score v = some d → ∃ d', score' v = some d' ∧ d' ≤ d
  reached : ∀ e ∈ edges, e.1 ∉ settled → ∃ d, score' e.1 = some d ∧ d ≤ current + e.2

theorem relax_relaxed (h : relax limit current settled edges score = some score') :
    Relaxed current settled edges score score' := by
  induction edges generalizing score with
  | nil =>
    cases h
    exact ⟨fun v _ => rfl, fun v d => .inl, fun v d h => ⟨d, h, Nat.le_refl d⟩,
      fun e he => absurd he List.not_mem_nil⟩
  | cons e edges ih =>
    rw [relax] at h
    split at h
    · rename_i hsettled
      have hrest := ih h
      refine ⟨hrest.kept, fun v d hv => ?_, hrest.le, fun e' he' hnot => ?_⟩
      · rcases hrest.origin v d hv with hold | ⟨hnot, e', he', heq⟩
        · exact .inl hold
        · exact .inr ⟨hnot, e', List.mem_cons_of_mem _ he', heq⟩
      · rcases List.mem_cons.mp he' with rfl | he'
        · exact absurd hsettled hnot
        · exact hrest.reached e' he' hnot
    · rename_i hsettled
      split at h
      · cases h
      · have hrest := ih h
        refine ⟨fun v hv => ?_, fun v d hv => ?_, fun v d hv => ?_, fun e' he' hnot => ?_⟩
        · rw [hrest.kept v hv, lower, Function.update_of_ne]
          exact fun heq => hsettled (heq ▸ hv)
        · rcases hrest.origin v d hv with hlower | ⟨hnot, e', he', heq⟩
          · rcases lower_origin hlower with hold | ⟨rfl, rfl⟩
            · exact .inl hold
            · exact .inr ⟨hsettled, e, List.mem_cons_self, rfl, rfl⟩
          · exact .inr ⟨hnot, e', List.mem_cons_of_mem _ he', heq⟩
        · obtain ⟨d', hd', hle⟩ := lower_le e.1 (current + e.2) hv
          obtain ⟨d'', hd'', hle'⟩ := hrest.le v d' hd'
          exact ⟨d'', hd'', hle'.trans hle⟩
        · rcases List.mem_cons.mp he' with rfl | he'
          · obtain ⟨d', hd', hle⟩ := lower_self_le score e'.1 (current + e'.2)
            obtain ⟨d'', hd'', hle'⟩ := hrest.le e'.1 d' hd'
            exact ⟨d'', hd'', hle'.trans hle⟩
          · exact hrest.reached e' he' hnot

end Relax

/-- Scores are weights of walks, the settled nodes have the lowest ones, and their edges are
relaxed. -/
structure Inv (g : Graph ν) (start : ν) (s : Front ν) : Prop where
  walk : ∀ v d, s.score v = some d → Walk g start v d
  source : s.score start = some 0
  scored : ∀ u ∈ s.settled, ∃ d, s.score u = some d
  lower : ∀ u ∈ s.settled, ∀ d, s.score u = some d →
    ∀ v d', s.score v = some d' → v ∉ s.settled → d ≤ d'
  relaxed : ∀ u ∈ s.settled, ∀ d, s.score u = some d →
    ∀ e ∈ g.next u, ∃ d', s.score e.1 = some d' ∧ d' ≤ d + e.2

section Runs
variable {g : Graph ν} {limit : Nat} {goal : Option ν} {start u v : ν} {s : Front ν} {d w : Nat}
  {score : ν → Option Nat}

theorem score_initial_self : (initial start).score start = some 0 := by
  simp only [initial, Function.update_self]

theorem score_initial_ne (h : v ≠ start) : (initial start).score v = none := by
  simp only [initial, Function.update_of_ne h]

theorem inv_initial : Inv g start (initial start) where
  walk := by
    intro v d hv
    by_cases h : v = start
    · subst h
      rw [score_initial_self] at hv
      cases hv
      exact .refl
    · rw [score_initial_ne h] at hv
      cases hv
  source := score_initial_self
  scored := fun u hu => absurd hu List.not_mem_nil
  lower := fun u hu => absurd hu List.not_mem_nil
  relaxed := fun u hu => absurd hu List.not_mem_nil

omit [DecidableEq ν] in
/-- A walk stays among the settled nodes, or it has passed a score that is not settled. -/
theorem Inv.of_walk (h : Inv g start s) (hwalk : Walk g start v w) :
    (v ∈ s.settled ∧ ∃ d, s.score v = some d ∧ d ≤ w) ∨
      ∃ x, x ∉ s.settled ∧ ∃ d, s.score x = some d ∧ d ≤ w := by
  induction hwalk with
  | refl =>
    by_cases hsettled : start ∈ s.settled
    · exact .inl ⟨hsettled, 0, h.source, Nat.le_refl 0⟩
    · exact .inr ⟨start, hsettled, 0, h.source, Nat.le_refl 0⟩
  | step e hu he ih =>
    rcases ih with ⟨hsettled, d, hd, hle⟩ | ⟨x, hx, d, hd, hle⟩
    · obtain ⟨d', hd', hle'⟩ := h.relaxed _ hsettled d hd e he
      by_cases hend : e.1 ∈ s.settled
      · exact .inl ⟨hend, d', hd', by omega⟩
      · exact .inr ⟨e.1, hend, d', hd', by omega⟩
    · exact .inr ⟨x, hx, d, hd, by omega⟩

omit [DecidableEq ν] in
/-- No walk to a node that is not settled is shorter than the score that comes next. -/
theorem Inv.next_le_walk (h : Inv g start s) (hnext : s.Next u d) (hwalk : Walk g start v w)
    (hv : v ∉ s.settled) : d ≤ w := by
  rcases h.of_walk hwalk with ⟨hsettled, -⟩ | ⟨x, hx, d', hd', hle⟩
  · exact absurd hsettled hv
  · exact (hnext.2.2 x d' hd' hx).trans hle

omit [DecidableEq ν] in
theorem Inv.next_least (h : Inv g start s) (hnext : s.Next u d) :
    IsLeast {w | Walk g start u w} d :=
  ⟨h.walk u d hnext.1, fun _ hw => h.next_le_walk hnext hw hnext.2.1⟩

omit [DecidableEq ν] in
theorem exists_next (hv : v ∉ s.settled) (hscore : s.score v = some w) :
    ∃ u d, s.Next u d ∧ d ≤ w := by
  have hex : ∃ d u, u ∉ s.settled ∧ s.score u = some d := ⟨w, v, hv, hscore⟩
  classical
  obtain ⟨u, hu, hd⟩ := Nat.find_spec hex
  refine ⟨u, Nat.find hex, ⟨hd, hu, fun x d' hd' hx => ?_⟩, Nat.find_min' hex ⟨v, hv, hscore⟩⟩
  exact Nat.find_min' hex ⟨x, hx, hd'⟩

/-- Settling the next node keeps the invariant. -/
theorem Inv.settle (h : Inv g start s) (hnext : s.Next u d)
    (hrelax : relax limit d s.settled (g.next u) s.score = some score) :
    Inv g start ⟨score, u :: s.settled⟩ := by
  have hafter := relax_relaxed hrelax
  obtain ⟨hd, hu, hmin⟩ := hnext
  -- a node that was not settled has a score from the next one on
  have hlater : ∀ v d', score v = some d' → v ∉ s.settled → d ≤ d' := by
    intro v d' hd' hv
    rcases hafter.origin v d' hd' with hold | ⟨-, e, -, -, rfl⟩
    · exact hmin v d' hold hv
    · exact Nat.le_add_right _ _
  have hself : score u = some d := by
    obtain ⟨d', hd', hle⟩ := hafter.le u d hd
    rw [hd', Nat.le_antisymm hle (hlater u d' hd' hu)]
  have hearlier : ∀ v ∈ u :: s.settled, ∀ d', score v = some d' → d' ≤ d := by
    intro v hv d' hd'
    rcases List.mem_cons.mp hv with rfl | hv
    · exact (Option.some.inj (hd'.symm.trans hself)).le
    · rw [hafter.kept v hv] at hd'
      exact h.lower v hv d' hd' u d hd hu
  constructor
  · intro v d' hd'
    rcases hafter.origin v d' hd' with hold | ⟨-, e, he, rfl, rfl⟩
    · exact h.walk v d' hold
    · exact .step e (h.walk u d hd) he
  · obtain ⟨d', hd', hle⟩ := hafter.le start 0 h.source
    rw [Nat.le_zero.mp hle] at hd'
    exact hd'
  · intro v hv
    rcases List.mem_cons.mp hv with rfl | hv
    · exact ⟨d, hself⟩
    · obtain ⟨d', hd'⟩ := h.scored v hv
      exact ⟨d', (hafter.kept v hv).trans hd'⟩
  · intro v hv dv hdv x dx hdx hx
    have hxold : x ∉ s.settled := fun hin => hx (List.mem_cons_of_mem _ hin)
    exact (hearlier v hv dv hdv).trans (hlater x dx hdx hxold)
  · intro v hv dv hdv e he
    rcases List.mem_cons.mp hv with rfl | hvold
    · cases hself.symm.trans hdv
      by_cases hend : e.1 ∈ s.settled
      · obtain ⟨d', hd'⟩ := h.scored e.1 hend
        rw [← hafter.kept e.1 hend] at hd'
        exact ⟨d', hd', (hearlier e.1 (List.mem_cons_of_mem _ hend) d' hd').trans
          (Nat.le_add_right _ _)⟩
      · exact hafter.reached e he hend
    · replace hdv := (hafter.kept v hvold).symm.trans hdv
      obtain ⟨d', hd', hle⟩ := h.relaxed v hvold dv hdv e he
      obtain ⟨d'', hd'', hle'⟩ := hafter.le e.1 d' hd'
      exact ⟨d'', hd'', hle'.trans hle⟩

/-- A search that ends with scores has the least weight of the walks to its goal, and to every
node where it has none. -/
theorem Search.exact {out : Option (ν → Option Nat)} (hsearch : Search g limit goal s out)
    (h : Inv g start s) (hgoal : ∀ t, goal = some t → t ∉ s.settled) (hout : out = some score)
    (hv : goal = none ∨ goal = some v) :
    score v = some d ↔ IsLeast {w | Walk g start v w} d := by
  induction hsearch with
  | @done s hdone =>
    cases hout
    have hall : ∀ x d, s.score x = some d → x ∈ s.settled := by
      intro x d' hd'
      by_contra hx
      obtain ⟨u, d'', hnext, -⟩ := exists_next hx hd'
      exact hdone u d'' hnext
    have hbound : ∀ w, Walk g start v w → ∃ d, s.score v = some d ∧ d ≤ w := by
      intro w hw
      rcases h.of_walk hw with ⟨-, hscore⟩ | ⟨x, hx, d', hd', -⟩
      · exact hscore
      · exact absurd (hall x d' hd') hx
    constructor
    · intro hd
      refine ⟨h.walk v d hd, fun w hw => ?_⟩
      obtain ⟨d', hd', hle⟩ := hbound w hw
      cases hd.symm.trans hd'
      exact hle
    · rintro ⟨hwalk, hleast⟩
      obtain ⟨d', hd', hle⟩ := hbound d hwalk
      rw [hd', Nat.le_antisymm hle (hleast (h.walk v d' hd'))]
  | @found s u d' hnext hfound =>
    cases hout
    rcases hv with hnone | hsome
    · rw [hnone] at hfound
      cases hfound
    · cases Option.some.inj (hfound.symm.trans hsome)
      have hleast := h.next_least hnext
      rw [hnext.1, Option.some.injEq]
      constructor
      · rintro rfl
        exact hleast
      · exact fun hd => hleast.unique hd
  | overflow => cases hout
  | settle hnext hne hrelax hrest ih =>
    refine ih (h.settle hnext hrelax) (fun t ht hin => ?_) hout
    rcases List.mem_cons.mp hin with rfl | hin
    · exact hne ht
    · exact hgoal t ht hin

/-- From each node the sums to the nodes that are not nearer are within the limit. -/
def Fits (g : Graph ν) (limit : Nat) (start : ν) : Prop :=
  ∀ u d, IsLeast {w | Walk g start u w} d → ∀ e ∈ g.next u,
    (∀ w, Walk g start e.1 w → d ≤ w) → d + e.2 ≤ limit

theorem Search.not_overflow (hfits : Fits g limit start) {out : Option (ν → Option Nat)}
    (hsearch : Search g limit goal s out) (h : Inv g start s) : out ≠ none := by
  induction hsearch with
  | done | found => exact nofun
  | overflow hnext _ hrelax =>
    obtain ⟨e, he, hend, hover⟩ := relax_eq_none.mp hrelax
    have hsum := hfits _ _ (h.next_least hnext) e he fun w hw => h.next_le_walk hnext hw hend
    omega
  | settle hnext _ hrelax _ ih => exact ih (h.settle hnext hrelax)

/-- The nodes that may still be settled. -/
def unsettled (g : Graph ν) (start : ν) (s : Front ν) : Finset ν :=
  (start :: g.nodes).toFinset \ s.settled.toFinset

omit [DecidableEq ν] in
theorem mem_nodes_of_walk (hwalk : Walk g start v w) : v ∈ start :: g.nodes := by
  cases hwalk with
  | refl => exact List.mem_cons_self
  | step e hu he => exact List.mem_cons_of_mem _ (g.closed _ e he)

theorem Inv.unsettled_lt (h : Inv g start s) (hnext : s.Next u d) :
    (unsettled g start ⟨score, u :: s.settled⟩).card < (unsettled g start s).card := by
  refine Finset.card_lt_card (Finset.ssubset_iff_of_subset ?_ |>.mpr ⟨u, ?_, ?_⟩)
  · intro v hv
    simp only [unsettled, Finset.mem_sdiff, List.mem_toFinset] at hv ⊢
    exact ⟨hv.1, fun hin => hv.2 (List.mem_cons_of_mem _ hin)⟩
  · simp only [unsettled, Finset.mem_sdiff, List.mem_toFinset]
    exact ⟨mem_nodes_of_walk (h.walk u d hnext.1), hnext.2.1⟩
  · simp only [unsettled, Finset.mem_sdiff, List.mem_toFinset]
    exact fun hin => hin.2 List.mem_cons_self

/-- Every search comes to an end. -/
theorem Inv.exists_search (limit : Nat) (goal : Option ν) (h : Inv g start s) :
    ∃ out, Search g limit goal s out := by
  induction hn : (unsettled g start s).card using Nat.strong_induction_on generalizing s with
  | h n ih =>
    by_cases hdone : ∀ u d, ¬ s.Next u d
    · exact ⟨_, .done hdone⟩
    · push Not at hdone
      obtain ⟨u, d, hnext⟩ := hdone
      by_cases hgoal : goal = some u
      · exact ⟨_, .found hnext hgoal⟩
      · cases hrelax : relax limit d s.settled (g.next u) s.score with
        | none => exact ⟨none, .overflow hnext hgoal hrelax⟩
        | some score =>
          obtain ⟨out, hout⟩ := ih _ (hn ▸ h.unsettled_lt hnext) (h.settle hnext hrelax) rfl
          exact ⟨out, .settle hnext hgoal hrelax hout⟩

omit [DecidableEq ν] in
/-- With positive costs a node whose distance is not above the next score may be next itself. -/
theorem Inv.next_of_le (h : Inv g start s) (hpos : ∀ u, ∀ e ∈ g.next u, 0 < e.2)
    (hleast : IsLeast {w | Walk g start v w} w) (hv : v ∉ s.settled) (hnext : s.Next u d)
    (hle : w ≤ d) : s.Next v w := by
  have hscore : s.score v = some w := by
    obtain ⟨hwalk, hbelow⟩ := hleast
    cases hwalk with
    | refl => exact h.source
    | @step x w' e hx he =>
      have hcost := hpos x e he
      rcases h.of_walk hx with ⟨hsettled, dx, hdx, hlex⟩ | ⟨y, hy, dy, hdy, hley⟩
      · obtain ⟨d', hd', hle'⟩ := h.relaxed x hsettled dx hdx e he
        have hge : w' + e.2 ≤ d' := hbelow (h.walk e.1 d' hd')
        rw [hd', show d' = w' + e.2 by omega]
      · have := hnext.2.2 y dy hdy hy
        omega
  exact ⟨hscore, hv, fun x dx hdx hx => hle.trans (hnext.2.2 x dx hdx hx)⟩

/-- Where a sum is above the limit, a search that prefers its node to others of the same score
comes to make it. -/
theorem Inv.exists_overflow (h : Inv g start s) (hpos : ∀ u, ∀ e ∈ g.next u, 0 < e.2)
    (hleast : IsLeast {w | Walk g start u w} d) {e : ν × Nat} (he : e ∈ g.next u)
    (hfar : ∀ w, Walk g start e.1 w → d ≤ w) (hover : limit < d + e.2) (hu : u ∉ s.settled)
    (hend : e.1 ∉ s.settled) : Search g limit none s none := by
  induction hn : (unsettled g start s).card using Nat.strong_induction_on generalizing s with
  | h n ih =>
    have hsome : ∃ x dx, s.Next x dx := by
      rcases h.of_walk hleast.1 with ⟨hsettled, -⟩ | ⟨y, hy, dy, hdy, -⟩
      · exact absurd hsettled hu
      · obtain ⟨x, dx, hnext, -⟩ := exists_next hy hdy
        exact ⟨x, dx, hnext⟩
    obtain ⟨x, dx, hnext⟩ := hsome
    by_cases hle : d ≤ dx
    · exact .overflow (h.next_of_le hpos hleast hu hnext hle) nofun
        (relax_eq_none.mpr ⟨e, he, hend, hover⟩)
    · have hwalk : Walk g start x dx := h.walk x dx hnext.1
      have hxu : u ≠ x := fun heq => hle (hleast.2 (heq ▸ hwalk))
      have hxe : e.1 ≠ x := fun heq => hle (hfar dx (heq ▸ hwalk))
      cases hrelax : relax limit dx s.settled (g.next x) s.score with
      | none => exact .overflow hnext nofun hrelax
      | some score =>
        refine .settle hnext nofun hrelax (ih _ (hn ▸ h.unsettled_lt hnext) (h.settle hnext hrelax)
          ?_ ?_ rfl)
        · exact fun hin => (List.mem_cons.mp hin).elim hxu hu
        · exact fun hin => (List.mem_cons.mp hin).elim hxe hend

/-- A sum above the limit to a node that is farther is made by every search. -/
theorem Search.overflow_of_far {out : Option (ν → Option Nat)}
    (hsearch : Search g limit goal s out) (hnone : goal = none) (h : Inv g start s)
    (hleast : IsLeast {w | Walk g start u w} d) {e : ν × Nat} (he : e ∈ g.next u)
    (hfar : ∀ w, Walk g start e.1 w → d < w) (hover : limit < d + e.2) (hu : u ∉ s.settled)
    (hend : e.1 ∉ s.settled) : out = none := by
  induction hsearch with
  | @done s hdone =>
    rcases h.of_walk hleast.1 with ⟨hsettled, -⟩ | ⟨y, hy, dy, hdy, -⟩
    · exact absurd hsettled hu
    · obtain ⟨x, dx, hnext, -⟩ := exists_next hy hdy
      exact absurd hnext (hdone x dx)
  | found _ hgoal => cases hnone.symm.trans hgoal
  | overflow => rfl
  | @settle s x dx score out hnext _ hrelax _ ih =>
    by_cases hxu : u = x
    · subst hxu
      have hd : dx = d := (h.next_least hnext).unique hleast
      have hno : relax limit dx s.settled (g.next u) s.score = none :=
        relax_eq_none.mpr ⟨e, he, hend, hd ▸ hover⟩
      cases hno.symm.trans hrelax
    · refine ih (h.settle hnext hrelax) (fun hin => (List.mem_cons.mp hin).elim hxu hu)
        fun hin => ?_
      refine (List.mem_cons.mp hin).elim (fun heq => ?_) hend
      have hlow : dx ≤ d := h.next_le_walk hnext hleast.1 hu
      have hhigh : d < dx := hfar dx (heq ▸ h.walk x dx hnext.1)
      omega

end Runs

end Dijkstra
