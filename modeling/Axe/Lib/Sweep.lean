import Mathlib.Data.Finset.Union

/-!
# Sweeping a list until nothing more is absorbed

Items carry finite sets of labels. One sweep walks a list in order and absorbs
every item that shares a label with what has been reached so far, whose labels
are then reached too. How many sweeps an item needs is decided by the positions
of the items that lead to it: a chain of absorbed positions costs one sweep,
and one more each time it turns back in the list.
-/
namespace Sweep

variable {ι κ : Type*}

section Chains
variable (touch : ι → Prop) (link : ι → ι → Prop)

/-- The items that touch the start, directly or through a chain of linked items. -/
inductive Connected (items : List ι) : ι → Prop
  | start {c : ι} : c ∈ items → touch c → Connected items c
  | link {c d : ι} : Connected items c → d ∈ items → link c d → Connected items d

/-- `Run k p`: a chain of links from the start to position `p` whose positions
form `k` ascending runs. -/
inductive Run (items : List ι) : Nat → Nat → Prop
  | start {p : Nat} {c : ι} : items[p]? = some c → touch c → Run items 1 p
  | ahead {k p q : Nat} {c d : ι} : Run items k p → items[p]? = some c → items[q]? = some d →
      link c d → p < q → Run items k q
  | again {k p q : Nat} {c d : ι} : Run items k p → items[p]? = some c → items[q]? = some d →
      link c d → Run items (k + 1) q

variable {touch link} {items : List ι}

theorem Run.connected {k p : Nat} (h : Run touch link items k p) :
    ∃ c, items[p]? = some c ∧ Connected touch link items c := by
  induction h with
  | start hp hs => exact ⟨_, hp, .start (List.mem_of_getElem? hp) hs⟩
  | ahead _ hp hq hs _ ih =>
    obtain ⟨c, hc, hconn⟩ := ih
    cases hp.symm.trans hc
    exact ⟨_, hq, .link hconn (List.mem_of_getElem? hq) hs⟩
  | again _ hp hq hs ih =>
    obtain ⟨c, hc, hconn⟩ := ih
    cases hp.symm.trans hc
    exact ⟨_, hq, .link hconn (List.mem_of_getElem? hq) hs⟩

theorem Connected.mem {c : ι} (h : Connected touch link items c) : c ∈ items := by
  cases h <;> assumption

theorem Run.mono {touch' : ι → Prop} {link' : ι → ι → Prop} {k p : Nat}
    (ht : ∀ c ∈ items, touch c → touch' c)
    (hl : ∀ c ∈ items, ∀ d ∈ items, link c d → link' c d) (h : Run touch link items k p) :
    Run touch' link' items k p := by
  induction h with
  | start hp hs => exact .start hp (ht _ (List.mem_of_getElem? hp) hs)
  | ahead _ hp hq hs hlt ih =>
    exact .ahead ih hp hq (hl _ (List.mem_of_getElem? hp) _ (List.mem_of_getElem? hq) hs) hlt
  | again _ hp hq hs ih =>
    exact .again ih hp hq (hl _ (List.mem_of_getElem? hp) _ (List.mem_of_getElem? hq) hs)

end Chains

variable [DecidableEq ι] [DecidableEq κ] (labels : ι → Finset κ)

structure State (ι κ : Type*) where
  included : Finset ι
  reached : Finset κ

def absorb (s : State ι κ) (c : ι) : State ι κ :=
  if c ∈ s.included ∨ Disjoint (labels c) s.reached then s
  else ⟨insert c s.included, s.reached ∪ labels c⟩

def sweep (items : List ι) (s : State ι κ) : State ι κ := items.foldl (absorb labels) s

def sweeps (items : List ι) : Nat → State ι κ → State ι κ
  | 0, s => s
  | n + 1, s => sweep labels items (sweeps items n s)

variable {labels} {items : List ι} {start : Finset κ}

theorem included_subset_absorb (s : State ι κ) (c : ι) :
    s.included ⊆ (absorb labels s c).included := by
  unfold absorb
  split
  · exact Finset.Subset.refl _
  · exact Finset.subset_insert _ _

theorem included_subset_sweep (items : List ι) (s : State ι κ) :
    s.included ⊆ (sweep labels items s).included := by
  induction items generalizing s with
  | nil => exact Finset.Subset.refl _
  | cons c items ih => exact (included_subset_absorb s c).trans (ih (absorb labels s c))

/-- A sweep that absorbs nothing changes nothing: every item left out is
disjoint from what is reached. -/
theorem sweep_stable {items : List ι} {s : State ι κ}
    (h : (sweep labels items s).included = s.included) :
    sweep labels items s = s ∧ ∀ c ∈ items, c ∈ s.included ∨ Disjoint (labels c) s.reached := by
  induction items generalizing s with
  | nil => exact ⟨rfl, by simp⟩
  | cons c items ih =>
    have hsub : (absorb labels s c).included ⊆ (sweep labels (c :: items) s).included :=
      included_subset_sweep items (absorb labels s c)
    have hc : c ∈ s.included ∨ Disjoint (labels c) s.reached := by
      by_contra hn
      have hmem : c ∈ (absorb labels s c).included := by simp [absorb, hn]
      have : c ∈ s.included := h ▸ hsub hmem
      exact hn (.inl this)
    have hs : absorb labels s c = s := by simp [absorb, hc]
    have h' : (sweep labels items s).included = s.included := by
      simpa [sweep, hs] using h
    obtain ⟨heq, hall⟩ := ih h'
    refine ⟨by simpa [sweep, hs] using heq, ?_⟩
    intro d hd
    rcases List.mem_cons.mp hd with rfl | hd
    · exact hc
    · exact hall d hd

/-- An item touches the start when one of its labels does. -/
abbrev Touches (labels : ι → Finset κ) (start : Finset κ) (c : ι) : Prop :=
  ¬ Disjoint (labels c) start

/-- Two items are linked when they share a label. -/
abbrev Linked (labels : ι → Finset κ) (c d : ι) : Prop := ¬ Disjoint (labels d) (labels c)

abbrev LabelRun (labels : ι → Finset κ) (start : Finset κ) (items : List ι) : Nat → Nat → Prop :=
  Run (Touches labels start) (Linked labels) items

/-- What is reached is the start and the labels of the included items. -/
def Covers (labels : ι → Finset κ) (start : Finset κ) (s : State ι κ) : Prop :=
  ∀ v, v ∈ s.reached ↔ v ∈ start ∨ ∃ c ∈ s.included, v ∈ labels c

theorem Covers.absorb {s : State ι κ} (h : Covers labels start s) (c : ι) :
    Covers labels start (absorb labels s c) := by
  intro v
  unfold Sweep.absorb
  split
  · exact h v
  · simp only [Finset.mem_union, h v, Finset.exists_mem_insert]
    rw [or_assoc]
    exact or_congr_right or_comm

theorem Covers.foldl {s : State ι κ} (h : Covers labels start s) (items : List ι) :
    Covers labels start (items.foldl (Sweep.absorb labels) s) := by
  induction items generalizing s with
  | nil => exact h
  | cons c items ih => exact ih (h.absorb c)

/-- The state after `m` sweeps and the first `i` items of the next one. -/
def partway (labels : ι → Finset κ) (items : List ι) (start : Finset κ) (m i : Nat) : State ι κ :=
  (items.take i).foldl (absorb labels) (sweeps labels items m ⟨∅, start⟩)

theorem partway_zero (m : Nat) :
    partway labels items start m 0 = sweeps labels items m ⟨∅, start⟩ := by simp [partway]

theorem partway_succ {m i : Nat} {c : ι} (h : items[i]? = some c) :
    partway labels items start m (i + 1) = absorb labels (partway labels items start m i) c := by
  simp [partway, List.take_add_one, h, List.foldl_append]

theorem partway_length (m : Nat) {i : Nat} (h : items.length ≤ i) :
    partway labels items start m i = partway labels items start (m + 1) 0 := by
  rw [partway, List.take_of_length_le h, partway_zero]
  rfl

theorem covers_partway (m i : Nat) : Covers labels start (partway labels items start m i) := by
  refine Covers.foldl ?_ _
  induction m with
  | zero => intro v; simp [sweeps]
  | succ m ih => exact ih.foldl items

theorem partway_mono_pos {m i j : Nat} (h : i ≤ j) :
    (partway labels items start m i).included ⊆ (partway labels items start m j).included := by
  obtain ⟨d, rfl⟩ := Nat.exists_eq_add_of_le h
  rw [partway, partway, List.take_add, List.foldl_append]
  exact included_subset_sweep _ _

theorem partway_mono_sweep (m i j : Nat) :
    (partway labels items start m i).included ⊆
      (partway labels items start (m + 1) j).included := by
  refine (partway_mono_pos (Nat.le_max_left i items.length)).trans ?_
  rw [partway_length m (Nat.le_max_right i items.length)]
  exact partway_mono_pos (Nat.zero_le j)

/-- An item is absorbed as soon as one of its labels is reached. -/
theorem mem_partway_succ {m i : Nat} {c : ι} (h : items[i]? = some c)
    (hr : ¬ Disjoint (labels c) (partway labels items start m i).reached) :
    c ∈ (partway labels items start m (i + 1)).included := by
  rw [partway_succ h, absorb]
  split
  · rename_i hc
    exact hc.resolve_right hr
  · exact Finset.mem_insert_self _ _

theorem not_disjoint_reached {m i : Nat} {c d : ι}
    (hc : c ∈ (partway labels items start m i).included)
    (hd : ¬ Disjoint (labels d) (labels c)) :
    ¬ Disjoint (labels d) (partway labels items start m i).reached := by
  obtain ⟨v, hvd, hvc⟩ := Finset.not_disjoint_iff.mp hd
  exact Finset.not_disjoint_iff.mpr ⟨v, hvd, (covers_partway m i v).mpr (.inr ⟨c, hc, hvc⟩)⟩

/-- A chain of `k` ascending runs is absorbed by the `k`-th sweep as it passes
the last position. -/
theorem LabelRun.mem_partway {k q : Nat} (h : LabelRun labels start items k q) :
    ∃ m c, k = m + 1 ∧ items[q]? = some c ∧
      c ∈ (partway labels items start m (q + 1)).included := by
  induction h with
  | @start p c hp hs =>
    refine ⟨0, c, rfl, hp, mem_partway_succ hp ?_⟩
    obtain ⟨v, hvc, hvs⟩ := Finset.not_disjoint_iff.mp hs
    exact Finset.not_disjoint_iff.mpr ⟨v, hvc, (covers_partway 0 p v).mpr (.inl hvs)⟩
  | @ahead k p q c d _ hp hq hs hlt ih =>
    obtain ⟨m, c', rfl, hc', hmem⟩ := ih
    cases hp.symm.trans hc'
    refine ⟨m, d, rfl, hq, mem_partway_succ hq (not_disjoint_reached ?_ hs)⟩
    exact partway_mono_pos hlt hmem
  | @again k p q c d _ hp hq hs ih =>
    obtain ⟨m, c', rfl, hc', hmem⟩ := ih
    cases hp.symm.trans hc'
    refine ⟨m + 1, d, rfl, hq, mem_partway_succ hq (not_disjoint_reached ?_ hs)⟩
    exact partway_mono_sweep m (p + 1) q hmem

/-- Whatever has been absorbed ends a chain: of at most `m` runs, or of `m + 1`
runs ending at a position the current sweep has passed. -/
theorem run_of_mem_partway (m i : Nat) (hi : i ≤ items.length) {c : ι}
    (h : c ∈ (partway labels items start m i).included) :
    ∃ p k, items[p]? = some c ∧ LabelRun labels start items k p ∧ (k ≤ m ∨ k ≤ m + 1 ∧ p < i) := by
  induction m generalizing i c with
  | zero =>
    induction i generalizing c with
    | zero => simp [partway, sweeps] at h
    | succ i ihi => exact absorbed 0 i hi (fun {c} hc => ihi (by omega) hc) h
  | succ m ihm =>
    induction i generalizing c with
    | zero =>
      rw [← partway_length m (Nat.le_refl items.length)] at h
      obtain ⟨p, k, hp, hr, hk⟩ := ihm items.length (Nat.le_refl _) h
      exact ⟨p, k, hp, hr, .inl (by omega)⟩
    | succ i ihi => exact absorbed (m + 1) i hi (fun {c} hc => ihi (by omega) hc) h
where
  /-- The step both inductions share. -/
  absorbed (m i : Nat) (hi : i + 1 ≤ items.length)
      (ih : ∀ {c : ι}, c ∈ (partway labels items start m i).included →
        ∃ p k, items[p]? = some c ∧ LabelRun labels start items k p ∧ (k ≤ m ∨ k ≤ m + 1 ∧ p < i))
      {c : ι} (h : c ∈ (partway labels items start m (i + 1)).included) :
      ∃ p k, items[p]? = some c ∧ LabelRun labels start items k p ∧
        (k ≤ m ∨ k ≤ m + 1 ∧ p < i + 1) := by
    have hd : items[i]? = some items[i] := List.getElem?_eq_getElem hi
    rw [partway_succ hd, absorb] at h
    have old : c ∈ (partway labels items start m i).included →
        ∃ p k, items[p]? = some c ∧ LabelRun labels start items k p ∧
          (k ≤ m ∨ k ≤ m + 1 ∧ p < i + 1) := by
      intro hc
      obtain ⟨p, k, hp, hr, hk⟩ := ih hc
      exact ⟨p, k, hp, hr, by omega⟩
    split at h
    · exact old h
    · rename_i hn
      rcases Finset.mem_insert.mp h with rfl | h
      · -- the item is new: some label of it is the start's or an absorbed item's
        obtain ⟨v, hv, hvr⟩ := Finset.not_disjoint_iff.mp (fun hdis => hn (.inr hdis))
        rcases (covers_partway m i v).mp hvr with hvs | ⟨d, hdm, hvd⟩
        · exact ⟨i, 1, hd, .start hd (Finset.not_disjoint_iff.mpr ⟨v, hv, hvs⟩), by omega⟩
        · have hs := Finset.not_disjoint_iff.mpr ⟨v, hv, hvd⟩
          obtain ⟨p, k, hp, hr, hk | ⟨hk, hpi⟩⟩ := ih hdm
          · exact ⟨i, k + 1, hd, .again hr hp hd hs, by omega⟩
          · exact ⟨i, k, hd, .ahead hr hp hd hs hpi, by omega⟩
      · exact old h

/-- After `n` sweeps exactly the items that end a chain of at most `n` ascending
runs are included. -/
theorem mem_sweeps_iff (n : Nat) (c : ι) :
    c ∈ (sweeps labels items n ⟨∅, start⟩).included ↔
      ∃ p k, items[p]? = some c ∧ k ≤ n ∧ LabelRun labels start items k p := by
  rw [← partway_zero]
  constructor
  · intro h
    obtain ⟨p, k, hp, hr, hk⟩ := run_of_mem_partway n 0 (Nat.zero_le _) h
    exact ⟨p, k, hp, by omega, hr⟩
  · rintro ⟨p, k, hp, hk, hr⟩
    obtain ⟨m, c', rfl, hc', hmem⟩ := LabelRun.mem_partway hr
    cases hp.symm.trans hc'
    have hle : ∀ d, c ∈ (partway labels items start (m + 1 + d) 0).included := by
      intro d
      induction d with
      | zero => exact partway_mono_sweep m (p + 1) 0 hmem
      | succ d ih => exact partway_mono_sweep (m + 1 + d) 0 0 ih
    obtain ⟨d, rfl⟩ := Nat.exists_eq_add_of_le hk
    exact hle d

theorem covers_sweeps (n : Nat) : Covers labels start (sweeps labels items n ⟨∅, start⟩) := by
  rw [← partway_zero]
  exact covers_partway n 0

/-- Once a sweep absorbs nothing, neither does any later one. -/
theorem sweeps_of_stable {s : State ι κ} (h : sweep labels items s = s) (n : Nat) :
    sweeps labels items n s = s := by
  induction n with
  | zero => rfl
  | succ n ih => rw [sweeps, ih, h]

theorem sweeps_succ' (n : Nat) (s : State ι κ) :
    sweeps labels items (n + 1) s = sweeps labels items n (sweep labels items s) := by
  induction n with
  | zero => rfl
  | succ n ih => rw [sweeps, ih, sweeps]

end Sweep
