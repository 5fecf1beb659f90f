import Axe.Concolic.Scheduler

/-!
# Runs of the frontier queue

In every run the indices agree. Pops follow the current scores in the runs where no
push lowers the score of an entry that is still in the heap; evictions follow the
age of the keys in the runs whose sweeps walk the map by age.
-/
namespace Axe.Concolic

section Pops
variable {N D S : Type} {sc : Scoring N D S} [LinearOrder S] {b b' : ConcolicBacklog N D S}
  {r : Option (FrontierItem N D)} {order : List Key}

/-- No live key has an entry above its current score. -/
def NoHigherStale (sc : Scoring N D S) (b : ConcolicBacklog N D S) : Prop :=
  ∀ e ∈ b.heap, ∀ item, b.byKey.lookup e.key = some item → e.score ≤ sc.scoreItem item

/-- What a pop leaves, and what it returns. -/
structure PopSpec (sc : Scoring N D S) (b : ConcolicBacklog N D S)
    (r : Option (FrontierItem N D)) (order : List Key) (b' : ConcolicBacklog N D S) : Prop where
  inSync : b'.InSync sc
  cap : b'.cap = b.cap
  lru : b'.lruOrder = order
  stale : NoHigherStale sc b'
  nothing : r = none → ∀ k, k ∉ b.byKey
  taken : ∀ item, r = some item → b.byKey.lookup item.dedupKey = some item ∧
    ∀ k, b'.byKey.lookup k =
      if k = item.dedupKey then none else (b.byKey.lookup k).map sc.aged
  greatest : NoHigherStale sc b → ∀ item, r = some item → ∀ k other,
    b.byKey.lookup k = some other → sc.scoreItem other ≤ sc.scoreItem item

theorem ScoredItem.le.score {a c : ScoredItem S} (h : a.le c) : a.score ≤ c.score :=
  h.elim le_of_lt fun h => h.1.le

theorem pops_spec (hpop : Pops sc b r order b') (h : b.InSync sc) : PopSpec sc b r order b' := by
  induction hpop with
  | @empty b hheap =>
    have hnone : ∀ k, k ∉ b.byKey := by
      intro k hk
      obtain ⟨item, hitem⟩ := Finmap.mem_iff.mp hk
      have := h.current k item hitem
      rw [hheap] at this
      cases this
    refine ⟨h, rfl, List.eq_nil_iff_forall_not_mem.mpr fun k hk => hnone k ((h.mem k).mp hk), ?_,
      fun _ => hnone, fun _ hr => (nomatch hr), fun _ _ hr => (nomatch hr)⟩
    rintro e he
    rw [hheap] at he
    cases he
  | @skip b b' r order top rest hheap hgone _ ih =>
    obtain ⟨hs, hcap, hlru, hst, hn, hsome, hg⟩ := ih (skip_inSync h hheap.perm hgone)
    refine ⟨hs, hcap, hlru, hst, hn, hsome, fun hb => hg fun e he => ?_⟩
    exact hb e (hheap.perm.mem_iff.mpr (List.mem_cons_of_mem _ he))
  | @found b item order top rest hheap hitem ho =>
    obtain ⟨hs, hcap, hlru, hst, hlookup⟩ := found_spec rest h ho
    have hkey : item.dedupKey = top.key := h.keyed _ _ hitem
    refine ⟨hs, hcap, hlru, fun e he it hit => ?_, fun hr => (nomatch hr), ?_, ?_⟩
    · rw [hst e he it hit]
      exact le_refl _
    · rintro _ ⟨⟩
      rw [hkey]
      exact ⟨hitem, hlookup⟩
    · rintro hb _ ⟨⟩ k other hother
      have htop := hheap.greatest _ (h.current k other hother)
      exact htop.score.trans (hb top (hheap.perm.mem_iff.mpr List.mem_cons_self) item hitem)

theorem ScoredItem.le_total (a c : ScoredItem S) : a.le c ∨ c.le a := by
  rcases lt_trichotomy a.score c.score with h | h | h
  · exact .inl (.inl h)
  · rcases Nat.le_total a.pcTiebreak c.pcTiebreak with h' | h'
    · exact .inl (.inr ⟨h, h'⟩)
    · exact .inr (.inr ⟨h.symm, h'⟩)
  · exact .inr (.inl h)

theorem ScoredItem.le.trans {a c d : ScoredItem S} (h : a.le c) (h' : c.le d) : a.le d := by
  rcases h with h | ⟨h, ht⟩
  · exact .inl (h.trans_le h'.score)
  · rcases h' with h' | ⟨h', ht'⟩
    · exact .inl (h ▸ h')
    · exact .inr ⟨h.trans h', ht.trans ht'⟩

theorem exists_heapPop (e : ScoredItem S) (heap : List (ScoredItem S)) :
    ∃ top rest, HeapPop (e :: heap) top rest := by
  induction heap generalizing e with
  | nil =>
    refine ⟨e, [], .refl _, fun y hy => ?_⟩
    cases List.mem_singleton.mp hy
    exact .inr ⟨rfl, le_refl _⟩
  | cons x heap ih =>
    obtain ⟨top, rest, hperm, hgreatest⟩ := ih x
    rcases e.le_total top with h | h
    · refine ⟨top, e :: rest, (hperm.cons e).trans (.swap _ _ _), fun y hy => ?_⟩
      rcases List.mem_cons.mp hy with rfl | hy
      · exact h
      · exact hgreatest y hy
    · refine ⟨e, x :: heap, .refl _, fun y hy => ?_⟩
      rcases List.mem_cons.mp hy with rfl | hy
      · exact .inr ⟨rfl, le_refl _⟩
      · exact (hgreatest y hy).trans h

/-- A pop ends: every skipped entry leaves the heap. -/
theorem pops_total (b : ConcolicBacklog N D S) : ∃ r order b', Pops sc b r order b' := by
  generalize hn : b.heap.length = n
  induction n generalizing b with
  | zero => exact ⟨none, [], b, .empty (List.length_eq_zero_iff.mp hn)⟩
  | succ n ih =>
    obtain ⟨e, heap, hheap⟩ := List.exists_cons_of_length_eq_add_one hn
    obtain ⟨top, rest, htop⟩ := exists_heapPop e heap
    rw [← hheap] at htop
    cases hitem : b.byKey.lookup top.key with
    | none =>
      have hlen : rest.length = n := by
        have := htop.perm.length_eq
        rw [hn, List.length_cons] at this
        omega
      obtain ⟨r, order, b', hpop⟩ := ih { b with heap := rest } hlen
      exact ⟨r, order, b', .skip htop hitem hpop⟩
    | some item =>
      refine ⟨some item, (b.byKey.erase top.key).keys.toList, _, .found htop hitem ⟨?_, ?_⟩⟩
      · exact Finset.nodup_toList _
      · intro k
        rw [Finset.mem_toList, Finmap.mem_keys]

end Pops

section Ages
variable {N D S : Type} {sc : Scoring N D S} {b : ConcolicBacklog N D S} {item : FrontierItem N D}

inductive Event (N D : Type) where
  | push (item : FrontierItem N D)
  | pop (result : Option (FrontierItem N D)) (order : List Key)

/-- The calls of a run, the latest first, each with the queue it found. -/
abbrev Trace (N D S : Type) := List (ConcolicBacklog N D S × Event N D)

/-- When a key was last pushed: the number of that call, and 0 if it never was. -/
def lastPush : Trace N D S → Key → Nat
  | [], _ => 0
  | (_, .push item) :: calls, k => if item.dedupKey = k then calls.length + 1 else lastPush calls k
  | (_, .pop _ _) :: calls, k => lastPush calls k

/-- Every sweep walks the map from the key with the oldest last push to the newest. -/
def WalksByAge : Trace N D S → Prop
  | [] => True
  | (_, .push _) :: calls => WalksByAge calls
  | (_, .pop _ order) :: calls =>
    order.Pairwise (lastPush calls · < lastPush calls ·) ∧ WalksByAge calls

/-- The order of eviction is the order of the last pushes. -/
def AgeOrdered (calls : Trace N D S) (b : ConcolicBacklog N D S) : Prop :=
  b.lruOrder.Pairwise (lastPush calls · < lastPush calls ·)

variable {calls : Trace N D S}

theorem lastPush_le (calls : Trace N D S) (k : Key) : lastPush calls k ≤ calls.length := by
  induction calls with
  | nil => exact Nat.le_refl 0
  | cons call calls ih =>
    obtain ⟨_, item | ⟨r, order⟩⟩ := call
    · rw [lastPush]
      split
      · exact Nat.le_refl _
      · exact Nat.le_succ_of_le ih
    · exact Nat.le_succ_of_le ih

/-- A push puts the newest key at the back. -/
theorem push_ageOrdered (hcap : 1 ≤ b.cap) (h : b.InSync sc) (ha : AgeOrdered calls b) :
    AgeOrdered ((b, .push item) :: calls) (b.push sc item).1 := by
  obtain ⟨he, -, -, hkey⟩ := evict_inSync (k := item.dedupKey) hcap h
  obtain ⟨older, hlru, -, hmem, hsub⟩ := insert_lru sc item he
  rw [AgeOrdered, ConcolicBacklog.push, hlru, List.pairwise_append]
  refine ⟨?_, List.pairwise_singleton _ _, fun k hk k' hk' => ?_⟩
  · refine ((ha.sublist (evict_sublist item.dedupKey)).sublist hsub).imp_of_mem ?_
    intro k k' hk hk' hlt
    rw [lastPush, lastPush, if_neg ((hmem k).mp hk).1.symm, if_neg ((hmem k').mp hk').1.symm]
    exact hlt
  · rw [List.mem_singleton.mp hk', lastPush, lastPush, if_neg ((hmem k).mp hk).1.symm, if_pos rfl]
    exact Nat.lt_succ_of_le (lastPush_le calls k)

/-- A push of a new key into a full queue drops the key whose last push is the oldest. -/
theorem evict_oldest (hcap : 1 ≤ b.cap) (h : b.InSync sc) (ha : AgeOrdered calls b)
    (hnew : item.dedupKey ∉ b.byKey) (hfull : b.cap ≤ b.len) :
    ∃ k, (b.push sc item).2 = some k ∧ k ∈ b.byKey ∧
      ∀ k' ∈ b.byKey, lastPush calls k ≤ lastPush calls k' := by
  have hlen := h.lru_length
  cases hlru : b.lruOrder with
  | nil =>
    rw [hlru, List.length_nil] at hlen
    omega
  | cons k rest =>
    have hevict : (b.push sc item).2 = some k := by
      rw [ConcolicBacklog.push, ConcolicBacklog.evict, if_pos ⟨hnew, hfull⟩, hlru]
    rw [AgeOrdered, hlru, List.pairwise_cons] at ha
    refine ⟨k, hevict, (h.mem k).mp (hlru ▸ List.mem_cons_self), fun k' hk' => ?_⟩
    rcases List.mem_cons.mp (hlru ▸ (h.mem k').mpr hk') with rfl | hk'
    · exact Nat.le_refl _
    · exact (ha.1 k' hk').le

end Ages

section Runs
variable {N D S : Type} {sc : Scoring N D S} [LinearOrder S] {b b' : ConcolicBacklog N D S}
  {calls : Trace N D S} {cap : Nat} {item : FrontierItem N D}

inductive Run (sc : Scoring N D S) (cap : Nat) : Trace N D S → ConcolicBacklog N D S → Prop
  | new : Run sc cap [] (.withCapacity cap)
  | push {calls : Trace N D S} {b : ConcolicBacklog N D S} (item : FrontierItem N D) :
      Run sc cap calls b → Run sc cap ((b, .push item) :: calls) (b.push sc item).1
  | pop {calls : Trace N D S} {b b' : ConcolicBacklog N D S} {r : Option (FrontierItem N D)}
      {order : List Key} : Run sc cap calls b → Pops sc b r order b' →
      Run sc cap ((b, .pop r order) :: calls) b'

theorem Run.inSync (hcap : 1 ≤ cap) (hrun : Run sc cap calls b) : b.InSync sc ∧ b.cap = cap := by
  induction hrun with
  | new => exact ⟨withCapacity_inSync cap, rfl⟩
  | push item _ ih =>
    obtain ⟨hs, hc⟩ := push_inSync (hcap.trans_eq ih.2.symm) ih.1 item
    exact ⟨hs, hc.trans ih.2⟩
  | pop _ hpop ih =>
    have hp := pops_spec hpop ih.1
    exact ⟨hp.inSync, hp.cap.trans ih.2⟩

/-- The heap holds no entry of the item's key with a higher score. -/
def Fresh (sc : Scoring N D S) (b : ConcolicBacklog N D S) (item : FrontierItem N D) : Prop :=
  ∀ e ∈ b.heap, e.key = item.dedupKey → e.score ≤ sc.scoreItem item

def PushesFresh (sc : Scoring N D S) (calls : Trace N D S) : Prop :=
  ∀ b item, (b, Event.push item) ∈ calls → Fresh sc b item

/-- The greatest entry of a live key has its current score. -/
def PriorityCurrent (sc : Scoring N D S) (b : ConcolicBacklog N D S) : Prop :=
  ∀ k item, b.byKey.lookup k = some item →
    IsGreatest {s | ∃ e ∈ b.heap, e.key = k ∧ e.score = s} (sc.scoreItem item)

theorem priorityCurrent_iff (h : b.InSync sc) : PriorityCurrent sc b ↔ NoHigherStale sc b := by
  constructor
  · intro hp e he item hitem
    exact (hp e.key item hitem).2 ⟨e, he, rfl, rfl⟩
  · intro hn k item hitem
    refine ⟨⟨_, h.current k item hitem, h.keyed k item hitem, rfl⟩, ?_⟩
    rintro _ ⟨e, he, rfl, rfl⟩
    exact hn e he item hitem

/-- A push keeps the priorities current exactly if it is fresh. -/
theorem push_noHigherStale (h : NoHigherStale sc b) :
    NoHigherStale sc (b.push sc item).1 ↔ Fresh sc b item := by
  constructor
  · intro hn e he hkey
    refine hn e (List.mem_cons_of_mem _ ((evict_heap item.dedupKey).symm ▸ he)) item ?_
    exact lookup_insert_iff.mpr (.inl ⟨hkey, rfl⟩)
  · intro hfresh e he it hit
    rcases List.mem_cons.mp he with rfl | he
    · obtain ⟨-, rfl⟩ | ⟨hne, -⟩ := lookup_insert_iff.mp hit
      · exact le_refl _
      · exact absurd rfl hne
    · rw [evict_heap] at he
      obtain ⟨hkey, rfl⟩ | ⟨-, hit⟩ := lookup_insert_iff.mp hit
      · exact hfresh e he hkey
      · exact h e he it (evict_lookup _ hit)

theorem Run.noHigherStale (hcap : 1 ≤ cap) (hrun : Run sc cap calls b)
    (hfresh : PushesFresh sc calls) : NoHigherStale sc b := by
  induction hrun with
  | new =>
    intro e he
    cases he
  | push item _ ih =>
    refine (push_noHigherStale (ih fun b it h => hfresh b it (List.mem_cons_of_mem _ h))).mpr ?_
    exact hfresh _ item List.mem_cons_self
  | pop hrun hpop _ => exact (pops_spec hpop (hrun.inSync hcap).1).stale

/-- In a run of fresh pushes the queue pops by current priority, and a further push keeps that
exactly if it is fresh. -/
theorem pops_by_current_priority (hcap : 1 ≤ cap) (hrun : Run sc cap calls b)
    (hfresh : PushesFresh sc calls) :
    PriorityCurrent sc b ∧ (∃ r order b', Pops sc b r order b') ∧
      (∀ r order b', Pops sc b r order b' → (r = none ↔ b.isEmpty = true) ∧
        ∀ item, r = some item → b.byKey.lookup item.dedupKey = some item ∧
          ∀ k other, b.byKey.lookup k = some other → sc.scoreItem other ≤ sc.scoreItem item) ∧
      ∀ item, (b.push sc item).1.byKey.lookup item.dedupKey = some item ∧
        (PriorityCurrent sc (b.push sc item).1 ↔ Fresh sc b item) := by
  obtain ⟨hs, hc⟩ := hrun.inSync hcap
  have hn := hrun.noHigherStale hcap hfresh
  refine ⟨(priorityCurrent_iff hs).mpr hn, pops_total b, ?_, fun item => ⟨?_, ?_⟩⟩
  · intro r order b' hpop
    have hp := pops_spec hpop hs
    refine ⟨⟨fun hr => isEmpty_iff.mpr (hp.nothing hr), fun hemp => ?_⟩, fun item hr =>
      ⟨(hp.taken item hr).1, hp.greatest hn item hr⟩⟩
    cases r with
    | none => rfl
    | some item =>
      refine absurd ?_ (isEmpty_iff.mp hemp item.dedupKey)
      exact Finmap.mem_iff.mpr ⟨item, (hp.taken item rfl).1⟩
  · exact lookup_insert_iff.mpr (.inl ⟨rfl, rfl⟩)
  · rw [priorityCurrent_iff (push_inSync (hcap.trans_eq hc.symm) hs item).1]
    exact push_noHigherStale hn

theorem Run.ageOrdered (hcap : 1 ≤ cap) (hrun : Run sc cap calls b) (hw : WalksByAge calls) :
    AgeOrdered calls b := by
  induction hrun with
  | new => exact .nil
  | push item hrun ih =>
    obtain ⟨hs, hc⟩ := hrun.inSync hcap
    exact push_ageOrdered (hcap.trans_eq hc.symm) hs (ih hw)
  | pop hrun hpop _ =>
    rw [AgeOrdered, (pops_spec hpop (hrun.inSync hcap).1).lru]
    exact hw.1

/-- A branch at an address with a novelty, which is its score. -/
def branchAt (pc novelty : Nat) : FrontierItem Nat Unit := ⟨pc, 0, novelty, ()⟩

def byNovelty : Scoring Nat Unit Nat := ⟨FrontierItem.noveltyScore, (· + 1)⟩

def pushAll (items : List (FrontierItem Nat Unit)) : ConcolicBacklog Nat Unit Nat :=
  items.foldl (fun b item => (b.push byNovelty item).1) (.withCapacity 3)

theorem pops_by_current_priority_repush : ∃ calls, Run byNovelty 3 calls
    (pushAll [branchAt 1 5, branchAt 1 9]) ∧
      PriorityCurrent byNovelty (pushAll [branchAt 1 5, branchAt 1 9]) :=
  have hrun : Run byNovelty 3 _ (pushAll [branchAt 1 5, branchAt 1 9]) := .push _ (.push _ .new)
  ⟨_, hrun, (pops_by_current_priority (by decide) hrun fun b item h => by
    simp only [List.mem_cons, Prod.mk.injEq, Event.push.injEq, List.not_mem_nil, or_false] at h
    rcases h with ⟨rfl, rfl⟩ | ⟨rfl, rfl⟩ <;> intro e he <;> revert e <;> decide).1⟩

/-- After 9 for one key, 5 for another and 1 for the first again, the pop returns the 1. -/
theorem pop_follows_stale_score : ∃ calls item order b',
    Run byNovelty 3 calls (pushAll [branchAt 1 9, branchAt 2 5, branchAt 1 1]) ∧
      Pops byNovelty (pushAll [branchAt 1 9, branchAt 2 5, branchAt 1 1]) (some item) order b' ∧
      ∃ other, (pushAll [branchAt 1 9, branchAt 2 5, branchAt 1 1]).byKey.lookup other.dedupKey =
        some other ∧ byNovelty.scoreItem item < byNovelty.scoreItem other := by
  have htop : HeapPop (pushAll [branchAt 1 9, branchAt 2 5, branchAt 1 1]).heap ⟨9, 1, (1, 0)⟩
      [⟨1, 1, (1, 0)⟩, ⟨5, 2, (2, 0)⟩] := by
    refine ⟨?_, fun e he => ?_⟩
    · show ([⟨1, 1, (1, 0)⟩, ⟨5, 2, (2, 0)⟩] ++ [⟨9, 1, (1, 0)⟩] : List (ScoredItem Nat)).Perm
        ([⟨9, 1, (1, 0)⟩] ++ [⟨1, 1, (1, 0)⟩, ⟨5, 2, (2, 0)⟩])
      exact List.perm_append_comm
    · revert e
      show ∀ e ∈ ([⟨1, 1, (1, 0)⟩, ⟨5, 2, (2, 0)⟩, ⟨9, 1, (1, 0)⟩] : List (ScoredItem Nat)),
        e.score < 9 ∨ e.score = 9 ∧ e.pcTiebreak ≤ 1
      decide
  have hleft : Enumerates [(2, 0)]
      ((pushAll [branchAt 1 9, branchAt 2 5, branchAt 1 1]).byKey.erase (1, 0)) := by
    refine ⟨by decide, fun k => ?_⟩
    rw [← Finmap.mem_keys, show ((pushAll [branchAt 1 9, branchAt 2 5, branchAt 1 1]).byKey.erase
      (1, 0)).keys = {(2, 0)} from rfl, List.mem_singleton, Finset.mem_singleton]
  exact ⟨_, branchAt 1 1, [(2, 0)], _, .push _ (.push _ (.push _ .new)), .found htop rfl hleft,
    branchAt 2 5, rfl, by decide⟩

/-- In every run the indices agree. A walk by age keeps the eviction order by age, no other walk
does, and in the runs of such walks a push drops the oldest key. -/
theorem backlog_in_sync (hcap : 1 ≤ cap) (hrun : Run sc cap calls b) :
    b.InSync sc ∧ b.cap = cap ∧
      (WalksByAge calls → AgeOrdered calls b ∧
        (∀ item, item.dedupKey ∉ b.byKey → cap ≤ b.len →
          ∃ k, (b.push sc item).2 = some k ∧ k ∈ b.byKey ∧
            ∀ k' ∈ b.byKey, lastPush calls k ≤ lastPush calls k') ∧
        ∀ r order b', Pops sc b r order b' →
          (AgeOrdered ((b, .pop r order) :: calls) b' ↔
            WalksByAge ((b, .pop r order) :: calls))) := by
  obtain ⟨hs, hc⟩ := hrun.inSync hcap
  refine ⟨hs, hc, fun hw => ⟨hrun.ageOrdered hcap hw, fun item hnew hfull => ?_, ?_⟩⟩
  · exact evict_oldest (hcap.trans_eq hc.symm) hs (hrun.ageOrdered hcap hw) hnew (hc ▸ hfull)
  · intro r order b' hpop
    rw [AgeOrdered, (pops_spec hpop hs).lru]
    exact ⟨fun ho => ⟨ho, hw⟩, fun ho => ho.1⟩

theorem backlog_in_sync_two : ∃ calls, Run byNovelty 3 calls
    (pushAll [branchAt 1 5, branchAt 2 9]) ∧
      AgeOrdered calls (pushAll [branchAt 1 5, branchAt 2 9]) :=
  have hrun : Run byNovelty 3 _ (pushAll [branchAt 1 5, branchAt 2 9]) := .push _ (.push _ .new)
  ⟨_, hrun, ((backlog_in_sync (by decide) hrun).2.2 trivial).1⟩

/-- Three pushes, a pop whose sweep walks the two left keys backwards, and a push. -/
theorem evict_after_sweep : ∃ calls b item k k', Run byNovelty 3 calls b ∧
    item.dedupKey ∉ b.byKey ∧ 3 ≤ b.len ∧ (b.push byNovelty item).2 = some k ∧ k' ∈ b.byKey ∧
      lastPush calls k' < lastPush calls k := by
  have htop : HeapPop (pushAll [branchAt 1 4, branchAt 2 5, branchAt 3 9]).heap ⟨9, 3, (3, 0)⟩
      [⟨5, 2, (2, 0)⟩, ⟨4, 1, (1, 0)⟩] := by
    refine ⟨.refl _, fun e he => ?_⟩
    revert e
    show ∀ e ∈ ([⟨9, 3, (3, 0)⟩, ⟨5, 2, (2, 0)⟩, ⟨4, 1, (1, 0)⟩] : List (ScoredItem Nat)),
      e.score < 9 ∨ e.score = 9 ∧ e.pcTiebreak ≤ 3
    decide
  have hleft : Enumerates [(2, 0), (1, 0)]
      ((pushAll [branchAt 1 4, branchAt 2 5, branchAt 3 9]).byKey.erase (3, 0)) := by
    refine ⟨by decide, fun k => ?_⟩
    rw [← Finmap.mem_keys, show ((pushAll [branchAt 1 4, branchAt 2 5, branchAt 3 9]).byKey.erase
      (3, 0)).keys = {(2, 0), (1, 0)} from rfl]
    simp
  refine ⟨_, _, branchAt 5 1, (2, 0), (1, 0), .push (branchAt 4 1) (.pop
    (.push (branchAt 3 9) (.push (branchAt 2 5) (.push (branchAt 1 4) .new)))
    (.found htop rfl hleft)), ?_, ?_, ?_, ?_, ?_⟩
  · decide
  · decide
  · decide
  · decide
  · decide

end Runs

end Axe.Concolic
