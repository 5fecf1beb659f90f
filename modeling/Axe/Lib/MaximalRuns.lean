import Mathlib.Data.List.Basic

/-!
# Maximal runs

The maximal runs of a list are the stretches of members that satisfy a predicate and that no
member before or behind extends. What is cut into pieces of one width is a list of the pieces.
-/
namespace Axe.MaximalRuns

variable {α : Type} (p : α → Bool)

def runLength (xs : List α) : Nat := (xs.takeWhile p).length

def holdsAt (xs : List α) (i : Nat) : Bool := (xs[i]?).any p

/-- The predicate holds at an index, and not just before it. -/
def startsRun (xs : List α) (i : Nat) : Bool :=
  holdsAt p xs i && !(decide (0 < i) && holdsAt p xs (i - 1))

/-- The runs in their order, each with its first index and its length. -/
def maximalRuns (xs : List α) : List (Nat × Nat) :=
  ((List.range xs.length).filter (startsRun p xs)).map fun i => (i, runLength p (xs.drop i))

/-- The runs that start at an index or behind it; the flag tells whether the predicate holds just
before. -/
def runsFrom : Bool → Nat → List α → List (Nat × Nat)
  | _, _, [] => []
  | before, i, x :: xs =>
    (if p x && !before then [(i, runLength p (x :: xs))] else []) ++ runsFrom (p x) (i + 1) xs

section Runs
variable {p} {xs : List α} {x : α} {before : Bool} {i n : Nat}

theorem runLength_cons_of_pos (h : p x = true) : runLength p (x :: xs) = runLength p xs + 1 := by
  rw [runLength, List.takeWhile_cons_of_pos h, List.length_cons, runLength]

theorem runLength_cons_of_neg (h : p x = false) : runLength p (x :: xs) = 0 := by
  rw [runLength, List.takeWhile_cons_of_neg (by rw [h]; exact Bool.false_ne_true),
    List.length_nil]

theorem runLength_le (xs : List α) : runLength p xs ≤ xs.length :=
  (List.takeWhile_sublist p).length_le

theorem filter_starts_eq_runsFrom (pre : List α) :
    (((List.range' pre.length xs.length).filter (startsRun p (pre ++ xs))).map fun i =>
      (i, runLength p ((pre ++ xs).drop i))) =
      runsFrom p ((pre.getLast?).any p) pre.length xs := by
  induction xs generalizing pre with
  | nil => rfl
  | cons x xs ih =>
    have hnext := ih (pre ++ [x])
    rw [List.append_assoc, List.singleton_append, List.getLast?_concat, Option.any_some,
      List.length_append, List.length_singleton] at hnext
    have hat : holdsAt p (pre ++ x :: xs) pre.length = p x := by
      rw [holdsAt, List.getElem?_append_right (Nat.le_refl _), Nat.sub_self]
      rfl
    have hbefore : (decide (0 < pre.length) && holdsAt p (pre ++ x :: xs) (pre.length - 1)) =
        (pre.getLast?).any p := by
      rcases List.eq_nil_or_concat pre with rfl | ⟨init, y, rfl⟩
      · rfl
      · rw [List.concat_eq_append, List.getLast?_concat, holdsAt, List.append_assoc]
        simp
    rw [List.length_cons, List.range'_succ, List.filter_cons, runsFrom, ← hnext, startsRun, hat,
      hbefore]
    split
    · rw [List.map_cons, List.drop_left]
      rfl
    · rfl

theorem maximalRuns_eq (xs : List α) : maximalRuns p xs = runsFrom p false 0 xs := by
  have h := @filter_starts_eq_runsFrom _ p xs []
  rw [List.nil_append, List.length_nil] at h
  rw [maximalRuns, List.range_eq_range']
  exact h

/-- Only the first run depends on what comes before. -/
theorem runsFrom_false (xs : List α) : runsFrom p false i xs =
    (if 0 < runLength p xs then [(i, runLength p xs)] else []) ++ runsFrom p true i xs := by
  cases xs with
  | nil => rfl
  | cons x xs =>
    cases hx : p x with
    | true => simp [runsFrom, hx, runLength_cons_of_pos hx]
    | false => simp [runsFrom, hx, runLength_cons_of_neg hx]

theorem runsFrom_of_not_starts (h : runLength p xs = 0) :
    runsFrom p before i xs = runsFrom p false i xs := by
  cases before with
  | false => rfl
  | true => rw [runsFrom_false, h, if_neg (Nat.lt_irrefl 0), List.nil_append]

/-- Inside a run nothing starts. -/
theorem runsFrom_true_drop (h : n ≤ runLength p xs) :
    runsFrom p true i xs = runsFrom p true (i + n) (xs.drop n) := by
  induction n generalizing i xs with
  | zero => rfl
  | succ n ih =>
    cases xs with
    | nil => exact absurd h (Nat.not_succ_le_zero n)
    | cons x xs =>
      cases hx : p x with
      | false =>
        rw [runLength_cons_of_neg hx] at h
        exact absurd h (Nat.not_succ_le_zero n)
      | true =>
        rw [runLength_cons_of_pos hx] at h
        have hstep : runsFrom p true i (x :: xs) = runsFrom p true (i + 1) xs := by
          simp [runsFrom, hx]
        rw [hstep, ih (Nat.le_of_succ_le_succ h), List.drop_succ_cons,
          show i + 1 + n = i + (n + 1) by omega]

theorem runLength_drop : runLength p (xs.drop (runLength p xs)) = 0 := by
  rw [runLength, runLength, List.length_eq_zero_iff]
  induction xs with
  | nil => rfl
  | cons x xs ih =>
    cases hx : p x with
    | false =>
      rw [List.takeWhile_cons_of_neg (by rw [hx]; exact Bool.false_ne_true), List.length_nil,
        List.drop_zero, List.takeWhile_cons_of_neg (by rw [hx]; exact Bool.false_ne_true)]
    | true => rw [List.takeWhile_cons_of_pos hx, List.length_cons, List.drop_succ_cons, ih]

/-- The first run, and the runs behind it. -/
theorem runsFrom_split (xs : List α) : runsFrom p false i xs =
    (if 0 < runLength p xs then [(i, runLength p xs)] else []) ++
      runsFrom p false (i + runLength p xs) (xs.drop (runLength p xs)) := by
  rw [runsFrom_false, runsFrom_true_drop (Nat.le_refl _), runsFrom_of_not_starts runLength_drop]

/-- Where no run starts, the runs are those behind. -/
theorem runsFrom_drop_one (h : runLength p xs = 0) :
    runsFrom p false i xs = runsFrom p false (i + 1) (xs.drop 1) := by
  cases xs with
  | nil => rfl
  | cons x xs =>
    cases hx : p x with
    | false => simp [runsFrom, hx]
    | true =>
      rw [runLength_cons_of_pos hx] at h
      exact absurd h (Nat.succ_ne_zero _)

theorem length_le_of_mem_runsFrom {run : Nat × Nat} (h : run ∈ runsFrom p before i xs) :
    run.2 ≤ xs.length := by
  induction xs generalizing before i with
  | nil => exact absurd h List.not_mem_nil
  | cons x xs ih =>
    rw [runsFrom, List.mem_append] at h
    rcases h with h | h
    · split at h
      · rw [List.mem_singleton.mp h]
        exact runLength_le _
      · exact absurd h List.not_mem_nil
    · exact Nat.le_succ_of_le (ih h)

end Runs

/-- The runs of at least a length. -/
def longRuns (least i : Nat) (xs : List α) : List (Nat × Nat) :=
  (runsFrom p false i xs).filter fun run => least ≤ run.2

/-- The indices that a search comes to that goes on behind a long run and else with the next
index, at most `count`. -/
def visits (least : Nat) : (count i : Nat) → List α → List Nat
  | 0, _, _ => []
  | count + 1, i, xs =>
    if xs.length < least then []
    else
      let n := runLength p xs
      i :: if least ≤ n then visits least count (i + n) (xs.drop n)
        else visits least count (i + 1) (xs.drop 1)

section Search
variable {p} {xs : List α} {before : Bool} {i j n least count : Nat} {run : Nat × Nat}

theorem longRuns_few (h : xs.length < least) : longRuns p least i xs = [] := by
  rw [longRuns, List.filter_eq_nil_iff]
  intro run hrun
  have hle := length_le_of_mem_runsFrom hrun
  rw [decide_eq_true_iff]
  omega

theorem longRuns_of_long (hleast : 0 < least) (h : least ≤ runLength p xs) :
    longRuns p least i xs = (i, runLength p xs) ::
      longRuns p least (i + runLength p xs) (xs.drop (runLength p xs)) := by
  rw [longRuns, runsFrom_split, if_pos (by omega), List.singleton_append,
    List.filter_cons_of_pos (by simpa using h), longRuns]

/-- A short run leaves only shorter ones inside. -/
theorem longRuns_of_short (h : runLength p xs < least) :
    longRuns p least i xs = longRuns p least (i + 1) (xs.drop 1) := by
  cases xs with
  | nil => rfl
  | cons x xs =>
    rw [longRuns, longRuns, List.drop_succ_cons, List.drop_zero]
    cases hx : p x with
    | false => simp [runsFrom, hx]
    | true =>
      rw [runLength_cons_of_pos hx] at h
      have hfirst : runsFrom p false i (x :: xs) =
          (i, runLength p (x :: xs)) :: runsFrom p true (i + 1) xs := by
        simp [runsFrom, hx]
      rw [hfirst, runsFrom_false xs, List.filter_cons_of_neg
        (by rw [runLength_cons_of_pos hx]; simpa using h), List.filter_append]
      split
      · rw [List.filter_cons_of_neg (by simp; omega)]
        rfl
      · rfl

theorem le_of_mem_runsFrom (h : run ∈ runsFrom p before i xs) : i ≤ run.1 := by
  induction xs generalizing before i with
  | nil => exact absurd h List.not_mem_nil
  | cons x xs ih =>
    rw [runsFrom, List.mem_append] at h
    rcases h with h | h
    · split at h
      · obtain rfl := List.mem_singleton.mp h
        exact Nat.le_refl _
      · exact absurd h List.not_mem_nil
    · exact Nat.le_of_succ_le (ih h)

/-- The search comes to the indices that are not behind the start of a long run. -/
theorem mem_visits (hleast : 0 < least) (hcount : xs.length ≤ count) :
    j ∈ visits p least count i xs ↔ i ≤ j ∧ j + least ≤ i + xs.length ∧
      ∀ run ∈ longRuns p least i xs, ¬ (run.1 < j ∧ j < run.1 + run.2) := by
  induction count generalizing i xs with
  | zero =>
    refine iff_of_false List.not_mem_nil ?_
    rintro ⟨hi, hj, -⟩
    omega
  | succ count ih =>
    rw [visits]
    by_cases hfew : xs.length < least
    · rw [if_pos hfew]
      refine iff_of_false List.not_mem_nil ?_
      rintro ⟨hi, hj, -⟩
      omega
    · rw [if_neg hfew, List.mem_cons]
      have hle : runLength p xs ≤ xs.length := runLength_le xs
      by_cases hlong : least ≤ runLength p xs
      · rw [if_pos hlong, ih (by rw [List.length_drop]; omega), longRuns_of_long hleast hlong,
          List.forall_mem_cons, List.length_drop]
        have hbehind : ∀ run ∈ longRuns p least (i + runLength p xs) (xs.drop (runLength p xs)),
            i + runLength p xs ≤ run.1 :=
          fun run hrun => le_of_mem_runsFrom (List.mem_filter.mp hrun).1
        constructor
        · rintro (rfl | ⟨hi, hj, hruns⟩)
          · refine ⟨Nat.le_refl _, by omega, by omega, fun run hrun => ?_⟩
            have hrun := hbehind run hrun
            omega
          · exact ⟨by omega, by omega, by omega, hruns⟩
        · rintro ⟨hi, hj, hfirst, hruns⟩
          rcases Nat.eq_or_lt_of_le hi with rfl | hlt
          · exact .inl rfl
          · exact .inr ⟨by omega, by omega, hruns⟩
      · rw [if_neg hlong, ih (by rw [List.length_drop]; omega),
          longRuns_of_short (Nat.not_le.mp hlong), List.length_drop]
        have hbehind : ∀ run ∈ longRuns p least (i + 1) (xs.drop 1), i + 1 ≤ run.1 :=
          fun run hrun => le_of_mem_runsFrom (List.mem_filter.mp hrun).1
        constructor
        · rintro (rfl | ⟨hi, hj, hruns⟩)
          · refine ⟨Nat.le_refl _, by omega, fun run hrun => ?_⟩
            have hrun := hbehind run hrun
            omega
          · exact ⟨by omega, by omega, hruns⟩
        · rintro ⟨hi, hj, hruns⟩
          rcases Nat.eq_or_lt_of_le hi with rfl | hlt
          · exact .inl rfl
          · exact .inr ⟨by omega, by omega, hruns⟩

end Search

/-- The pieces that fit a length. -/
def pieces (width length : Nat) (piece : Nat → α) : List α :=
  (List.range (length / width)).map fun k => piece (width * k)

/-- The pieces from a cursor on as long as they fit and satisfy a predicate, at most `count`. -/
def leading (width length : Nat) (piece : Nat → α) : (count cursor : Nat) → List α
  | 0, _ => []
  | count + 1, cursor =>
    if length < cursor + width then []
    else if p (piece cursor) then
      piece cursor :: leading width length piece count (cursor + width)
    else []

section Pieces
variable {p} {width length count k : Nat} {piece : Nat → α}

theorem length_pieces : (pieces width length piece).length = length / width := by
  rw [pieces, List.length_map, List.length_range]

theorem drop_pieces_of_lt (h : k < length / width) : (pieces width length piece).drop k =
    piece (width * k) :: (pieces width length piece).drop (k + 1) := by
  rw [List.drop_eq_getElem_cons (by rwa [length_pieces])]
  congr 1
  simp [pieces]

theorem drop_pieces_of_le (h : length / width ≤ k) : (pieces width length piece).drop k = [] :=
  List.drop_of_length_le (by rwa [length_pieces])

/-- A cursor at a piece reads the run of the pieces from there. -/
theorem leading_eq (hwidth : 0 < width) (hcount : length / width ≤ k + count) :
    leading p width length piece count (width * k) =
      ((pieces width length piece).drop k).takeWhile p := by
  induction count generalizing k with
  | zero => rw [drop_pieces_of_le (by omega)]; rfl
  | succ count ih =>
    have hfits : ¬ length < width * k + width ↔ k < length / width := by
      have hle := Nat.le_div_iff_mul_le (x := k + 1) (y := length) hwidth
      rw [Nat.add_mul, Nat.one_mul, Nat.mul_comm] at hle
      omega
    rw [leading]
    by_cases hk : k < length / width
    · rw [if_neg (hfits.mpr hk), drop_pieces_of_lt hk]
      cases hp : p (piece (width * k)) with
      | true =>
        rw [if_pos rfl, List.takeWhile_cons_of_pos hp, ← ih (by omega), Nat.mul_succ]
      | false =>
        rw [List.takeWhile_cons_of_neg (by rw [hp]; exact Bool.false_ne_true)]
        exact if_neg Bool.false_ne_true
    · rw [if_pos (Nat.not_le.mp fun hle => hk (hfits.mp (Nat.not_lt.mpr hle))),
        drop_pieces_of_le (Nat.not_lt.mp hk)]
      rfl

end Pieces

end Axe.MaximalRuns
