import Axe.Fuzzer.Mutators

/-!
# Mutations never fault

The generator never reaches zero, since a shift by less than the width fixes only zero. Every
operation keeps its indices inside the buffer, and what a splice and a dictionary mutation report
stands in their output.
-/
namespace Axe.Fuzzer

open Checked (Fault slice)
open Stateful (Ensures ensures_pure ensures_lift ensures_ite ensures_repeatFor lift)

section Generator
variable {x : BitVec 64} {k n : Nat}

theorem shiftLeft_fixed (hk : 0 < k) (h : x ^^^ x <<< k = 0) : x = 0 := by
  have hx : x = x <<< k := BitVec.xor_eq_zero_iff.mp h
  have hiter : ∀ n, x = x <<< (k * n) := by
    intro n
    induction n with
    | zero => rw [Nat.mul_zero, BitVec.shiftLeft_zero]
    | succ n ih =>
      rw [Nat.mul_succ, BitVec.shiftLeft_add, ← ih]
      exact hx
  rw [hiter 64]
  exact BitVec.shiftLeft_eq_zero (Nat.le_mul_of_pos_left 64 hk)

theorem shiftRight_fixed (hk : 0 < k) (h : x ^^^ x >>> k = 0) : x = 0 := by
  have hx : x = x >>> k := BitVec.xor_eq_zero_iff.mp h
  have hiter : ∀ n, x = x >>> (k * n) := by
    intro n
    induction n with
    | zero => rw [Nat.mul_zero, BitVec.ushiftRight_zero]
    | succ n ih =>
      rw [Nat.mul_succ, BitVec.shiftRight_add, ← ih]
      exact hx
  rw [hiter 64]
  exact BitVec.ushiftRight_eq_zero (Nat.le_mul_of_pos_left 64 hk)

/-- A step of the generator keeps its state away from zero. -/
theorem advance_ne_zero (h : x ≠ 0) : Xorshift64.advance x ≠ 0 := by
  intro hzero
  have h3 := shiftLeft_fixed (by decide) hzero
  have h2 := shiftRight_fixed (by decide) h3
  exact h (shiftLeft_fixed (by decide) h2)

theorem new_ne_zero (seed : BitVec 64) : (Xorshift64.new seed).state ≠ 0 := by
  unfold Xorshift64.new
  split
  · decide
  · assumption

/-- The states after some steps of the generator. -/
theorem iterate_ne_zero (seed : BitVec 64) (n : Nat) :
    Xorshift64.advance^[n] (Xorshift64.new seed).state ≠ 0 := by
  induction n with
  | zero => exact new_ne_zero seed
  | succ n ih =>
    rw [Function.iterate_succ_apply']
    exact advance_ne_zero ih

def NonZero (rng : Xorshift64) : Prop := rng.state ≠ 0

theorem nextU64_safe : Ensures NonZero nextU64 fun _ => True := fun _ hrng =>
  ⟨_, ⟨_⟩, rfl, advance_ne_zero hrng, trivial⟩

theorem range_cases (n : Nat) :
    Ensures NonZero (range n) fun i => n = 0 ∧ i = 0 ∨ 0 < n ∧ i < n := by
  unfold range
  refine ensures_ite (fun hn => ensures_pure (.inl ⟨hn, rfl⟩)) fun hn => ?_
  have hpos : 0 < n := Nat.pos_of_ne_zero hn
  exact nextU64_safe.bind fun x _ => ensures_pure (.inr ⟨hpos, Nat.mod_lt _ hpos⟩)

theorem range_safe (n : Nat) : Ensures NonZero (range n) fun i => 0 < n → i < n :=
  (range_cases n).mono fun i hi hn => by omega

theorem nextU8_safe : Ensures NonZero nextU8 fun _ => True :=
  nextU64_safe.bind fun _ _ => ensures_pure trivial

theorem nextBool_safe : Ensures NonZero nextBool fun _ => True :=
  nextU64_safe.bind fun _ _ => ensures_pure trivial

end Generator

section Havoc
variable {buf : List UInt8} {idx pos start stop : Nat}

/-- What a checked operation gives. -/
theorem lift_safe {α : Type} {r : Except Fault α} {a : α} (h : r = .ok a) :
    Ensures NonZero (lift r) fun b => b = a := ensures_lift h rfl

theorem modifyAt_safe (f : UInt8 → UInt8) (h : idx < buf.length) :
    Ensures NonZero (lift (modifyAt buf idx f)) fun _ => True := by
  have hok : modifyAt buf idx f = .ok (buf.set idx (f buf[idx])) := by
    rw [modifyAt, List.getElem?_eq_getElem h]
  exact ensures_lift hok trivial

theorem minus_safe {a b : Nat} (h : b ≤ a) : Ensures NonZero (lift (minus a b)) fun d => d = a - b :=
  lift_safe (if_pos h)

theorem insertAt_safe {b : UInt8} (h : pos ≤ buf.length) :
    Ensures NonZero (lift (insertAt buf pos b)) fun out => out.length = buf.length + 1 := by
  refine ensures_lift (if_pos h) ?_
  rw [List.length_append, List.length_cons, List.length_take, List.length_drop]
  omega

theorem slice_safe (h : start ≤ stop) (hstop : stop ≤ buf.length) :
    Ensures NonZero (lift (slice buf start stop))
      fun out => out = (buf.drop start).take (stop - start) :=
  lift_safe (if_pos ⟨h, hstop⟩)

theorem copyFromSlice_safe {bytes : List UInt8} (h : start ≤ stop) (hstop : stop ≤ buf.length)
    (hlen : bytes.length = stop - start) :
    Ensures NonZero (lift (copyFromSlice buf start stop bytes))
      fun out => out = buf.take start ++ bytes ++ buf.drop stop :=
  lift_safe (if_pos ⟨h, hstop, hlen⟩)

theorem havocByteFlip_safe (buf : List UInt8) :
    Ensures NonZero (havocByteFlip buf) fun _ => True := by
  unfold havocByteFlip
  refine ensures_ite (fun _ => ensures_pure trivial) fun hne => ?_
  have hpos := List.length_pos_iff.mpr hne
  refine (range_safe _).bind fun idx hidx => (range_safe 8).bind fun bit hbit => ?_
  have hmask : bitMask bit = .ok (UInt8.ofNat (2 ^ bit)) := if_pos (hbit (by decide))
  exact (lift_safe hmask).bind fun mask _ => modifyAt_safe _ (hidx hpos)

theorem havocByteArith_safe (plus : Bool) (buf : List UInt8) :
    Ensures NonZero (havocByteArith plus buf) fun _ => True := by
  unfold havocByteArith
  refine ensures_ite (fun _ => ensures_pure trivial) fun hne => ?_
  have hpos := List.length_pos_iff.mpr hne
  refine (range_safe _).bind fun idx hidx => (range_safe 35).bind fun delta _ => ?_
  exact modifyAt_safe _ (hidx hpos)

theorem havocByteXor_safe (buf : List UInt8) :
    Ensures NonZero (havocByteXor buf) fun _ => True := by
  unfold havocByteXor
  refine ensures_ite (fun _ => ensures_pure trivial) fun hne => ?_
  have hpos := List.length_pos_iff.mpr hne
  refine (range_safe _).bind fun idx hidx => nextU8_safe.bind fun x _ => ?_
  exact modifyAt_safe _ (hidx hpos)

theorem havocByteOverwrite_safe (buf : List UInt8) :
    Ensures NonZero (havocByteOverwrite buf) fun _ => True := by
  unfold havocByteOverwrite
  refine ensures_ite (fun _ => ensures_pure trivial) fun hne => ?_
  have hpos := List.length_pos_iff.mpr hne
  refine (range_safe _).bind fun idx hidx => nextU8_safe.bind fun x _ => ?_
  exact modifyAt_safe _ (hidx hpos)

/-- Every round of the insertion grows the buffer, so the next position is inside. -/
theorem havocInsert_safe (buf : List UInt8) :
    Ensures NonZero (havocInsert buf) fun _ => True := by
  unfold havocInsert
  refine (range_safe _).bind fun pos hpos => (range_safe 8).bind fun n _ => ?_
  have hle : pos < buf.length + 1 := hpos (Nat.succ_pos _)
  refine (ensures_repeatFor (J := fun i out => out.length = buf.length + i) (fun i out hout => ?_)
    (1 + n) 0 (Nat.add_zero buf.length).symm).mono fun _ _ => trivial
  refine nextU8_safe.bind fun x _ => (insertAt_safe (by omega)).mono fun out' hout' => ?_
  omega

theorem havocDelete_safe (buf : List UInt8) :
    Ensures NonZero (havocDelete buf) fun _ => True := by
  unfold havocDelete
  refine ensures_ite (fun _ => ensures_pure trivial) fun hlen => ?_
  refine (range_safe _).bind fun pos hpos => (range_safe 8).bind fun n _ => ?_
  have hlt : pos < buf.length := hpos (by omega)
  refine (minus_safe (Nat.le_of_lt hlt)).bind fun rest hrest => ?_
  have hok : drain buf pos (pos + min (1 + n) rest) =
      .ok (buf.take pos ++ buf.drop (pos + min (1 + n) rest)) := if_pos (by omega)
  exact (lift_safe hok).mono fun _ _ => trivial

theorem havocChunkSwap_safe (buf : List UInt8) :
    Ensures NonZero (havocChunkSwap buf) fun _ => True := by
  unfold havocChunkSwap
  refine ensures_ite (fun _ => ensures_pure trivial) fun hlen => ?_
  refine (range_safe _).bind fun chunk hchunk => ?_
  have hle : 1 + chunk ≤ buf.length := by
    have := hchunk (by omega)
    omega
  refine (minus_safe hle).bind fun rest hrest => (range_safe _).bind fun src hsrc => ?_
  refine (minus_safe hle).bind fun rest' hrest' => (range_safe _).bind fun dst hdst => ?_
  have hsrc' := hsrc (Nat.succ_pos _)
  have hdst' := hdst (Nat.succ_pos _)
  refine ensures_ite (fun _ => ensures_pure trivial) fun _ => ?_
  refine (slice_safe (by omega) (by omega)).bind fun scratch hscratch => ?_
  refine (copyFromSlice_safe (by omega) (by omega) ?_).mono fun _ _ => trivial
  rw [hscratch, List.length_take, List.length_drop]
  omega

theorem havocStep_safe (op : Nat) (buf : List UInt8) :
    Ensures NonZero (havocStep op buf) fun _ => True := by
  unfold havocStep
  split
  · exact havocByteFlip_safe buf
  · exact havocByteArith_safe true buf
  · exact havocByteArith_safe false buf
  · exact havocByteOverwrite_safe buf
  · exact havocInsert_safe buf
  · exact havocDelete_safe buf
  · exact havocByteXor_safe buf
  · exact havocChunkSwap_safe buf

theorem applyHavoc_safe (input : Input) : Ensures NonZero (applyHavoc input) fun _ => True := by
  unfold applyHavoc
  refine (range_safe 4).bind fun n _ => ?_
  refine ensures_repeatFor (J := fun _ _ => True) (fun _ buf _ => ?_) (1 + n) 0 trivial
  exact (range_safe 8).bind fun op _ => havocStep_safe op buf

end Havoc

section Reports
variable {input : Input} {tokens : List (List UInt8)}

/-- A front part of the input and a back part of a member of the pool that is not empty. -/
def Spliced (input : Input) (pool : List Input) (out : List UInt8) : Prop :=
  ∃ other ∈ pool, ∃ front back, front <+: input ∧ back <:+ other ∧ back ≠ [] ∧ out = front ++ back

theorem placeBelow_safe {n : Nat} (hn : n ≤ input.length + 1) :
    Ensures NonZero (placeBelow input n) fun i => i ≤ input.length := by
  unfold placeBelow
  refine ensures_ite (fun _ => ensures_pure (Nat.zero_le _)) fun hne => ?_
  exact (range_cases n).mono fun i hi => by omega

theorem spliceFrom_safe (input : Input) (pool : List Input) :
    Ensures NonZero (spliceFrom input pool) fun out => ∀ v, out = some v → Spliced input pool v := by
  unfold spliceFrom
  refine ensures_ite (fun _ => ensures_pure fun _ h => nomatch h) fun hne => ?_
  refine (range_safe _).bind fun idx hidx => ?_
  have hlt : idx < pool.length := hidx (List.length_pos_iff.mpr hne)
  rw [List.getElem?_eq_getElem hlt]
  refine ensures_ite (fun _ => ensures_pure fun _ h => nomatch h) fun hother => ?_
  refine (placeBelow_safe (Nat.le_succ _)).bind fun splitA hA => (range_safe _).bind fun splitB hB => ?_
  have hB' : splitB < pool[idx].length := hB (List.length_pos_iff.mpr hother)
  refine (minus_safe hB'.le).bind fun rest hrest => ?_
  refine (slice_safe (Nat.zero_le _) hA).bind fun front hfront => ?_
  refine (slice_safe (by omega) (by omega)).bind fun back hback => ensures_pure ?_
  rintro v ⟨⟩
  refine ⟨pool[idx], List.getElem_mem hlt, front, back, ?_, ?_, ?_, rfl⟩
  · rw [hfront, List.drop_zero]
    exact List.take_prefix _ _
  · rw [hback, List.take_of_length_le (by rw [List.length_drop]; omega)]
    exact List.drop_suffix _ _
  · rw [hback, ← List.length_pos_iff, List.length_take, List.length_drop]
    omega

theorem pickToken_safe (tokens : List (List UInt8)) :
    Ensures NonZero (pickToken tokens) fun out => ∀ t, out = some t → t ∈ tokens := by
  unfold pickToken
  refine ensures_ite (fun _ => ensures_pure fun _ h => nomatch h) fun hne => ?_
  refine (range_safe _).bind fun idx hidx => ?_
  have hlt : idx < tokens.length := hidx (List.length_pos_iff.mpr hne)
  rw [List.getElem?_eq_getElem hlt]
  refine ensures_pure ?_
  rintro t ⟨⟩
  exact List.getElem_mem hlt

/-- By induction on the token, its bytes come to stand in a row. -/
theorem insertAll_eq (token : List UInt8) : ∀ {pos : Nat} {buf : List UInt8}, pos ≤ buf.length →
    insertAll pos token buf = .ok (buf.take pos ++ token ++ buf.drop pos) := by
  induction token with
  | nil =>
    intro pos buf hpos
    rw [List.append_nil, List.take_append_drop]
    rfl
  | cons b rest ih =>
    intro pos buf hpos
    have hfirst : insertAt buf pos b = .ok (buf.take pos ++ b :: buf.drop pos) := if_pos hpos
    have hlen : (buf.take pos).length = pos := by
      rw [List.length_take]
      omega
    have hmore : pos + 1 ≤ (buf.take pos ++ b :: buf.drop pos).length := by
      rw [List.length_append, List.length_cons, hlen]
      omega
    rw [insertAll, hfirst]
    show insertAll (pos + 1) rest _ = _
    have htake : (buf.take pos).take (pos + 1) = buf.take pos :=
      List.take_of_length_le (by rw [hlen]; exact Nat.le_succ pos)
    have hdrop : (buf.take pos).drop (pos + 1) = [] :=
      List.drop_eq_nil_of_le (by rw [hlen]; exact Nat.le_succ pos)
    rw [ih hmore, List.take_append, List.drop_append, hlen, Nat.add_sub_cancel_left, htake, hdrop]
    simp only [List.take_succ_cons, List.take_zero, List.drop_succ_cons, List.drop_zero,
      List.append_assoc, List.cons_append, List.nil_append]

theorem placeToken_safe (input : Input) (token : List UInt8) :
    Ensures NonZero (placeToken input token) fun out => token <:+: out := by
  unfold placeToken
  refine (placeBelow_safe (Nat.le_refl _)).bind fun pos hpos => nextBool_safe.bind fun insertion _ => ?_
  refine ensures_ite (fun _ => ?_) fun hroom => ?_
  · exact ensures_lift (insertAll_eq token hpos) ⟨_, _, rfl⟩
  · rw [not_or, Nat.not_lt] at hroom
    refine (copyFromSlice_safe (by omega) hroom.2 (by omega)).mono ?_
    rintro out rfl
    exact ⟨_, _, rfl⟩

theorem applyBoundaryValue_safe (input : Input) :
    Ensures NonZero (applyBoundaryValue input) fun _ => True := by
  unfold applyBoundaryValue
  refine ensures_ite (fun _ => ensures_pure trivial) fun hlen => ?_
  refine (minus_safe (by omega)).bind fun rest hrest => (range_safe _).bind fun pos hpos => ?_
  have hlt := hpos (by omega)
  refine nextU64_safe.bind fun x _ => ?_
  refine (copyFromSlice_safe (by omega) (by omega) ?_).mono fun _ _ => trivial
  rw [leBytes, List.length_map, List.length_range]
  omega

/-- What is reported of a mutation that starts with the generator in some state. -/
structure Reported (input : Input) (ctx : MutateCtx) (rng : Xorshift64) (out : List UInt8)
    (applied : Mutator) : Prop where
  splice : applied = .splice → Spliced input ctx.splicePool out
  dict : applied = .dict → ∃ token rng', pickToken ctx.dict rng = .ok (some token, rng') ∧
    token ∈ ctx.dict ∧ token <:+: out

theorem reported_havoc {ctx : MutateCtx} {rng : Xorshift64} {out : List UInt8} :
    Reported input ctx rng out .havoc := ⟨(fun h => nomatch h), (fun h => nomatch h)⟩

/-- A mutation ends without a fault, and its report is right. -/
theorem applyMutation_reports (input : Input) (mutator : Mutator) (ctx : MutateCtx)
    (rng : Xorshift64) (hrng : NonZero rng) : ∃ out applied rng',
      applyMutation input mutator ctx rng = .ok ((out, applied), rng') ∧ NonZero rng' ∧
        Reported input ctx rng out applied := by
  have hhavoc : ∀ rng, NonZero rng → ∃ out rng',
      (do return (← applyHavoc input, Mutator.havoc) : Draw (List UInt8 × Mutator)) rng =
        .ok ((out, .havoc), rng') ∧ NonZero rng' := fun rng hrng => by
    obtain ⟨out, rng', hrun, hrng', -⟩ := applyHavoc_safe input rng hrng
    exact ⟨out, rng', Stateful.bind_of_ok hrun, hrng'⟩
  cases mutator with
  | havoc | cmpGuided =>
    obtain ⟨out, rng', hrun, hrng'⟩ := hhavoc rng hrng
    exact ⟨out, .havoc, rng', hrun, hrng', reported_havoc⟩
  | boundaryValue =>
    obtain ⟨out, rng', hrun, hrng', -⟩ := applyBoundaryValue_safe input rng hrng
    exact ⟨out, .boundaryValue, rng', Stateful.bind_of_ok hrun, hrng',
      ⟨(fun h => nomatch h), (fun h => nomatch h)⟩⟩
  | splice =>
    obtain ⟨found, rng₁, hrun, hrng₁, hfound⟩ := spliceFrom_safe input ctx.splicePool rng hrng
    cases found with
    | none =>
      obtain ⟨out, rng', hrun', hrng'⟩ := hhavoc rng₁ hrng₁
      exact ⟨out, .havoc, rng', (Stateful.bind_of_ok hrun).trans hrun', hrng', reported_havoc⟩
    | some out =>
      exact ⟨out, .splice, rng₁, Stateful.bind_of_ok hrun, hrng₁,
        ⟨fun _ => hfound out rfl, (fun h => nomatch h)⟩⟩
  | dict =>
    obtain ⟨found, rng₁, hpick, hrng₁, hfound⟩ := pickToken_safe ctx.dict rng hrng
    cases found with
    | none =>
      have hrun : applyDict input ctx.dict rng = .ok (none, rng₁) := Stateful.bind_of_ok hpick
      obtain ⟨out, rng', hrun', hrng'⟩ := hhavoc rng₁ hrng₁
      exact ⟨out, .havoc, rng', (Stateful.bind_of_ok hrun).trans hrun', hrng', reported_havoc⟩
    | some token =>
      obtain ⟨out, rng', hplace, hrng', hout⟩ := placeToken_safe input token rng₁ hrng₁
      have hrun : applyDict input ctx.dict rng = .ok (some out, rng') :=
        (Stateful.bind_of_ok hpick).trans (Stateful.bind_of_ok hplace)
      exact ⟨out, .dict, rng', Stateful.bind_of_ok hrun, hrng',
        ⟨(fun h => nomatch h), fun _ => ⟨token, rng₁, hpick, hfound token rfl, hout⟩⟩⟩

/-- A random mutation never faults and stays within the length, what it reports is right before
the cut, and no run of the generator reaches zero. -/
theorem applyRandomMutation_total (input : Input) (ctx : MutateCtx) (seed : BitVec 64) (n : Nat) :
    Xorshift64.advance^[n] (Xorshift64.new seed).state ≠ 0 ∧
    ∃ mutator rng₁ out applied rng',
      applyMutation input mutator ctx rng₁ = .ok ((out, applied), rng') ∧
      Reported input ctx rng₁ out applied ∧
      applyRandomMutation input ctx ⟨Xorshift64.advance^[n] (Xorshift64.new seed).state⟩ =
        .ok ((out.take ctx.maxLen, applied), rng') ∧
      (out.take ctx.maxLen).length ≤ ctx.maxLen ∧ NonZero rng' := by
  have hstate := iterate_ne_zero seed n
  refine ⟨hstate, ?_⟩
  obtain ⟨pick, rng₁, hpick, hrng₁, -⟩ := range_safe 10 ⟨_⟩ hstate
  obtain ⟨out, applied, rng', hrun, hrng', hreport⟩ :=
    applyMutation_reports input (pickMutator pick) ctx rng₁ hrng₁
  refine ⟨pickMutator pick, rng₁, out, applied, rng', hrun, hreport, ?_, ?_, hrng'⟩
  · exact (Stateful.bind_of_ok hpick).trans (Stateful.bind_of_ok hrun)
  · rw [List.length_take]
    exact Nat.min_le_left _ _

end Reports

end Axe.Fuzzer
