import Mathlib.Data.List.Nodup
import Mathlib.Data.List.Perm.Subperm
import Mathlib.Data.String.Basic
import Axe.Lib.SortedMap

/-!
# Matching the functions of two binaries

Functions are matched by the fingerprint of their contents, what is left over by address.
-/
namespace Axe.Static

open SortedMap (Sorted)

/-- A fingerprint is a text of hexadecimal digits, so it holds no blank. -/
structure FunctionFingerprint where
  fingerprint : String
  va : Nat
  size : Nat
  imports : List String
  strings : List String
  hex : ∀ c ∈ fingerprint.toList, c ∈ "0123456789abcdef".toList
  deriving DecidableEq

structure FunctionDelta where
  fingerprint : String
  leftVa : Option Nat
  rightVa : Option Nat
  size : Nat
  imports : List String
  strings : List String
  deriving DecidableEq

/-- The part of the report that is about functions. -/
structure DiffReport where
  functionsAdded : List FunctionDelta
  functionsRemoved : List FunctionDelta
  functionsModified : List FunctionDelta
  functionsUnchanged : Nat
  deriving DecidableEq

namespace FunctionFingerprint

/-- The first function of each fingerprint. -/
def byFp (functions : List FunctionFingerprint) : List FunctionFingerprint :=
  functions.foldl (fun acc f => SortedMap.insertNew fingerprint f acc) []

/-- The last function of each address. -/
def byVa (functions : List FunctionFingerprint) : List FunctionFingerprint :=
  SortedMap.ofList va functions

def containsFp (functions : List FunctionFingerprint) (fp : String) : Bool :=
  (SortedMap.get? fingerprint fp (byFp functions)).isSome

def addedDelta (f : FunctionFingerprint) : FunctionDelta :=
  ⟨f.fingerprint, none, some f.va, f.size, f.imports, f.strings⟩

def removedDelta (f : FunctionFingerprint) : FunctionDelta :=
  ⟨f.fingerprint, some f.va, none, f.size, f.imports, f.strings⟩

def modifiedDelta (f g : FunctionFingerprint) : FunctionDelta :=
  ⟨f.fingerprint ++ " → " ++ g.fingerprint, some f.va, some g.va, g.size, g.imports, g.strings⟩

/-- The function of the other side at the same address, if its fingerprint differs. -/
def modifiedMatch (right : List FunctionFingerprint) (f : FunctionFingerprint) :
    Option FunctionFingerprint :=
  (SortedMap.get? va f.va (byVa right)).filter (·.fingerprint ≠ f.fingerprint)

/-- The functions of one side whose fingerprint the other side does not have. -/
def onlyIn (functions others : List FunctionFingerprint) : List FunctionFingerprint :=
  (byFp functions).filter fun f => !containsFp others f.fingerprint

def functionsModified (left right : List FunctionFingerprint) : List FunctionDelta :=
  (onlyIn left right).filterMap fun f => (modifiedMatch right f).map f.modifiedDelta

end FunctionFingerprint

open FunctionFingerprint

def diffFunctions (left right : List FunctionFingerprint) : DiffReport where
  functionsAdded := ((onlyIn right left).map addedDelta).filter fun d =>
    !((functionsModified left right).map FunctionDelta.fingerprint).contains d.fingerprint
  functionsRemoved :=
    ((onlyIn left right).filter fun f => (modifiedMatch right f).isNone).map removedDelta
  functionsModified := functionsModified left right
  functionsUnchanged := ((byFp right).filter fun f => containsFp left f.fingerprint).length

variable {left right functions others : List FunctionFingerprint} {f g : FunctionFingerprint}
  {fp : String} {va : Nat}

def HasFp (functions : List FunctionFingerprint) (fp : String) : Prop :=
  ∃ f ∈ functions, f.fingerprint = fp

def DistinctFps (functions : List FunctionFingerprint) : Prop :=
  (functions.map fingerprint).Nodup

def DistinctVas (functions : List FunctionFingerprint) : Prop :=
  (functions.map FunctionFingerprint.va).Nodup

theorem byFp_ok {acc : List FunctionFingerprint} (hs : Sorted fingerprint acc)
    (functions : List FunctionFingerprint) :
    Sorted fingerprint (functions.foldl (fun acc f => SortedMap.insertNew fingerprint f acc) acc) ∧
      (∀ f ∈ functions.foldl (fun acc f => SortedMap.insertNew fingerprint f acc) acc,
        f ∈ acc ∨ f ∈ functions) ∧
      ∀ fp, (HasFp acc fp ∨ HasFp functions fp) →
        HasFp (functions.foldl (fun acc f => SortedMap.insertNew fingerprint f acc) acc) fp := by
  induction functions generalizing acc with
  | nil =>
    refine ⟨hs, fun f hf => Or.inl hf, ?_⟩
    rintro fp (h | ⟨f, hf, _⟩)
    · exact h
    · exact absurd hf List.not_mem_nil
  | cons head rest ih =>
    obtain ⟨hsorted, hsound, hfps⟩ := ih (SortedMap.sorted_insertNew head hs)
    refine ⟨hsorted, fun f hf => ?_, fun fp h => hfps fp ?_⟩
    · rcases hsound f hf with hf | hf
      · rcases (SortedMap.mem_insertNew hs).mp hf with hf | ⟨rfl, _⟩
        · exact Or.inl hf
        · exact Or.inr List.mem_cons_self
      · exact Or.inr (List.mem_cons_of_mem _ hf)
    · rcases h with ⟨f, hf, hfp⟩ | ⟨f, hf, hfp⟩
      · exact Or.inl ⟨f, (SortedMap.mem_insertNew hs).mpr (Or.inl hf), hfp⟩
      · rcases List.mem_cons.mp hf with rfl | hf
        · by_cases hfresh : ∀ g ∈ acc, g.fingerprint ≠ f.fingerprint
          · exact Or.inl ⟨f, (SortedMap.mem_insertNew hs).mpr (Or.inr ⟨rfl, hfresh⟩), hfp⟩
          · push Not at hfresh
            obtain ⟨g, hg, hgf⟩ := hfresh
            exact Or.inl ⟨g, (SortedMap.mem_insertNew hs).mpr (Or.inl hg), hgf.trans hfp⟩
        · exact Or.inr ⟨f, hf, hfp⟩

theorem sorted_byFp : Sorted fingerprint (byFp functions) :=
  (byFp_ok SortedMap.sorted_nil functions).1

theorem mem_of_mem_byFp (h : f ∈ byFp functions) : f ∈ functions :=
  ((byFp_ok SortedMap.sorted_nil functions).2.1 f h).resolve_left List.not_mem_nil

theorem hasFp_byFp : HasFp (byFp functions) fp ↔ HasFp functions fp := by
  constructor
  · rintro ⟨f, hf, hfp⟩
    exact ⟨f, mem_of_mem_byFp hf, hfp⟩
  · exact fun h => (byFp_ok SortedMap.sorted_nil functions).2.2 fp (Or.inr h)

theorem containsFp_iff : containsFp functions fp = true ↔ HasFp functions fp := by
  rw [containsFp, Option.isSome_iff_exists, ← hasFp_byFp]
  exact exists_congr fun f => SortedMap.get?_eq_some sorted_byFp

theorem nodup_byFp : ((byFp functions).map fingerprint).Nodup :=
  List.pairwise_map.mpr (sorted_byFp.imp fun hlt => hlt.ne)

/-- With distinct fingerprints the map keeps every function. -/
theorem mem_byFp (hd : DistinctFps functions) : f ∈ byFp functions ↔ f ∈ functions := by
  refine ⟨mem_of_mem_byFp, fun hf => ?_⟩
  obtain ⟨g, hg, hgf⟩ := hasFp_byFp.mpr ⟨f, hf, rfl⟩
  rwa [← List.inj_on_of_nodup_map hd (mem_of_mem_byFp hg) hf hgf]

/-- The map is as long as the list when the fingerprints are distinct, else shorter. -/
theorem length_byFp_iff : functions.length = (byFp functions).length ↔ DistinctFps functions := by
  have hnodup : (byFp functions).Nodup := List.Nodup.of_map _ nodup_byFp
  have hsub : List.Subperm (byFp functions) functions :=
    hnodup.subperm fun f hf => mem_of_mem_byFp hf
  constructor
  · intro h
    have hperm := hsub.perm_of_length_le h.le
    exact (hperm.map fingerprint).nodup_iff.mp nodup_byFp
  · intro hd
    have hperm := (List.perm_ext_iff_of_nodup hnodup (List.Nodup.of_map _ hd)).mpr
      fun f => mem_byFp hd
    exact hperm.length_eq.symm

theorem mem_onlyIn : f ∈ onlyIn functions others ↔
    f ∈ byFp functions ∧ ¬ HasFp others f.fingerprint := by
  rw [onlyIn, List.mem_filter, ← containsFp_iff, Bool.not_eq_true', Bool.not_eq_true]

theorem modifiedMatch_eq_some (hd : DistinctVas right) :
    modifiedMatch right f = some g ↔ g ∈ right ∧ g.va = f.va ∧ g.fingerprint ≠ f.fingerprint := by
  have hdistinct : right.Pairwise fun f g => f.va ≠ g.va := List.pairwise_map.mp hd
  rw [modifiedMatch, Option.filter_eq_some_iff, byVa,
    SortedMap.get?_eq_some (SortedMap.sorted_ofList _), SortedMap.mem_ofList hdistinct,
    decide_eq_true_iff, and_assoc]

/-- No listed fingerprint is the text of a pair, so the added functions all stay. -/
theorem functionsAdded_eq :
    (diffFunctions left right).functionsAdded = (onlyIn right left).map addedDelta := by
  refine List.filter_eq_self.mpr fun d hd => ?_
  obtain ⟨g, _, rfl⟩ := List.mem_map.mp hd
  rw [Bool.not_eq_true', List.contains_eq_mem, decide_eq_false_iff_not]
  intro hmem
  obtain ⟨m, hm, hfp⟩ := List.mem_map.mp hmem
  obtain ⟨f, _, hf⟩ := List.mem_filterMap.mp hm
  obtain ⟨g', _, rfl⟩ := Option.map_eq_some_iff.mp hf
  have hblank : ' ' ∈ (addedDelta g).fingerprint.toList := by
    rw [← hfp, modifiedDelta]
    simp
  exact absurd (g.hex ' ' hblank) (by decide)

theorem length_unchanged :
    (diffFunctions left right).functionsUnchanged =
      ((byFp left).filter fun f => containsFp right f.fingerprint).length := by
  have hshared : ∀ l r : List FunctionFingerprint, ∀ fp,
      fp ∈ ((byFp l).filter fun f => containsFp r f.fingerprint).map fingerprint ↔
        HasFp l fp ∧ HasFp r fp := by
    intro l r fp
    have hleft : HasFp (byFp l) fp ↔ HasFp l fp := hasFp_byFp
    rw [List.mem_map, ← hleft]
    constructor
    · rintro ⟨f, hf, rfl⟩
      obtain ⟨hmem, hr⟩ := List.mem_filter.mp hf
      exact ⟨⟨f, hmem, rfl⟩, containsFp_iff.mp hr⟩
    · rintro ⟨⟨f, hf, rfl⟩, hr⟩
      exact ⟨f, List.mem_filter.mpr ⟨hf, containsFp_iff.mpr hr⟩, rfl⟩
  have hnodup : ∀ l r : List FunctionFingerprint,
      (((byFp l).filter fun f => containsFp r f.fingerprint).map fingerprint).Nodup :=
    fun l r => (List.Sublist.map _ List.filter_sublist).nodup nodup_byFp
  have hperm := (List.perm_ext_iff_of_nodup (hnodup right left) (hnodup left right)).mpr
    fun fp => by rw [hshared, hshared, and_comm]
  have hlength := hperm.length_eq
  rwa [List.length_map, List.length_map] at hlength

theorem length_removed_modified (left right : List FunctionFingerprint) :
    (onlyIn left right).length = (diffFunctions left right).functionsRemoved.length +
      (diffFunctions left right).functionsModified.length := by
  have hmodified : (diffFunctions left right).functionsModified.length =
      (onlyIn left right).countP fun f => (modifiedMatch right f).isSome := by
    refine List.length_filterMap_eq_countP.trans (List.countP_congr fun f _ => ?_)
    rw [Option.isSome_map]
  have hremoved : (diffFunctions left right).functionsRemoved.length =
      (onlyIn left right).countP fun f => ¬ (modifiedMatch right f).isSome := by
    rw [diffFunctions, List.length_map, ← List.countP_eq_length_filter]
    refine List.countP_congr fun f _ => ?_
    cases modifiedMatch right f <;> simp
  rw [hmodified, hremoved, Nat.add_comm]
  exact List.length_eq_countP_add_countP _

theorem length_byFp_left :
    (byFp left).length = (diffFunctions left right).functionsUnchanged +
      (diffFunctions left right).functionsRemoved.length +
        (diffFunctions left right).functionsModified.length := by
  rw [length_unchanged, Nat.add_assoc, ← length_removed_modified, onlyIn,
    ← List.countP_eq_length_filter, ← List.countP_eq_length_filter,
    List.length_eq_countP_add_countP fun f => containsFp right f.fingerprint]
  congr 1
  exact List.countP_congr fun f _ => by simp

theorem length_byFp_right (left right : List FunctionFingerprint) :
    (byFp right).length = (diffFunctions left right).functionsUnchanged +
      (diffFunctions left right).functionsAdded.length := by
  rw [functionsAdded_eq, List.length_map, diffFunctions, onlyIn,
    ← List.countP_eq_length_filter, ← List.countP_eq_length_filter,
    List.length_eq_countP_add_countP fun f => containsFp left f.fingerprint]
  congr 1
  exact List.countP_congr fun f _ => by simp

def ExactlyOne (a b c : Prop) : Prop :=
  (a ∧ ¬ b ∧ ¬ c) ∨ (¬ a ∧ b ∧ ¬ c) ∨ (¬ a ∧ ¬ b ∧ c)

def FunctionDelta.swap (d : FunctionDelta) : FunctionDelta :=
  { d with leftVa := d.rightVa, rightVa := d.leftVa }

def DiffReport.NoChange (report : DiffReport) : Prop :=
  report.functionsAdded = [] ∧ report.functionsRemoved = [] ∧ report.functionsModified = []

/-- What the report should say of the two sides. A function whose fingerprint the other side
has counts as unchanged, the others are listed by their addresses. -/
structure Classifies (left right : List FunctionFingerprint) : Prop where
  leftCount : left.length = (diffFunctions left right).functionsUnchanged +
    (diffFunctions left right).functionsRemoved.length +
      (diffFunctions left right).functionsModified.length
  rightCount : right.length = (diffFunctions left right).functionsUnchanged +
    (diffFunctions left right).functionsAdded.length +
      (diffFunctions left right).functionsModified.length
  leftOnce : ∀ f ∈ left, ExactlyOne (HasFp right f.fingerprint)
    (∃ d ∈ (diffFunctions left right).functionsRemoved, d.leftVa = some f.va)
    (∃ d ∈ (diffFunctions left right).functionsModified, d.leftVa = some f.va)
  rightOnce : ∀ g ∈ right, ExactlyOne (HasFp left g.fingerprint)
    (∃ d ∈ (diffFunctions left right).functionsAdded, d.rightVa = some g.va)
    (∃ d ∈ (diffFunctions left right).functionsModified, d.rightVa = some g.va)
  leftSelf : (diffFunctions left left).NoChange
  rightSelf : (diffFunctions right right).NoChange
  swapAdded : (diffFunctions left right).functionsAdded =
    (diffFunctions right left).functionsRemoved.map FunctionDelta.swap
  swapRemoved : (diffFunctions left right).functionsRemoved =
    (diffFunctions right left).functionsAdded.map FunctionDelta.swap

/-- Functions at one address have fingerprints that both sides have. -/
def NoneModified (left right : List FunctionFingerprint) : Prop :=
  ∀ f ∈ left, ∀ g ∈ right, f.va = g.va → HasFp right f.fingerprint ∧ HasFp left g.fingerprint

theorem noChange_self (functions : List FunctionFingerprint) :
    (diffFunctions functions functions).NoChange := by
  have hnone : onlyIn functions functions = [] := by
    refine List.filter_eq_nil_iff.mpr fun f hf => ?_
    rw [Bool.not_eq_true', Bool.not_eq_false, containsFp_iff]
    exact ⟨f, mem_of_mem_byFp hf, rfl⟩
  refine ⟨?_, ?_, ?_⟩
  · rw [functionsAdded_eq, hnone, List.map_nil]
  · simp only [diffFunctions, hnone, List.filter_nil, List.map_nil]
  · simp only [diffFunctions, functionsModified, hnone, List.filterMap_nil]

theorem DistinctVas.eq_of_va (hd : DistinctVas functions) (hf : f ∈ functions)
    (hg : g ∈ functions) (h : f.va = g.va) : f = g :=
  List.inj_on_of_nodup_map hd hf hg h

/-- Nothing is modified when no left function without a match shares its address. -/
theorem functionsModified_eq_nil (hd : DistinctVas right)
    (h : ∀ f ∈ left, ∀ g ∈ right, f.va = g.va → HasFp right f.fingerprint) :
    (diffFunctions left right).functionsModified = [] := by
  refine List.filterMap_eq_nil_iff.mpr fun f hf => ?_
  obtain ⟨hmem, hnot⟩ := mem_onlyIn.mp hf
  rw [Option.map_eq_none_iff]
  cases hmatch : modifiedMatch right f with
  | none => rfl
  | some g =>
    obtain ⟨hg, hva, _⟩ := (modifiedMatch_eq_some hd).mp hmatch
    exact absurd (h f (mem_of_mem_byFp hmem) g hg hva.symm) hnot

/-- Where nothing is modified every function without a match is removed. -/
theorem functionsRemoved_eq (h : (diffFunctions left right).functionsModified = []) :
    (diffFunctions left right).functionsRemoved = (onlyIn left right).map removedDelta := by
  rw [diffFunctions]
  refine congrArg _ (List.filter_eq_self.mpr fun f hf => ?_)
  exact Option.isNone_iff_eq_none.mpr (Option.map_eq_none_iff.mp
    (List.filterMap_eq_nil_iff.mp h f hf))

theorem modified_nil_of_swap (h : (diffFunctions left right).functionsRemoved =
    (diffFunctions right left).functionsAdded.map FunctionDelta.swap) :
    (diffFunctions left right).functionsModified = [] := by
  have hlength := congrArg List.length h
  rw [functionsAdded_eq, List.length_map, List.length_map,
    length_removed_modified left right] at hlength
  exact List.length_eq_zero_iff.mp (by omega)

/-- A left function at the address of a right one has a match, when nothing is modified. -/
theorem hasFp_of_modified_nil (hfp : DistinctFps left) (hd : DistinctVas right)
    (h : (diffFunctions left right).functionsModified = []) (hf : f ∈ left) (hg : g ∈ right)
    (hva : f.va = g.va) : HasFp right f.fingerprint := by
  by_contra hnot
  have honly : f ∈ onlyIn left right := mem_onlyIn.mpr ⟨(mem_byFp hfp).mpr hf, hnot⟩
  have hmatch := Option.map_eq_none_iff.mp (List.filterMap_eq_nil_iff.mp h f honly)
  have hsome := (modifiedMatch_eq_some hd).mpr
    ⟨hg, hva.symm, fun heq => hnot ⟨g, hg, heq⟩⟩
  rw [hmatch] at hsome
  exact absurd hsome.symm (Option.some_ne_none g)

/-- Of the functions of one side, those without a match are listed by their addresses. -/
theorem mem_onlyIn_of_va (hfp : DistinctFps functions) (hd : DistinctVas functions)
    (hf : f ∈ functions) :
    (∃ g ∈ onlyIn functions others, g.va = f.va) ↔ ¬ HasFp others f.fingerprint := by
  constructor
  · rintro ⟨g, hg, hva⟩
    obtain ⟨hmem, hnot⟩ := mem_onlyIn.mp hg
    rwa [← hd.eq_of_va (mem_of_mem_byFp hmem) hf hva]
  · intro hnot
    exact ⟨f, mem_onlyIn.mpr ⟨(mem_byFp hfp).mpr hf, hnot⟩, rfl⟩

theorem diff_classifies_iff (hleft : DistinctVas left) (hright : DistinctVas right) :
    Classifies left right ↔
      DistinctFps left ∧ DistinctFps right ∧ NoneModified left right := by
  constructor
  · intro h
    have hmod := modified_nil_of_swap h.swapRemoved
    have hmod' : (diffFunctions right left).functionsModified = [] := by
      have hlength := congrArg List.length h.swapAdded
      rw [functionsAdded_eq, List.length_map, List.length_map,
        length_removed_modified right left] at hlength
      exact List.length_eq_zero_iff.mp (by omega)
    have hfpl : DistinctFps left :=
      length_byFp_iff.mp (h.leftCount.trans length_byFp_left.symm)
    have hfpr : DistinctFps right := by
      refine length_byFp_iff.mp (h.rightCount.trans ?_)
      rw [hmod, length_byFp_right left right]
      rfl
    refine ⟨hfpl, hfpr, fun f hf g hg hva => ⟨?_, ?_⟩⟩
    · exact hasFp_of_modified_nil hfpl hright hmod hf hg hva
    · exact hasFp_of_modified_nil hfpr hleft hmod' hg hf hva.symm
  · rintro ⟨hfpl, hfpr, hnone⟩
    have hmod := functionsModified_eq_nil hright fun f hf g hg hva => (hnone f hf g hg hva).1
    have hmod' := functionsModified_eq_nil hleft
      fun g hg f hf hva => (hnone f hf g hg hva.symm).2
    have hremoved := functionsRemoved_eq hmod
    have hremoved' := functionsRemoved_eq hmod'
    refine ⟨?_, ?_, fun f hf => ?_, fun g hg => ?_, noChange_self left, noChange_self right,
      ?_, ?_⟩
    · exact (length_byFp_iff.mpr hfpl).trans length_byFp_left
    · rw [hmod, List.length_nil, Nat.add_zero]
      exact (length_byFp_iff.mpr hfpr).trans (length_byFp_right _ _)
    · have hlisted : (∃ d ∈ (diffFunctions left right).functionsRemoved, d.leftVa = some f.va) ↔
          ¬ HasFp right f.fingerprint := by
        rw [hremoved, ← mem_onlyIn_of_va hfpl hleft hf]
        simp [removedDelta]
      rw [ExactlyOne, hlisted, hmod]
      simp
      tauto
    · have hlisted : (∃ d ∈ (diffFunctions left right).functionsAdded, d.rightVa = some g.va) ↔
          ¬ HasFp left g.fingerprint := by
        rw [functionsAdded_eq, ← mem_onlyIn_of_va hfpr hright hg]
        simp [addedDelta]
      rw [ExactlyOne, hlisted, hmod]
      simp
      tauto
    · rw [functionsAdded_eq, hremoved', List.map_map]
      rfl
    · rw [functionsAdded_eq, hremoved, List.map_map]
      rfl

theorem diff_classifies_moved :
    Classifies [⟨"a1", 0x1000, 4, [], [], by simp⟩, ⟨"b2", 0x2000, 8, [], [], by simp⟩]
      [⟨"a1", 0x3000, 4, [], [], by simp⟩, ⟨"c3", 0x4000, 8, [], [], by simp⟩] := by
  refine (diff_classifies_iff (by simp [DistinctVas]) (by simp [DistinctVas])).mpr ⟨?_, ?_, ?_⟩
  · simp [DistinctFps]
  · simp [DistinctFps]
  · intro f hf g hg hva
    simp only [List.mem_cons, List.not_mem_nil, or_false] at hf hg
    rcases hf with rfl | rfl <;> rcases hg with rfl | rfl <;> simp at hva

/-- A function that changed in place is modified and added. -/
theorem changed_in_place_counted_twice :
    DistinctVas [⟨"a1", 0x1000, 4, [], [], by simp⟩] ∧
      DistinctVas [⟨"b2", 0x1000, 8, [], [], by simp⟩] ∧
      ¬ Classifies [⟨"a1", 0x1000, 4, [], [], by simp⟩]
        [⟨"b2", 0x1000, 8, [], [], by simp⟩] := by
  refine ⟨by simp [DistinctVas], by simp [DistinctVas], fun h => ?_⟩
  have hcount := h.rightCount
  exact absurd hcount (by decide +kernel)

end Axe.Static
