import Axe.Lib.Checked
import Axe.Static.Disassembly

/-!
# The ranges that are disassembled

Without unwind entries every executable section is swept whole. With them the code that they
cover is swept an entry at a time, and of every gap between them the beginning.
-/
namespace Axe.Static.DisasmRanges

open Axe.Static.Disassembly

def orphanCap : Nat := 0x20000

def sectionEnd (sect : SectionRecord) : Except Checked.Fault Nat :=
  Checked.add 64 sect.va sect.dataSize

/-- The part of an unwind entry that lies in an executable section. -/
def clip (image : CodeImage) (exc : ExceptionRecord) :
    Except Checked.Fault (Option DisasmRange) :=
  match image.sectionForVa exc.begin with
  | none => .ok none
  | some sect =>
    if !sect.executable then .ok none
    else (sectionEnd sect).map fun stop =>
      let range : DisasmRange := ⟨sect.rva, max exc.begin sect.va, min exc.stop stop⟩
      if range.start < range.stop then some range else none

def gapRange (sect : SectionRecord) (cursor stop : Nat) :
    Except Checked.Fault (List DisasmRange) :=
  if cursor < stop then
    (Checked.add 64 cursor orphanCap).map fun limit => [⟨sect.rva, cursor, min stop limit⟩]
  else .ok []

/-- The gaps that sorted parts leave in a section. -/
def gapRanges (sect : SectionRecord) (stop : Nat) :
    Nat → List (Nat × Nat) → Except Checked.Fault (List DisasmRange)
  | cursor, [] => gapRange sect cursor stop
  | cursor, part :: parts => do
    let first ← gapRange sect cursor part.1
    let rest ← gapRanges sect stop (max cursor part.2) parts
    return first ++ rest

/-- The parts of one section in the order of their bounds. -/
def partsOf (covered : List DisasmRange) (sect : SectionRecord) : List (Nat × Nat) :=
  sortBy toLex ((covered.filter fun range => range.sectionRva = sect.rva).map fun range =>
    (range.start, range.stop))

def orphans (covered : List DisasmRange) (sect : SectionRecord) :
    Except Checked.Fault (List DisasmRange) := do
  let stop ← sectionEnd sect
  gapRanges sect stop sect.va (partsOf covered sect)

def rangeKey (range : DisasmRange) : Nat ×ₗ Nat ×ₗ Nat :=
  toLex (range.sectionRva, toLex (range.start, range.stop))

def executables (image : CodeImage) : List SectionRecord :=
  image.sections.filter fun sect => sect.executable

def disassemblyRanges (image : CodeImage) (exceptions : List ExceptionRecord) :
    Except Checked.Fault (List DisasmRange) :=
  if exceptions.isEmpty then
    (executables image).mapM fun sect =>
      (sectionEnd sect).map fun stop => ⟨sect.rva, sect.va, stop⟩
  else do
    let covered ← exceptions.mapM (clip image)
    let gaps ← (executables image).mapM (orphans covered.reduceOption)
    return sortBy rangeKey (covered.reduceOption ++ gaps.flatten)

/-- The instructions of an image, by its unwind entries. -/
def listing (settings : Settings) (image : CodeImage) (exceptions : List ExceptionRecord) :
    Except Checked.Fault DisasmOutput := do
  let ranges ← disassemblyRanges image exceptions
  disassemble settings image ranges

def Apart (s t : SectionRecord) : Prop := s.va + s.dataSize ≤ t.va ∨ t.va + t.dataSize ≤ s.va

/-- The sections of an image as the loader lays them out. -/
structure Laid (image : CodeImage) : Prop where
  listed : ∀ va sect, image.sectionForVa va = some sect → sect ∈ image.sections
  found : ∀ sect ∈ executables image, image.sectionByRva sect.rva = some sect
  data : ∀ sect ∈ executables image, ∃ data, sect.data image.bytes = .ok data ∧
    data.length = sect.dataSize
  fits : ∀ sect ∈ executables image, sect.va + sect.dataSize + orphanCap < 2 ^ 64
  apart : (executables image).Pairwise Apart

def InSection (sect : SectionRecord) (a : Nat) : Prop := sect.va ≤ a ∧ a < sect.va + sect.dataSize

instance {sect : SectionRecord} {a : Nat} : Decidable (InSection sect a) :=
  inferInstanceAs (Decidable (_ ∧ _))

def part (image : CodeImage) (exc : ExceptionRecord) : Option DisasmRange :=
  (image.sectionForVa exc.begin).bind fun sect =>
    let range : DisasmRange :=
      ⟨sect.rva, max exc.begin sect.va, min exc.stop (sect.va + sect.dataSize)⟩
    if sect.executable && range.start < range.stop then some range else none

def parts (image : CodeImage) (exceptions : List ExceptionRecord) : List DisasmRange :=
  exceptions.filterMap (part image)

def whole (sect : SectionRecord) : DisasmRange := ⟨sect.rva, sect.va, sect.va + sect.dataSize⟩

def ofBounds (sect : SectionRecord) (bounds : Nat × Nat) : DisasmRange :=
  ⟨sect.rva, bounds.1, bounds.2⟩

def gapsOf (covered : List DisasmRange) (sect : SectionRecord) : List DisasmRange :=
  (Tiling.gaps orphanCap (sect.va + sect.dataSize) sect.va (partsOf covered sect)).map
    (ofBounds sect)

def ranges (image : CodeImage) (exceptions : List ExceptionRecord) : List DisasmRange :=
  if exceptions.isEmpty then (executables image).map whole
  else sortBy rangeKey (parts image exceptions ++
    (executables image).flatMap (gapsOf (parts image exceptions)))

/-- An address of an executable section that is disassembled: the unwind entries below it reach
it, or end near enough before it. -/
def Reached (image : CodeImage) (exceptions : List ExceptionRecord) (a : Nat) : Prop :=
  ∃ sect ∈ executables image, InSection sect a ∧ (exceptions = [] ∨
    a < Tiling.reach a sect.va (partsOf (parts image exceptions) sect) + orphanCap)

section
variable {image : CodeImage} {exceptions : List ExceptionRecord} {sect other : SectionRecord}
  {covered : List DisasmRange} {range : DisasmRange} {bounds : Nat × Nat} {cursor stop a : Nat}

theorem add_of_lt {a b : Nat} (h : a + b < 2 ^ 64) : Checked.add 64 a b = .ok (a + b) := if_pos h

theorem mem_executables : sect ∈ executables image ↔
    sect ∈ image.sections ∧ sect.executable = true := List.mem_filter

theorem Laid.clip (h : Laid image) (exc : ExceptionRecord) :
    clip image exc = .ok (part image exc) := by
  rw [DisasmRanges.clip, part]
  cases hsect : image.sectionForVa exc.begin with
  | none => rfl
  | some sect =>
    dsimp only
    rw [Option.bind_some]
    cases hexec : sect.executable with
    | false => rfl
    | true =>
      have hmem := mem_executables.mpr ⟨h.listed _ _ hsect, hexec⟩
      have hfits := h.fits sect hmem
      rw [sectionEnd, add_of_lt (by omega)]
      simp only [Bool.not_true, Bool.false_eq_true, if_false, Bool.true_and, decide_eq_true_eq]
      rfl

theorem mem_parts (h : Laid image) (hr : range ∈ parts image exceptions) :
    ∃ sect ∈ executables image, range.sectionRva = sect.rva ∧ sect.va ≤ range.start ∧
      range.start < range.stop ∧ range.stop ≤ sect.va + sect.dataSize := by
  obtain ⟨exc, -, hpart⟩ := List.mem_filterMap.mp hr
  obtain ⟨sect, hsect, hrange⟩ := Option.bind_eq_some_iff.mp hpart
  obtain ⟨hcond, heq⟩ := Option.ite_none_right_eq_some.mp hrange
  obtain ⟨hexec, hlt⟩ := Bool.and_eq_true_iff.mp hcond
  obtain rfl := Option.some.inj heq
  refine ⟨sect, mem_executables.mpr ⟨h.listed _ _ hsect, hexec⟩, rfl, Nat.le_max_right ..,
    of_decide_eq_true hlt, Nat.min_le_right ..⟩

theorem mem_partsOf : bounds ∈ partsOf covered sect ↔ ofBounds sect bounds ∈ covered := by
  rw [partsOf, (sorts_sortBy _).mem_iff, List.mem_map]
  constructor
  · rintro ⟨range, hmem, rfl⟩
    obtain ⟨hmem, hrva⟩ := List.mem_filter.mp hmem
    have heq : ofBounds sect (range.start, range.stop) = range := by
      rw [ofBounds, ← of_decide_eq_true hrva]
    exact heq ▸ hmem
  · exact fun h => ⟨_, List.mem_filter.mpr ⟨h, decide_eq_true rfl⟩, rfl⟩

/-- The sections with one relative address are one. -/
theorem Laid.eq_of_rva (h : Laid image) (hs : sect ∈ executables image)
    (ho : other ∈ executables image) (hrva : sect.rva = other.rva) : sect = other :=
  Option.some.inj ((h.found sect hs).symm.trans (hrva ▸ h.found other ho))

theorem Laid.eq_of_inSection (h : Laid image) (hs : sect ∈ executables image)
    (ho : other ∈ executables image) (ha : InSection sect a) (hb : InSection other a) :
    sect = other := by
  by_contra hne
  have hsymm : Std.Symm Apart := ⟨fun _ _ hst => Or.symm hst⟩
  have hapart := h.apart.forall hs ho hne
  rw [Apart] at hapart
  rw [InSection] at ha hb
  omega

theorem Laid.partsOf_bounds (h : Laid image) (hs : sect ∈ executables image)
    (hb : bounds ∈ partsOf (parts image exceptions) sect) :
    sect.va ≤ bounds.1 ∧ bounds.1 < bounds.2 ∧ bounds.2 ≤ sect.va + sect.dataSize := by
  obtain ⟨other, ho, hrva, hbounds⟩ := mem_parts h (mem_partsOf.mp hb)
  obtain rfl := h.eq_of_rva hs ho hrva
  exact hbounds

theorem partsOf_sorted : (partsOf covered sect).Pairwise fun p q => p.1 ≤ q.1 := by
  refine (sorts_sortBy _).sorted.imp fun {p q} hle => ?_
  rcases Prod.Lex.toLex_le_toLex.mp hle with hlt | heq
  · exact Nat.le_of_lt hlt
  · exact Nat.le_of_eq heq.1

theorem gapRange_eq (hcap : stop + orphanCap < 2 ^ 64) : gapRange sect cursor stop =
    .ok ((Tiling.gap orphanCap cursor stop).map (ofBounds sect)) := by
  rw [gapRange, Tiling.gap]
  by_cases hlt : cursor < stop
  · rw [if_pos hlt, if_pos hlt, add_of_lt (by omega)]
    rfl
  · rw [if_neg hlt, if_neg hlt]
    rfl

theorem gapRanges_eq {items : List (Nat × Nat)} (hcap : stop + orphanCap < 2 ^ 64)
    (hitems : ∀ item ∈ items, item.1 ≤ stop) : gapRanges sect stop cursor items =
      .ok ((Tiling.gaps orphanCap stop cursor items).map (ofBounds sect)) := by
  induction items generalizing cursor with
  | nil => exact gapRange_eq hcap
  | cons item items ih =>
    have hitem := hitems item List.mem_cons_self
    rw [gapRanges, gapRange_eq (by omega), ih fun i hi => hitems i (List.mem_cons_of_mem _ hi),
      Tiling.gaps, List.map_append]
    rfl

theorem Laid.orphans (h : Laid image) (hs : sect ∈ executables image) :
    orphans (parts image exceptions) sect = .ok (gapsOf (parts image exceptions) sect) := by
  have hfits := h.fits sect hs
  have hgaps := @gapRanges_eq sect sect.va _ (partsOf (parts image exceptions) sect) hfits
    fun item hi => by
      have hbounds := h.partsOf_bounds hs hi
      omega
  rw [DisasmRanges.orphans, sectionEnd, add_of_lt (by omega)]
  exact hgaps

theorem mapM_eq_map {α β : Type} {f : α → Except Checked.Fault β} {g : α → β} {l : List α}
    (h : ∀ x ∈ l, f x = .ok (g x)) : l.mapM f = .ok (l.map g) :=
  (Checked.mapM_congr h).trans List.mapM_pure

theorem Laid.disassemblyRanges (h : Laid image) (exceptions : List ExceptionRecord) :
    disassemblyRanges image exceptions = .ok (ranges image exceptions) := by
  rw [DisasmRanges.disassemblyRanges, ranges]
  by_cases hempty : exceptions.isEmpty = true
  · rw [if_pos hempty, if_pos hempty]
    refine mapM_eq_map fun sect hs => ?_
    have hfits := h.fits sect hs
    rw [sectionEnd, add_of_lt (by omega)]
    rfl
  · have hparts : (exceptions.map (part image)).reduceOption = parts image exceptions := by
      rw [parts, List.reduceOption, List.filterMap_map]
      rfl
    rw [if_neg hempty, if_neg hempty, mapM_eq_map fun exc _ => h.clip exc]
    have hgaps := mapM_eq_map fun sect hs => @Laid.orphans image exceptions sect h hs
    have hbind : ∀ covered, (Except.ok covered >>= fun covered : List (Option DisasmRange) => do
        let gaps ← (executables image).mapM (DisasmRanges.orphans covered.reduceOption)
        return sortBy rangeKey (covered.reduceOption ++ gaps.flatten)) =
      (executables image).mapM (DisasmRanges.orphans covered.reduceOption) >>= fun gaps =>
        .ok (sortBy rangeKey (covered.reduceOption ++ gaps.flatten)) := fun _ => rfl
    rw [hbind, hparts, hgaps, List.flatMap_def]
    rfl

/-- The gap of a section in which an address lies. -/
def InGap (covered : List DisasmRange) (a : Nat) (sect : SectionRecord) : Prop :=
  Tiling.InGap orphanCap (sect.va + sect.dataSize) a (Tiling.reach a sect.va (partsOf covered sect))

instance : Decidable (InGap covered a sect) :=
  inferInstanceAs (Decidable (Tiling.InGap _ _ _ _))

/-- The parts of the unwind entries do not meet. -/
def PartsApart (image : CodeImage) (exceptions : List ExceptionRecord) : Prop :=
  (parts image exceptions).Pairwise fun r s => r.stop ≤ s.start ∨ s.stop ≤ r.start

theorem inRange_iff : inRange a range = true ↔ range.start ≤ a ∧ a < range.stop :=
  Tiling.covers_iff

theorem InGap.inSection (h : InGap covered a sect) : InSection sect a :=
  ⟨Nat.le_trans Tiling.le_reach h.1, h.2.1⟩

theorem Laid.countP_gaps (h : Laid image) (a : Nat) :
    ((executables image).flatMap (gapsOf (parts image exceptions))).countP (inRange a) =
      (executables image).countP fun sect => decide (InGap (parts image exceptions) a sect) := by
  refine Tiling.countP_flatMap fun sect hs => ?_
  have hgaps := @Tiling.countP_gaps orphanCap (sect.va + sect.dataSize) sect.va a _
    (@partsOf_sorted sect (parts image exceptions)) fun bounds hb =>
      (h.partsOf_bounds hs hb).2
  rw [gapsOf, List.countP_map]
  refine Eq.trans hgaps (if_congr ?_ rfl rfl)
  rw [decide_eq_true_iff]
  rfl

theorem Laid.countP_inGap_le (h : Laid image) (a : Nat) : (executables image).countP
    (fun sect => decide (InGap (parts image exceptions) a sect)) ≤ 1 := by
  refine Tiling.countP_le_one (h.apart.imp fun {s t} hst hs ht => ?_)
  have hsa := (of_decide_eq_true hs).inSection
  have hta := (of_decide_eq_true ht).inSection
  rw [InSection] at hsa hta
  rcases hst with hle | hle <;> omega

theorem PartsApart.countP_le (h : PartsApart image exceptions) (a : Nat) :
    (parts image exceptions).countP (inRange a) ≤ 1 := by
  refine Tiling.countP_le_one (h.imp fun {r s} hrs hr hs => ?_)
  rw [inRange_iff] at hr hs
  omega

/-- A part reaches what it covers. -/
theorem lt_reach_of_part (hr : ofBounds sect bounds ∈ covered)
    (ha : inRange a (ofBounds sect bounds) = true) :
    a < Tiling.reach a sect.va (partsOf covered sect) :=
  Tiling.lt_reach_iff.mpr (.inr ⟨bounds, mem_partsOf.mpr hr, ha⟩)

/-- The section of a part that covers an address has the address, and is reached there. -/
theorem Laid.exists_of_part (h : Laid image) (hr : range ∈ parts image exceptions)
    (ha : inRange a range = true) : ∃ sect ∈ executables image, InSection sect a ∧
      a < Tiling.reach a sect.va (partsOf (parts image exceptions) sect) := by
  obtain ⟨sect, hs, hrva, hstart, hlt, hstop⟩ := mem_parts h hr
  have heq : range = ofBounds sect (range.start, range.stop) := by rw [ofBounds, ← hrva]
  have hbounds := inRange_iff.mp ha
  refine ⟨sect, hs, ⟨by omega, by omega⟩, lt_reach_of_part (heq ▸ hr) ?_⟩
  exact heq ▸ ha

theorem Laid.reached_iff (h : Laid image) (hne : exceptions ≠ []) :
    Reached image exceptions a ↔ (∃ range ∈ parts image exceptions, inRange a range = true) ∨
      ∃ sect ∈ executables image, InGap (parts image exceptions) a sect := by
  constructor
  · rintro ⟨sect, hs, ha, hreach⟩
    have hreach := hreach.resolve_left hne
    rcases Nat.lt_or_ge a (Tiling.reach a sect.va (partsOf (parts image exceptions) sect)) with
      hlt | hge
    · rcases Tiling.lt_reach_iff.mp hlt with hlow | ⟨bounds, hb, hcovers⟩
      · exact absurd ha.1 (Nat.not_le_of_lt hlow)
      · exact .inl ⟨ofBounds sect bounds, mem_partsOf.mp hb, hcovers⟩
    · exact .inr ⟨sect, hs, hge, ha.2, hreach⟩
  · rintro (⟨range, hr, ha⟩ | ⟨sect, hs, hgap⟩)
    · obtain ⟨sect, hs, hin, hlt⟩ := h.exists_of_part hr ha
      exact ⟨sect, hs, hin, .inr (Nat.lt_add_right _ hlt)⟩
    · exact ⟨sect, hs, hgap.inSection, .inr hgap.2.2⟩

theorem Laid.countP_whole (h : Laid image) (a : Nat) :
    ((executables image).map whole).countP (inRange a) ≤ 1 ∧
      (0 < ((executables image).map whole).countP (inRange a) ↔
        ∃ sect ∈ executables image, InSection sect a) := by
  have hwhole : ∀ sect, inRange a (whole sect) = true ↔ InSection sect a :=
    fun sect => inRange_iff
  constructor
  · rw [List.countP_map]
    refine Tiling.countP_le_one (h.apart.imp fun {s t} hst hs ht => ?_)
    have hsa := (hwhole s).mp hs
    have hta := (hwhole t).mp ht
    rw [InSection] at hsa hta
    rcases hst with hle | hle <;> omega
  · rw [List.countP_pos_iff]
    constructor
    · rintro ⟨range, hr, ha⟩
      obtain ⟨sect, hs, rfl⟩ := List.mem_map.mp hr
      exact ⟨sect, hs, (hwhole sect).mp ha⟩
    · rintro ⟨sect, hs, ha⟩
      exact ⟨whole sect, List.mem_map_of_mem hs, (hwhole sect).mpr ha⟩

/-- An address is in one range when it is reached, and in none otherwise. -/
theorem Laid.countP_ranges (h : Laid image) (hparts : PartsApart image exceptions) (a : Nat) :
    (ranges image exceptions).countP (inRange a) ≤ 1 ∧
      (0 < (ranges image exceptions).countP (inRange a) ↔ Reached image exceptions a) := by
  rw [ranges]
  by_cases hempty : exceptions = []
  · subst hempty
    rw [if_pos List.isEmpty_nil]
    have hwhole := h.countP_whole a
    refine ⟨hwhole.1, hwhole.2.trans ?_⟩
    simp [Reached]
  · have hperm : (sortBy rangeKey (parts image exceptions ++
        (executables image).flatMap (gapsOf (parts image exceptions)))).countP (inRange a) =
          (parts image exceptions).countP (inRange a) + (executables image).countP
            fun sect => decide (InGap (parts image exceptions) a sect) := by
      rw [← h.countP_gaps a, ← List.countP_append]
      exact (List.mergeSort_perm _ _).countP_eq _
    rw [if_neg (by simpa using hempty), hperm, h.reached_iff hempty]
    have hone := hparts.countP_le a
    have hgap := @Laid.countP_inGap_le image exceptions h a
    -- an address of a part is reached by it, and so in no gap
    have hexcl : 0 < (parts image exceptions).countP (inRange a) → (executables image).countP
        (fun sect => decide (InGap (parts image exceptions) a sect)) = 0 := by
      intro hpos
      obtain ⟨range, hr, ha⟩ := List.countP_pos_iff.mp hpos
      obtain ⟨sect, hs, hin, hlt⟩ := h.exists_of_part hr ha
      rw [List.countP_eq_zero]
      intro other ho hgap
      have hgap := of_decide_eq_true hgap
      obtain rfl := h.eq_of_inSection hs ho hin hgap.inSection
      exact absurd hgap.1 (Nat.not_le_of_lt hlt)
    refine ⟨by omega, ?_⟩
    have hpart : (∃ range ∈ parts image exceptions, inRange a range = true) ↔
      0 < (parts image exceptions).countP (inRange a) := List.countP_pos_iff.symm
    have hsect : (∃ sect ∈ executables image, InGap (parts image exceptions) a sect) ↔
        0 < (executables image).countP
          fun sect => decide (InGap (parts image exceptions) a sect) := by
      rw [List.countP_pos_iff]
      exact exists_congr fun sect => and_congr_right fun _ => decide_eq_true_iff.symm
    rw [hpart, hsect]
    omega

theorem Laid.fits_of_bounds (h : Laid image) (hs : sect ∈ executables image)
    (hrva : range.sectionRva = sect.rva) (hstart : sect.va ≤ range.start)
    (hle : range.start ≤ range.stop) (hstop : range.stop ≤ sect.va + sect.dataSize) :
    Fits image range := by
  obtain ⟨data, hdata, hlength⟩ := h.data sect hs
  have hfits := h.fits sect hs
  exact ⟨sect, data, hrva ▸ h.found sect hs, hdata, hstart, hle, by omega, by omega⟩

theorem Laid.ranges_fit (h : Laid image) (hr : range ∈ ranges image exceptions) :
    Fits image range := by
  rw [ranges] at hr
  split at hr
  · obtain ⟨sect, hs, rfl⟩ := List.mem_map.mp hr
    exact h.fits_of_bounds hs rfl (Nat.le_refl _) (Nat.le_add_right ..) (Nat.le_refl _)
  · rw [(sorts_sortBy _).mem_iff, List.mem_append, List.mem_flatMap] at hr
    rcases hr with hr | ⟨sect, hs, hr⟩
    · obtain ⟨sect, hs, hrva, hstart, hlt, hstop⟩ := mem_parts h hr
      exact h.fits_of_bounds hs hrva hstart (Nat.le_of_lt hlt) hstop
    · obtain ⟨bounds, hb, rfl⟩ := List.mem_map.mp hr
      obtain ⟨hstart, hlt, hstop⟩ := Tiling.mem_gaps (by decide)
        (fun item hi => (h.partsOf_bounds hs hi).2.2)
        (fun item hi => Nat.le_of_lt (Nat.lt_of_lt_of_le (h.partsOf_bounds hs hi).2.1
          (h.partsOf_bounds hs hi).2.2)) hb
      exact h.fits_of_bounds hs rfl hstart (Nat.le_of_lt hlt) hstop

/-- Of an image whose sections and unwind entries lie apart no byte is taken for code twice, all
code that is listed is reached, and what is reached is listed unless a bound stops the sweep. -/
theorem listing_covers (settings : Settings) (h : Laid image)
    (hparts : PartsApart image exceptions) :
    ∃ out, listing settings image exceptions = .ok out ∧
      (∀ a, out.instructions.countP (occupies a) ≤ 1) ∧
      (∀ a, (∃ ins ∈ out.instructions, occupies a ins = true) → Reached image exceptions a) ∧
      (out.capped = false → ∀ a, Reached image exceptions a →
        ∃ ins ∈ out.instructions, occupies a ins = true) := by
  have hfit : ∀ range ∈ ranges image exceptions, Fits image range := fun _ => h.ranges_fit
  have hcount := h.countP_ranges hparts
  have hone := fun a => (hcount a).1
  obtain ⟨s, hs, hscanned⟩ := @exists_scanned settings _ _ (readable_of_fits hfit)
  obtain ⟨out, hout, hdis⟩ := disassembled_of_scanned hscanned hs
  have hle := countP_instructions_le hfit hone hdis
  refine ⟨out, ?_, fun a => Nat.le_trans (hle a) (hone a), fun a hocc => ?_,
    fun hcapped a hreach => ?_⟩
  · rw [listing, h.disassemblyRanges]
    exact hout
  · exact (hcount a).2.mp (Nat.lt_of_lt_of_le (List.countP_pos_iff.mpr hocc) (hle a))
  · rw [← List.countP_pos_iff, countP_instructions hfit hone hdis hcapped]
    exact (hcount a).2.mpr hreach

theorem listing_covers_nopRet : ∃ out,
    listing plain nopRet [⟨0x1000, 0x1001, 0x2000, 0x401000, 0x401001, 0x402000,
      Nat.lt_add_one _⟩] = .ok out ∧
      (∀ a, out.instructions.countP (occupies a) ≤ 1) ∧
      (∀ a, (∃ ins ∈ out.instructions, occupies a ins = true) →
        Reached nopRet [⟨0x1000, 0x1001, 0x2000, 0x401000, 0x401001, 0x402000,
          Nat.lt_add_one _⟩] a) ∧
      (out.capped = false → ∀ a,
        Reached nopRet [⟨0x1000, 0x1001, 0x2000, 0x401000, 0x401001, 0x402000,
          Nat.lt_add_one _⟩] a → ∃ ins ∈ out.instructions, occupies a ins = true) := by
  refine listing_covers plain ⟨fun va sect h => ?_, fun sect hs => ?_, fun sect hs => ?_,
    fun sect hs => ?_, List.pairwise_singleton _ _⟩ (List.pairwise_singleton _ _)
  · have hsect := (Option.ite_none_right_eq_some.mp h).2
    exact Option.some.inj hsect ▸ List.mem_singleton_self _
  · obtain rfl := List.mem_singleton.mp hs
    rfl
  · obtain rfl := List.mem_singleton.mp hs
    exact ⟨[0x90, 0xC3], rfl, rfl⟩
  · obtain rfl := List.mem_singleton.mp hs
    decide

end
end Axe.Static.DisasmRanges
