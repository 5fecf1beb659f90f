import Mathlib.Algebra.Order.Ring.Unbundled.Rat
import Mathlib.Data.String.Basic
import Mathlib.Order.OrderDual
import Axe.Facts.Claims
import Axe.Lib.OrderedMap
import Axe.Lib.Unions

/-!
# Merging the facts about classes

The facts about one class are sorted by their confidence. The merged fact has the union of their
lists, and for the name and the size the claim with the greatest confidence.
-/
namespace Axe.Cpp

open Axe.Facts (Claim ClaimSource Confidence EvidenceRef)
open Axe.Unions

inductive CppAbi
  | msvc | itanium | unknown
  deriving DecidableEq

structure VTableFact where
  vftableVa : Nat
  subobjectOffset : Int
  slots : List Nat
  forBase : Option String
  source : ClaimSource
  deriving DecidableEq

structure BaseClassFact where
  baseClassId : String
  baseName : Claim String
  offset : Claim Int
  virtualBase : Bool
  vbtableOffset : Option Int
  deriving DecidableEq

structure FieldFact where
  offset : Nat
  size : Claim Nat
  name : Option (Claim String)
  typeGuess : Option (Claim String)
  accessSites : List Nat
  deriving DecidableEq

structure MethodFact where
  functionVa : Nat
  name : Option (Claim String)
  vtableVa : Option Nat
  vtableSlot : Option Nat
  isVirtual : Bool
  isThunk : Bool
  adjustorOffset : Option Int
  deriving DecidableEq

structure ClassFact where
  schema : String
  classId : String
  demangledName : Option (Claim String)
  mangledName : Option String
  size : Option (Claim Nat)
  abi : CppAbi
  vtables : List VTableFact
  bases : List BaseClassFact
  fields : List FieldFact
  methods : List MethodFact
  constructors : List Nat
  destructors : List Nat
  claim : Claim Unit
  contributingSources : List ClaimSource
  deriving DecidableEq

def ClassFact.score (fact : ClassFact) : Rat := fact.claim.score

/-- The facts of one class, at least one. -/
abbrev Group := { group : List ClassFact // group ≠ [] }

def pushFact (fact : ClassFact) (group : Option Group) : Group :=
  ⟨group.elim [] Subtype.val ++ [fact], by simp⟩

def grouped (facts : List ClassFact) : OrderedMap String Group :=
  facts.foldl (fun groups fact => groups.upsert fact.classId (pushFact fact)) .empty

/-- The greatest confidence first. -/
def byConfidence (group : List ClassFact) : List ClassFact :=
  sortBy (fun fact => OrderDual.toDual fact.score) group

def pickHighestNamed {α : Type} (extract : ClassFact → Option (Claim α))
    (group : List ClassFact) : Option (Claim α) :=
  maxBy Claim.score (group.filterMap extract)

/-- A field with what another one at its offset adds. -/
def FieldFact.absorb (existing field : FieldFact) : FieldFact :=
  { existing with
    size := if existing.size.score < field.size.score then field.size else existing.size
    accessSites := existing.accessSites ++ field.accessSites
    name := existing.name.or field.name
    typeGuess := existing.typeGuess.or field.typeGuess }

def fieldsByOffset (fields : List FieldFact) : OrderedMap Nat FieldFact :=
  fields.foldl (fun byOffset field => byOffset.upsert field.offset fun existing =>
    existing.elim field (·.absorb field)) .empty

def mergeFields (group : List ClassFact) : List FieldFact :=
  (fieldsByOffset (group.flatMap (·.fields))).rows.map fun row =>
    { row.2 with accessSites := sortedSet row.2.accessSites }

/-- The merged fact of a sorted group with its first member. -/
def combine (winner : ClassFact) (group : List ClassFact) : ClassFact :=
  { winner with
    demangledName := pickHighestNamed (·.demangledName) group
    mangledName := winner.mangledName.or (group.findSome? (·.mangledName))
    size := pickHighestNamed (·.size) group
    abi := ((group.find? fun fact => fact.abi ≠ .unknown).map (·.abi)).getD winner.abi
    vtables := unseen (·.vftableVa) [] (group.flatMap (·.vtables))
    bases := unseen (·.baseClassId) [] (group.flatMap (·.bases))
    fields := mergeFields group
    methods := unseen (·.functionVa) [] (group.flatMap (·.methods))
    constructors := sortedSet (group.flatMap (·.constructors))
    destructors := sortedSet (group.flatMap (·.destructors))
    contributingSources := sortedSet (group.flatMap (·.contributingSources))
    claim :=
      { value := ()
        source := winner.claim.source
        confidence := Confidence.fromScore ((group.map ClassFact.score).foldl max 0)
        evidence := group.flatMap (·.claim.evidence) } }

theorem byConfidence_ne_nil (group : Group) : byConfidence group.1 ≠ [] := fun h => by
  have hlength := (List.mergeSort_perm group.1
    (fun a b => decide (OrderDual.toDual a.score ≤ OrderDual.toDual b.score))).length_eq
  rw [byConfidence, sortBy] at h
  rw [h] at hlength
  exact group.2 (List.length_eq_zero_iff.mp hlength.symm)

def mergeGroup (group : Group) : ClassFact :=
  combine ((byConfidence group.1).head (byConfidence_ne_nil group)) (byConfidence group.1)

def merge (facts : List ClassFact) : List ClassFact :=
  (grouped facts).rows.map fun row => mergeGroup row.2

/-- The list of a merged fact has the keys of the lists of the group, each once. -/
structure Unites {α κ : Type} (key : α → κ) (list : ClassFact → List α) (group : List ClassFact)
    (fact : ClassFact) : Prop where
  mem_keys : ∀ k, k ∈ (list fact).map key ↔ ∃ f ∈ group, k ∈ (list f).map key
  nodup : ((list fact).map key).Nodup
  from_group : ∀ a ∈ list fact, ∃ f ∈ group, a ∈ list f

/-- The claim of a slot is one of the group with the greatest confidence. -/
structure Greatest {α : Type} (extract : ClassFact → Option (Claim α)) (group : List ClassFact)
    (fact : ClassFact) : Prop where
  from_group : ∀ claim, extract fact = some claim → ∃ f ∈ group, extract f = some claim
  greatest : ∀ f ∈ group, ∀ claim, extract f = some claim →
    ∃ best, extract fact = some best ∧ claim.score ≤ best.score

/-- The fields of a merged fact: one for each offset, with the access sites of all and the size
that is claimed with the greatest confidence. -/
structure UnitesFields (group : List ClassFact) (fact : ClassFact) : Prop where
  mem_offsets : ∀ k, k ∈ fact.fields.map (·.offset) ↔ ∃ f ∈ group, k ∈ f.fields.map (·.offset)
  nodup : (fact.fields.map (·.offset)).Nodup
  sites : ∀ field ∈ fact.fields, ∀ site, site ∈ field.accessSites ↔
    ∃ f ∈ group, ∃ other ∈ f.fields, other.offset = field.offset ∧ site ∈ other.accessSites
  nodup_sites : ∀ field ∈ fact.fields, field.accessSites.Nodup
  size_from : ∀ field ∈ fact.fields, ∃ f ∈ group, ∃ other ∈ f.fields,
    other.offset = field.offset ∧ other.size = field.size
  size_greatest : ∀ field ∈ fact.fields, ∀ f ∈ group, ∀ other ∈ f.fields,
    other.offset = field.offset → other.size.score ≤ field.size.score

structure Merged (group : List ClassFact) (fact : ClassFact) : Prop where
  vtables : Unites (·.vftableVa) ClassFact.vtables group fact
  bases : Unites (·.baseClassId) ClassFact.bases group fact
  methods : Unites (·.functionVa) ClassFact.methods group fact
  fields : UnitesFields group fact
  constructors : Unites id ClassFact.constructors group fact
  destructors : Unites id ClassFact.destructors group fact
  sources : Unites id ClassFact.contributingSources group fact
  evidence : fact.claim.evidence.Perm (group.flatMap (·.claim.evidence))
  demangledName : Greatest ClassFact.demangledName group fact
  size : Greatest ClassFact.size group fact

section Groups
variable {facts : List ClassFact} {fact : ClassFact} {group : Group} {k : String}

theorem foldl_pushFact (facts : List ClassFact) (group : Option Group) :
    (facts.foldl (fun group fact => some (pushFact fact group)) group).elim [] Subtype.val =
      group.elim [] Subtype.val ++ facts := by
  induction facts generalizing group with
  | nil => rw [List.foldl_nil, List.append_nil]
  | cons fact facts ih =>
    rw [List.foldl_cons, ih, Option.elim_some, pushFact, List.append_assoc, List.singleton_append]

theorem get_grouped : (grouped facts).get k = some group ↔
    group.1 = facts.filter fun fact => fact.classId = k := by
  have hget : (grouped facts).get k = (facts.filter fun fact => fact.classId = k).foldl
      (fun group fact => some (pushFact fact group)) none :=
    OrderedMap.get_foldl_upsert ClassFact.classId pushFact facts
  have hval := foldl_pushFact (facts.filter fun fact => fact.classId = k) none
  rw [← hget, Option.elim_none, List.nil_append] at hval
  constructor
  · intro h
    rw [h, Option.elim_some] at hval
    exact hval
  · intro h
    cases hfound : (grouped facts).get k with
    | none =>
      rw [hfound, Option.elim_none, ← h] at hval
      exact absurd hval.symm group.2
    | some other =>
      rw [hfound, Option.elim_some, ← h] at hval
      rw [Subtype.ext hval]

theorem mem_byConfidence {group : List ClassFact} : fact ∈ byConfidence group ↔ fact ∈ group :=
  (List.mergeSort_perm group _).mem_iff

theorem winner_mem (group : Group) :
    (byConfidence group.1).head (byConfidence_ne_nil group) ∈ group.1 :=
  mem_byConfidence.mp (List.head_mem _)

theorem classId_mergeGroup (h : ∀ fact ∈ group.1, fact.classId = k) :
    (mergeGroup group).classId = k := by
  have hwinner : (mergeGroup group).classId =
      ((byConfidence group.1).head (byConfidence_ne_nil group)).classId := rfl
  rw [hwinner, h _ (winner_mem group)]

theorem classId_of_get (h : (grouped facts).get k = some group) :
    (mergeGroup group).classId = k := by
  rw [get_grouped] at h
  refine classId_mergeGroup fun f hf => ?_
  rw [h, List.mem_filter] at hf
  exact of_decide_eq_true hf.2

theorem mem_merge : fact ∈ merge facts ↔ ∃ group : Group,
    (group.1 = facts.filter fun f => f.classId = fact.classId) ∧ fact = mergeGroup group := by
  rw [merge, List.mem_map]
  constructor
  · rintro ⟨row, hrow, rfl⟩
    have hget : (grouped facts).get row.1 = some row.2 := OrderedMap.get_eq_some.mpr hrow
    refine ⟨row.2, ?_, rfl⟩
    rw [classId_of_get hget]
    exact get_grouped.mp hget
  · rintro ⟨group, hgroup, hfact⟩
    exact ⟨(fact.classId, group), OrderedMap.get_eq_some.mp (get_grouped.mpr hgroup), hfact.symm⟩

theorem sorted_merge (facts : List ClassFact) :
    SortedMap.Sorted ClassFact.classId (merge facts) := by
  rw [SortedMap.Sorted, merge, List.pairwise_map]
  refine List.Pairwise.imp_of_mem (fun ha hb hlt => ?_) (grouped facts).sorted
  rw [classId_of_get (OrderedMap.get_eq_some.mpr ha),
    classId_of_get (OrderedMap.get_eq_some.mpr hb)]
  exact hlt

end Groups

section Unions
variable {α κ : Type} {group sorted : List ClassFact} {fact : ClassFact}

theorem unites_unseen [DecidableEq κ] {key : α → κ} {list : ClassFact → List α}
    (hmem : ∀ f, f ∈ sorted ↔ f ∈ group)
    (h : list fact = unseen key [] (sorted.flatMap list)) : Unites key list group fact where
  mem_keys := by
    intro k
    rw [h, mem_keys_unseen, and_iff_left List.not_mem_nil, List.map_flatMap, List.mem_flatMap]
    simp only [hmem]
  nodup := h ▸ nodup_keys_unseen
  from_group := by
    intro a ha
    rw [h] at ha
    obtain ⟨f, hf, ha⟩ := List.mem_flatMap.mp (unseen_sublist.subset ha)
    exact ⟨f, (hmem f).mp hf, ha⟩

theorem unites_sortedSet [LinearOrder κ] {list : ClassFact → List κ}
    (hmem : ∀ f, f ∈ sorted ↔ f ∈ group)
    (h : list fact = sortedSet (sorted.flatMap list)) : Unites id list group fact := by
  have hlist : ∀ k, k ∈ list fact ↔ ∃ f ∈ group, k ∈ list f := fun k => by
    rw [h, mem_sortedSet, List.mem_flatMap]
    simp only [hmem]
  refine ⟨fun k => ?_, ?_, fun a ha => (hlist a).mp ha⟩
  · simp only [List.map_id]
    exact hlist k
  · rw [List.map_id, h]
    exact nodup_sortedSet _

theorem greatest_pick {extract : ClassFact → Option (Claim α)}
    (hmem : ∀ f, f ∈ sorted ↔ f ∈ group)
    (h : extract fact = pickHighestNamed extract sorted) : Greatest extract group fact where
  from_group := by
    intro claim hclaim
    rw [h] at hclaim
    obtain ⟨f, hf, hfrom⟩ := List.mem_filterMap.mp (maxBy_spec hclaim).1
    exact ⟨f, (hmem f).mp hf, hfrom⟩
  greatest := by
    intro f hf claim hclaim
    have hlisted : claim ∈ sorted.filterMap extract :=
      List.mem_filterMap.mpr ⟨f, (hmem f).mpr hf, hclaim⟩
    cases hbest : pickHighestNamed extract sorted with
    | none =>
      rw [maxBy_eq_none.mp hbest] at hlisted
      exact absurd hlisted List.not_mem_nil
    | some best => exact ⟨best, h.trans hbest, (maxBy_spec hbest).2 claim hlisted⟩

end Unions

section Fields
variable {group sorted : List ClassFact} {fact : ClassFact} {fields : List FieldFact}
  {field : FieldFact} {k : Nat}

/-- What fields of one offset make together. -/
theorem foldl_absorb (fields : List FieldFact) (field : FieldFact) : ∃ g,
    fields.foldl (fun existing field => some (existing.elim field (·.absorb field))) (some field) =
        some g ∧ g.offset = field.offset ∧
      (∀ site, site ∈ g.accessSites ↔ ∃ other ∈ field :: fields, site ∈ other.accessSites) ∧
      (∃ other ∈ field :: fields, other.size = g.size) ∧
      ∀ other ∈ field :: fields, other.size.score ≤ g.size.score := by
  induction fields generalizing field with
  | nil =>
    refine ⟨field, rfl, rfl, fun site => by simp, ⟨field, List.mem_cons_self, rfl⟩, ?_⟩
    intro other hother
    rw [List.mem_singleton.mp hother]
  | cons next fields ih =>
    obtain ⟨g, hg, hoffset, hsites, ⟨from', hfrom, hsize⟩, hle⟩ := ih (field.absorb next)
    have habsorb := hle (field.absorb next) List.mem_cons_self
    have hmax : field.size.score ≤ (field.absorb next).size.score ∧
        next.size.score ≤ (field.absorb next).size.score := by
      simp only [FieldFact.absorb]
      split
      · rename_i hlt
        exact ⟨hlt.le, le_rfl⟩
      · rename_i hlt
        exact ⟨le_rfl, not_lt.mp hlt⟩
    refine ⟨g, hg, hoffset, fun site => ?_, ?_, ?_⟩
    · rw [hsites]
      simp only [List.exists_mem_cons_iff, FieldFact.absorb, List.mem_append, or_assoc]
    · rcases List.mem_cons.mp hfrom with rfl | hfrom
      · simp only [FieldFact.absorb] at hsize
        split at hsize
        · exact ⟨next, List.mem_cons_of_mem _ List.mem_cons_self, hsize⟩
        · exact ⟨field, List.mem_cons_self, hsize⟩
      · exact ⟨from', List.mem_cons_of_mem _ (List.mem_cons_of_mem _ hfrom), hsize⟩
    · intro other hother
      rcases List.mem_cons.mp hother with rfl | hother
      · exact hmax.1.trans habsorb
      · rcases List.mem_cons.mp hother with rfl | hother
        · exact hmax.2.trans habsorb
        · exact hle other (List.mem_cons_of_mem _ hother)

theorem get_fieldsByOffset : (fieldsByOffset fields).get k =
    (fields.filter fun field => field.offset = k).foldl
      (fun existing field => some (existing.elim field (·.absorb field))) none :=
  OrderedMap.get_foldl_upsert FieldFact.offset
    (fun field existing => existing.elim field (·.absorb field)) fields

/-- The fields of an offset, made into one. -/
structure Absorbs (fields : List FieldFact) (k : Nat) (field : FieldFact) : Prop where
  offset : field.offset = k
  sites : ∀ site, site ∈ field.accessSites ↔
    ∃ other ∈ fields, other.offset = k ∧ site ∈ other.accessSites
  size_from : ∃ other ∈ fields, other.offset = k ∧ other.size = field.size
  size_greatest : ∀ other ∈ fields, other.offset = k → other.size.score ≤ field.size.score

theorem fieldsByOffset_spec (fields : List FieldFact) (k : Nat) :
    (∀ field, (fieldsByOffset fields).get k = some field → Absorbs fields k field) ∧
      (k ∈ fields.map (·.offset) → ∃ field, (fieldsByOffset fields).get k = some field) := by
  have hmem : ∀ other, other ∈ fields.filter (fun field => field.offset = k) ↔
      other ∈ fields ∧ other.offset = k := fun other => by
    rw [List.mem_filter, decide_eq_true_iff]
  rw [get_fieldsByOffset]
  cases hat : fields.filter (fun field => field.offset = k) with
  | nil =>
    refine ⟨fun field h => (by cases h), fun hk => ?_⟩
    obtain ⟨other, hother, hoffset⟩ := List.mem_map.mp hk
    have hin := (hmem other).mpr ⟨hother, hoffset⟩
    rw [hat] at hin
    exact absurd hin List.not_mem_nil
  | cons first rest =>
    obtain ⟨g, hg, hoffset, hsites, ⟨from', hfrom, hsize⟩, hle⟩ := foldl_absorb rest first
    rw [List.foldl_cons, Option.elim_none, hg]
    simp only [← hat, hmem, and_assoc] at hsites hfrom hle
    refine ⟨fun field h => ?_, fun _ => ⟨g, rfl⟩⟩
    obtain rfl := Option.some.inj h
    have hfirst := (hmem first).mp (by rw [hat]; exact List.mem_cons_self)
    exact ⟨hoffset.trans hfirst.2, hsites, ⟨from', hfrom.1, hfrom.2, hsize⟩,
      fun other hother hk => hle other ⟨hother, hk⟩⟩

theorem mem_mergeFields : field ∈ mergeFields group ↔ ∃ k g,
    (fieldsByOffset (group.flatMap (·.fields))).get k = some g ∧
      field = { g with accessSites := sortedSet g.accessSites } := by
  rw [mergeFields, List.mem_map]
  constructor
  · rintro ⟨row, hrow, rfl⟩
    exact ⟨row.1, row.2, OrderedMap.get_eq_some.mpr hrow, rfl⟩
  · rintro ⟨k, g, hg, rfl⟩
    exact ⟨(k, g), OrderedMap.get_eq_some.mp hg, rfl⟩

/-- The fields stand in the order of their offsets. -/
theorem sorted_mergeFields (group : List ClassFact) :
    SortedMap.Sorted FieldFact.offset (mergeFields group) := by
  rw [SortedMap.Sorted, mergeFields, List.pairwise_map]
  have hsorted : SortedMap.Sorted Prod.fst (fieldsByOffset (group.flatMap (·.fields))).rows :=
    OrderedMap.sorted _
  have hoffset : ∀ row ∈ (fieldsByOffset (group.flatMap (·.fields))).rows,
      row.2.offset = row.1 := fun row hrow =>
    ((fieldsByOffset_spec _ row.1).1 row.2 (OrderedMap.get_eq_some.mpr hrow)).offset
  refine hsorted.imp_of_mem fun {a b} ha hb hlt => ?_
  change a.2.offset < b.2.offset
  rw [hoffset a ha, hoffset b hb]
  exact hlt

theorem unites_fields (hmem : ∀ f, f ∈ sorted ↔ f ∈ group)
    (h : fact.fields = mergeFields sorted) : UnitesFields group fact := by
  have hflat : ∀ other, other ∈ sorted.flatMap (·.fields) ↔ ∃ f ∈ group, other ∈ f.fields :=
    fun other => by
      rw [List.mem_flatMap]
      simp only [hmem]
  have hfield : ∀ field ∈ fact.fields, ∃ g, Absorbs (sorted.flatMap (·.fields)) field.offset g ∧
      field = { g with accessSites := sortedSet g.accessSites } := by
    intro field hfield
    rw [h] at hfield
    obtain ⟨k, g, hg, rfl⟩ := mem_mergeFields.mp hfield
    have hspec := (fieldsByOffset_spec _ k).1 g hg
    exact ⟨g, hspec.offset.symm ▸ hspec, rfl⟩
  refine ⟨fun k => ?_, ?_, fun field hf site => ?_, fun field hf => ?_, fun field hf => ?_,
    fun field hf f hfg other hother hoffset => ?_⟩
  · rw [List.mem_map]
    constructor
    · rintro ⟨field, hf, rfl⟩
      obtain ⟨g, hg, -⟩ := hfield field hf
      obtain ⟨other, hother, hoffset, -⟩ := hg.size_from
      obtain ⟨f, hfg, hother⟩ := (hflat other).mp hother
      exact ⟨f, hfg, List.mem_map.mpr ⟨other, hother, hoffset⟩⟩
    · rintro ⟨f, hfg, hk⟩
      obtain ⟨other, hother, hoffset⟩ := List.mem_map.mp hk
      obtain ⟨g, hg⟩ := (fieldsByOffset_spec (sorted.flatMap (·.fields)) k).2
        (List.mem_map.mpr ⟨other, (hflat other).mpr ⟨f, hfg, hother⟩, hoffset⟩)
      refine ⟨_, h ▸ mem_mergeFields.mpr ⟨k, g, hg, rfl⟩, ?_⟩
      exact ((fieldsByOffset_spec _ k).1 g hg).offset
  · rw [h, List.Nodup, List.pairwise_map]
    exact (sorted_mergeFields sorted).imp fun hlt => ne_of_lt hlt
  · obtain ⟨g, hg, heq⟩ := hfield field hf
    have hset : site ∈ field.accessSites ↔ site ∈ g.accessSites := by
      rw [heq]
      exact mem_sortedSet
    rw [hset, hg.sites]
    constructor
    · rintro ⟨other, hother, hsite⟩
      obtain ⟨f, hfg, hother⟩ := (hflat other).mp hother
      exact ⟨f, hfg, other, hother, hsite⟩
    · rintro ⟨f, hfg, other, hother, hsite⟩
      exact ⟨other, (hflat other).mpr ⟨f, hfg, hother⟩, hsite⟩
  · obtain ⟨g, -, heq⟩ := hfield field hf
    rw [heq]
    exact nodup_sortedSet _
  · obtain ⟨g, hg, heq⟩ := hfield field hf
    obtain ⟨other, hother, hoffset, hsize⟩ := hg.size_from
    obtain ⟨f, hfg, hother⟩ := (hflat other).mp hother
    exact ⟨f, hfg, other, hother, hoffset, hsize.trans (by rw [heq])⟩
  · obtain ⟨g, hg, heq⟩ := hfield field hf
    have hle := hg.size_greatest other ((hflat other).mpr ⟨f, hfg, hother⟩) hoffset
    rw [heq]
    exact hle

/-- Fields that were merged are not changed by another merge. -/
theorem mergeFields_singleton (hsorted : SortedMap.Sorted FieldFact.offset fact.fields)
    (hsites : ∀ field ∈ fact.fields, sortedSet field.accessSites = field.accessSites) :
    mergeFields [fact] = fact.fields := by
  refine (sorted_mergeFields _).eq_of_mem_iff hsorted fun field => ?_
  have hget : ∀ k, (fieldsByOffset ([fact].flatMap (·.fields))).get k =
      SortedMap.get? FieldFact.offset k fact.fields := fun k => by
    rw [get_fieldsByOffset, List.flatMap_singleton, SortedMap.filter_key hsorted]
    cases SortedMap.get? FieldFact.offset k fact.fields <;> rfl
  rw [mem_mergeFields]
  simp only [hget]
  constructor
  · rintro ⟨k, g, hg, rfl⟩
    obtain ⟨hmem, -⟩ := (SortedMap.get?_eq_some hsorted).mp hg
    rw [hsites g hmem]
    exact hmem
  · intro hmem
    refine ⟨field.offset, field, (SortedMap.get?_eq_some hsorted).mpr ⟨hmem, rfl⟩, ?_⟩
    rw [hsites field hmem]

end Fields

section Again
variable {facts facts' : List ClassFact} {fact : ClassFact}

theorem merged_mergeGroup (group : Group) : Merged group.1 (mergeGroup group) where
  vtables := unites_unseen (fun _ => mem_byConfidence) rfl
  bases := unites_unseen (fun _ => mem_byConfidence) rfl
  methods := unites_unseen (fun _ => mem_byConfidence) rfl
  fields := unites_fields (fun _ => mem_byConfidence) rfl
  constructors := unites_sortedSet (fun _ => mem_byConfidence) rfl
  destructors := unites_sortedSet (fun _ => mem_byConfidence) rfl
  sources := unites_sortedSet (fun _ => mem_byConfidence) rfl
  evidence := (List.mergeSort_perm group.1 _).flatMap_right _
  demangledName := greatest_pick (fun _ => mem_byConfidence) rfl
  size := greatest_pick (fun _ => mem_byConfidence) rfl

/-- The confidence of a merged fact stays. -/
theorem fromScore_max (score : Rat) :
    Confidence.fromScore (max 0 (Confidence.fromScore score).score) =
      Confidence.fromScore score := by
  have hclamped : 0 ≤ Facts.clamped score ∧ Facts.clamped score ≤ 1 := by
    unfold Facts.clamped
    split
    · exact ⟨le_rfl, by decide⟩
    · rename_i hneg
      split
      · exact ⟨by decide, le_rfl⟩
      · rename_i hone
        exact ⟨not_lt.mp hneg, not_lt.mp hone⟩
  have hagain : Facts.clamped (Facts.clamped score) = Facts.clamped score := by
    rw [Facts.clamped, if_neg (not_lt.mpr hclamped.1), if_neg (not_lt.mpr hclamped.2)]
  change Confidence.fromScore (max 0 (Facts.clamped score)) = _
  rw [max_eq_right hclamped.1, Confidence.fromScore, hagain, Confidence.fromScore]

theorem pickHighestNamed_singleton {α : Type} (extract : ClassFact → Option (Claim α)) :
    pickHighestNamed extract [fact] = extract fact := by
  have hlist : [fact].filterMap extract = (extract fact).toList := by
    cases h : extract fact with
    | none => rw [List.filterMap_cons_none h]; rfl
    | some claim => rw [List.filterMap_cons_some h]; rfl
  rw [pickHighestNamed, hlist, maxBy_toList]

/-- A merged fact alone is its own merge. -/
theorem mergeGroup_again (group : Group) :
    mergeGroup ⟨[mergeGroup group], List.cons_ne_nil _ _⟩ = mergeGroup group := by
  have hmerged := merged_mergeGroup group
  have hfields : mergeFields [mergeGroup group] = (mergeGroup group).fields := by
    refine mergeFields_singleton (sorted_mergeFields _) fun field hfield => ?_
    obtain ⟨k, g, -, rfl⟩ := mem_mergeFields.mp hfield
    exact sortedSet_sortedSet _
  have hconfidence : ∃ score, (mergeGroup group).claim.confidence = Confidence.fromScore score :=
    ⟨_, rfl⟩
  have hsets : sortedSet (mergeGroup group).constructors = (mergeGroup group).constructors ∧
      sortedSet (mergeGroup group).destructors = (mergeGroup group).destructors ∧
      sortedSet (mergeGroup group).contributingSources =
        (mergeGroup group).contributingSources :=
    ⟨sortedSet_sortedSet _, sortedSet_sortedSet _, sortedSet_sortedSet _⟩
  generalize mergeGroup group = fact at hmerged hfields hconfidence hsets
  have hsort : byConfidence [fact] = [fact] := by
    rw [byConfidence, sortBy, List.mergeSort_singleton]
  have habi : (([fact].find? fun f => f.abi ≠ .unknown).map (·.abi)).getD fact.abi = fact.abi := by
    rw [List.find?_cons]
    split <;> rfl
  have hname : fact.mangledName.or ([fact].findSome? (·.mangledName)) = fact.mangledName := by
    rw [List.findSome?_cons]
    cases fact.mangledName <;> rfl
  have hclaim : Confidence.fromScore (([fact].map ClassFact.score).foldl max 0) =
      fact.claim.confidence := by
    obtain ⟨score, hscore⟩ := hconfidence
    change Confidence.fromScore (max 0 fact.claim.confidence.score) = _
    rw [hscore, fromScore_max]
  have hunseen : ∀ {α κ : Type} [DecidableEq κ] {key : α → κ} {list : ClassFact → List α},
      Unites key list group.1 fact → unseen key [] ([fact].flatMap list) = list fact :=
    fun h => by
      rw [List.flatMap_singleton]
      exact unseen_eq_self h.nodup fun _ _ => List.not_mem_nil
  simp only [mergeGroup, hsort, List.head_cons]
  rw [combine, pickHighestNamed_singleton, pickHighestNamed_singleton, habi, hname, hclaim, hfields,
    hunseen hmerged.vtables, hunseen hmerged.bases, hunseen hmerged.methods]
  simp only [List.flatMap_singleton, hsets]

/-- With distinct confidences the order of a group does not count. -/
theorem mergeGroup_perm {group group' : Group} (h : group.1.Perm group'.1)
    (hdistinct : ∀ a ∈ group.1, ∀ b ∈ group.1, a.score = b.score → a = b) :
    mergeGroup group = mergeGroup group' := by
  have hsort : byConfidence group.1 = byConfidence group'.1 :=
    sortBy_eq_of_perm h fun a ha b hb hab => hdistinct a ha b hb (OrderDual.toDual.injective hab)
  simp only [mergeGroup, hsort]

theorem merge_perm (h : facts.Perm facts')
    (hdistinct : ∀ a ∈ facts, ∀ b ∈ facts, a.classId = b.classId → a.score = b.score → a = b) :
    merge facts = merge facts' := by
  refine (sorted_merge facts).eq_of_mem_iff (sorted_merge facts') fun fact => ?_
  have hfilter := h.filter fun f => f.classId = fact.classId
  have hgroup : ∀ a ∈ facts.filter (fun f => f.classId = fact.classId),
      ∀ b ∈ facts.filter (fun f => f.classId = fact.classId), a.score = b.score → a = b := by
    intro a ha b hb
    rw [List.mem_filter, decide_eq_true_iff] at ha hb
    exact hdistinct a ha.1 b hb.1 (ha.2.trans hb.2.symm)
  rw [mem_merge, mem_merge]
  constructor
  · rintro ⟨group, hval, hfact⟩
    rw [← hval] at hfilter hgroup
    refine ⟨⟨_, fun hnil => group.2 ?_⟩, rfl, hfact.trans (mergeGroup_perm hfilter hgroup)⟩
    rw [hnil] at hfilter
    exact hfilter.eq_nil
  · rintro ⟨group, hval, hfact⟩
    rw [← hval] at hfilter
    refine ⟨⟨_, fun hnil => group.2 ?_⟩, rfl, hfact.trans (mergeGroup_perm hfilter hgroup).symm⟩
    rw [hnil] at hfilter
    exact hfilter.nil_eq.symm

theorem merge_again (facts : List ClassFact) : merge (merge facts) = merge facts := by
  refine (sorted_merge _).eq_of_mem_iff (sorted_merge facts) fun fact => ?_
  have hfilter := SortedMap.filter_key (sorted_merge facts)
  rw [mem_merge]
  constructor
  · rintro ⟨group, hval, hfact⟩
    rw [hfilter] at hval
    cases hget : SortedMap.get? ClassFact.classId fact.classId (merge facts) with
    | none =>
      rw [hget] at hval
      exact absurd hval group.2
    | some other =>
      obtain ⟨hother, -⟩ := (SortedMap.get?_eq_some (sorted_merge facts)).mp hget
      obtain ⟨group', -, rfl⟩ := mem_merge.mp hother
      rw [hget] at hval
      obtain rfl : group = ⟨[mergeGroup group'], List.cons_ne_nil _ _⟩ := Subtype.ext hval
      rw [hfact, mergeGroup_again]
      exact hother
  · intro hmem
    obtain ⟨group, -, rfl⟩ := mem_merge.mp hmem
    refine ⟨⟨[mergeGroup group], List.cons_ne_nil _ _⟩, ?_, (mergeGroup_again group).symm⟩
    rw [hfilter, (SortedMap.get?_eq_some (sorted_merge facts)).mpr ⟨hmem, rfl⟩]
    rfl

end Again

/-- The merge has one fact for each class, with the unions of its group and the claims of the
greatest confidence. Where no two facts of a class are equally sure the order of the facts does
not count, and another merge changes nothing. -/
theorem merge_unites (facts : List ClassFact) (hdistinct : facts.Pairwise fun a b =>
    a.classId = b.classId → a.score ≠ b.score) :
    ((merge facts).map ClassFact.classId).Nodup ∧
      (∀ k, k ∈ (merge facts).map ClassFact.classId ↔ k ∈ facts.map ClassFact.classId) ∧
      (∀ fact ∈ merge facts, Merged (facts.filter fun f => f.classId = fact.classId) fact) ∧
      (∀ facts', facts.Perm facts' → merge facts' = merge facts) ∧
      merge (merge facts) = merge facts := by
  have hall : ∀ a ∈ facts, ∀ b ∈ facts, a.classId = b.classId → a.score = b.score → a = b := by
    have hsymm : Std.Symm fun a b : ClassFact => a.classId = b.classId → a.score ≠ b.score :=
      ⟨fun _ _ h hid => (h hid.symm).symm⟩
    intro a ha b hb hid hscore
    by_contra hne
    exact hdistinct.forall ha hb hne hid hscore
  refine ⟨?_, fun k => ?_, fun fact hfact => ?_, fun facts' h => (merge_perm h hall).symm,
    merge_again facts⟩
  · rw [List.Nodup, List.pairwise_map]
    exact (sorted_merge facts).imp fun hlt => ne_of_lt hlt
  · rw [List.mem_map, List.mem_map]
    constructor
    · rintro ⟨fact, hfact, rfl⟩
      obtain ⟨group, hval, -⟩ := mem_merge.mp hfact
      obtain ⟨f, hf⟩ := List.exists_mem_of_ne_nil _ group.2
      rw [hval, List.mem_filter, decide_eq_true_iff] at hf
      exact ⟨f, hf⟩
    · rintro ⟨f, hf, rfl⟩
      have hin : f ∈ facts.filter fun g => g.classId = f.classId :=
        List.mem_filter.mpr ⟨hf, decide_eq_true rfl⟩
      obtain ⟨group, hval⟩ : ∃ group : Group,
          group.1 = facts.filter fun g => g.classId = f.classId :=
        ⟨⟨_, List.ne_nil_of_mem hin⟩, rfl⟩
      have hid : (mergeGroup group).classId = f.classId :=
        classId_of_get (get_grouped.mpr hval)
      refine ⟨mergeGroup group, mem_merge.mpr ⟨group, ?_, rfl⟩, hid⟩
      rw [hid]
      exact hval
  · obtain ⟨group, hval, hmerge⟩ := mem_merge.mp hfact
    rw [← hval]
    exact hmerge ▸ merged_mergeGroup group

/-- A fact about a class of one source, sure to so many hundredths. -/
def factOf (source : ClaimSource) (hundredths : Nat) (sites : List Nat) : ClassFact :=
  let claim {α : Type} (value : α) : Claim α :=
    ⟨value, source, Confidence.fromScore (hundredths / 100), []⟩
  { schema := "class_fact/1"
    classId := "class:1cbec737:Foo"
    demangledName := some (claim "Foo")
    mangledName := some ".?AVFoo@@"
    size := none
    abi := .msvc
    vtables := []
    bases := []
    fields := [⟨16, claim 4, none, none, sites⟩]
    methods := []
    constructors := []
    destructors := []
    claim := claim ()
    contributingSources := [source] }

theorem merge_unites_sources :
    merge [factOf .pdb 99 [0x1004], factOf .rtti 90 [0x1000]] =
      merge [factOf .rtti 90 [0x1000], factOf .pdb 99 [0x1004]] :=
  (merge_unites [factOf .rtti 90 [0x1000], factOf .pdb 99 [0x1004]] (by decide +kernel)).2.2.2.1 _
    (List.Perm.swap _ _ _)

end Axe.Cpp
