import Axe.Lib.Separators
import Axe.Static.Ssa

/-!
# The values are in single-assignment form

Every identifier ends in the position of its value. The definitions that are kept, for the
storages and for the blocks that were left, are those of values that have been added, so every
new edge leads forward.
-/
namespace Axe.Static

/-- The identifier of the value at a position ends in it. -/
def HasIndex (id : String) (index : Nat) : Prop := ∃ p : String, id = p ++ ":" ++ toString index

def versionsOf (values : List SsaValueRecord) (storage : String) : List Nat :=
  (values.filter fun value => value.storage = storage).map SsaValueRecord.version

def Named (values : List SsaValueRecord) (input : CurrentDef) : Prop :=
  input.id ∈ values.map SsaValueRecord.ssaId

/-- An edge leads from a value to a later one. -/
def LeadsForward (values : List SsaValueRecord) (edge : DataflowEdgeRecord) : Prop :=
  ∃ (i j : Nat) (source target : SsaValueRecord), i < j ∧ values[i]? = some source ∧
    values[j]? = some target ∧ edge.fromValue = some source.ssaId ∧ edge.toValue = target.ssaId

def HasTwoSources (edges : List DataflowEdgeRecord) (value : SsaValueRecord) : Prop :=
  ∃ e₁ ∈ edges, ∃ e₂ ∈ edges, e₁.toValue = value.ssaId ∧ e₂.toValue = value.ssaId ∧
    e₁.fromValue ≠ e₂.fromValue

/-- Values and edges of one function in single-assignment form. -/
structure SingleAssignment (values : List SsaValueRecord) (edges : List DataflowEdgeRecord) :
    Prop where
  distinct : (values.map SsaValueRecord.ssaId).Nodup
  versions : ∀ storage, ∃ k, versionsOf values storage = List.range' 1 k
  forward : ∀ edge ∈ edges, LeadsForward values edge
  joins : ∀ value ∈ values, value.source = .phi → HasTwoSources edges value

structure SsaState.Valid (s : SsaState) : Prop where
  ids : ∀ i value, s.values[i]? = some value → HasIndex value.ssaId i
  versions : ∀ storage,
    versionsOf s.values storage = List.range' 1 ((s.versions.get storage).getD 0)
  current : ∀ storage input, s.current.get storage = some input → Named s.values input
  forward : ∀ edge ∈ s.edges, LeadsForward s.values edge
  joins : ∀ value ∈ s.values, value.source = .phi → HasTwoSources s.edges value
  emitted : s.emitted = s.values.length

section Ids
variable {id : String} {i j : Nat}

theorem colon_not_mem_toString : ':' ∉ (toString i).toList := by
  intro h
  rw [Nat.toString_eq_ofList_toDigits, String.toList_ofList] at h
  exact absurd (Nat.isDigit_of_mem_toDigits (by decide) (by decide) h) (by decide)

theorem HasIndex.inj (hi : HasIndex id i) (hj : HasIndex id j) : i = j := by
  obtain ⟨p, rfl⟩ := hi
  obtain ⟨q, hq⟩ := hj
  have hlist := congrArg String.toList hq
  simp only [String.toList_append, List.append_assoc] at hlist
  have hdigits : (toString i).toList = (toString j).toList :=
    eq_of_append_cons colon_not_mem_toString colon_not_mem_toString hlist
  rw [Nat.toString_eq_ofList_toDigits, Nat.toString_eq_ofList_toDigits, String.toList_ofList,
    String.toList_ofList] at hdigits
  rw [← Nat.ofDigitChars_ten_toDigits (n := i), hdigits, Nat.ofDigitChars_ten_toDigits]

theorem hasIndex_ssaId (function : Nat) (storage : String) (version index : Nat) :
    HasIndex (ssaId function storage version index) index := ⟨_, rfl⟩

end Ids

section Define
variable {function : Nat} {d : Definition} {s : SsaState} {values more : List SsaValueRecord}
  {input : CurrentDef} {edge : DataflowEdgeRecord}

theorem Named.mono (h : Named values input) (hpre : values <+: more) : Named more input :=
  (hpre.map _).subset h

theorem LeadsForward.mono (h : LeadsForward values edge) (hpre : values <+: more) :
    LeadsForward more edge := by
  obtain ⟨i, j, source, target, hij, hi, hj, hsource, htarget⟩ := h
  obtain ⟨rest, rfl⟩ := hpre
  have hkeep : ∀ (k : Nat) value, values[k]? = some value →
      (values ++ rest)[k]? = some value := by
    intro k value hk
    rw [List.getElem?_append_left (List.getElem?_eq_some_iff.mp hk).1, hk]
  exact ⟨i, j, source, target, hij, hkeep i _ hi, hkeep j _ hj, hsource, htarget⟩

theorem prefix_define : s.values <+: (define function d s).values := List.prefix_append _ _

theorem versionsOf_append (value : SsaValueRecord) (storage : String) :
    versionsOf (values ++ [value]) storage =
      versionsOf values storage ++ if value.storage = storage then [value.version] else [] := by
  rw [versionsOf, List.filter_append, List.map_append]
  split <;> rename_i h <;> simp [versionsOf, h]

/-- The value that a definition adds. -/
def added (function : Nat) (d : Definition) (s : SsaState) : SsaValueRecord :=
  newValue function d s.versions s.values.length

theorem storage_added : (added function d s).storage = d.write.storage := rfl

theorem version_added : (added function d s).version =
    (s.versions.get d.write.storage).getD 0 + 1 := rfl

theorem values_define : (define function d s).values = s.values ++ [added function d s] := rfl

theorem edges_define (h : edge ∈ (define function d s).edges) : edge ∈ s.edges ∨
    ∃ input ∈ d.inputs, ∃ k, edge = newEdge function (added function d s) d.edgeKind k input := by
  refine (List.mem_append.mp h).imp_right fun h => ?_
  obtain ⟨⟨input, k⟩, hpair, rfl⟩ := List.mem_map.mp h
  exact ⟨input, List.fst_mem_of_mem_zipIdx hpair, k, rfl⟩

theorem subset_edges_define (h : edge ∈ s.edges) : edge ∈ (define function d s).edges :=
  List.mem_append_left _ h

/-- Every input has an edge to the new value. -/
theorem exists_edge_define (function : Nat) (d : Definition) (s : SsaState)
    (h : input ∈ d.inputs) : ∃ edge ∈ (define function d s).edges,
    edge.toValue = (added function d s).ssaId ∧ edge.fromValue = some input.id := by
  rw [← List.zipIdx_map_fst s.edges.length d.inputs] at h
  obtain ⟨⟨_, k⟩, hpair, rfl⟩ := List.mem_map.mp h
  exact ⟨_, List.mem_append_right _ (List.mem_map.mpr ⟨_, hpair, rfl⟩), rfl, rfl⟩

theorem named_added : Named (define function d s).values
    ⟨(added function d s).ssaId, d.siteVa, d.write.storage⟩ := by
  rw [Named, values_define, List.map_append]
  exact List.mem_append_right _ List.mem_cons_self

theorem leadsForward_added {kind : EdgeKind} {k : Nat} (h : Named s.values input) :
    LeadsForward (define function d s).values
      (newEdge function (added function d s) kind k input) := by
  obtain ⟨value, hvalue, hid⟩ := List.mem_map.mp h
  obtain ⟨i, hi, hget⟩ := List.mem_iff_getElem.mp hvalue
  refine ⟨i, s.values.length, value, added function d s, hi, ?_, ?_, congrArg some hid.symm, rfl⟩
  · rw [values_define, List.getElem?_append_left hi, List.getElem?_eq_getElem hi, hget]
  · rw [values_define, List.getElem?_append_right le_rfl, Nat.sub_self, List.getElem?_cons_zero]

/-- A definition from named inputs keeps the form, a join needs two of them. -/
theorem SsaState.Valid.define (h : s.Valid) (hin : ∀ input ∈ d.inputs, Named s.values input)
    (hphi : d.write.source = .phi → ∃ a ∈ d.inputs, ∃ b ∈ d.inputs, a.id ≠ b.id) :
    (define function d s).Valid where
  ids i value hi := by
    rcases Nat.lt_or_ge i s.values.length with hlt | hge
    · rw [values_define, List.getElem?_append_left hlt] at hi
      exact h.ids i value hi
    · rw [values_define, List.getElem?_append_right hge, List.getElem?_singleton] at hi
      obtain ⟨hzero, hvalue⟩ := Option.ite_none_right_eq_some.mp hi
      have heq : i = s.values.length := by omega
      rw [← Option.some.inj hvalue, heq]
      exact hasIndex_ssaId _ _ _ _
  versions storage := by
    rw [values_define, versionsOf_append, h.versions]
    change _ = List.range' 1 (((s.versions.insert (added function d s).storage
      (added function d s).version).get storage).getD 0)
    rw [OrderedMap.get_insert]
    by_cases hstorage : storage = (added function d s).storage
    · rw [if_pos hstorage, if_pos hstorage.symm, hstorage, Option.getD_some, version_added,
        storage_added, List.range'_1_concat, Nat.add_comm 1]
    · rw [if_neg hstorage, if_neg (Ne.symm hstorage), List.append_nil]
  current storage input hget := by
    change (s.current.insert d.write.storage _).get storage = some input at hget
    rw [OrderedMap.get_insert] at hget
    split at hget
    · cases hget
      exact named_added
    · exact (h.current storage input hget).mono prefix_define
  forward edge hedge := by
    rcases edges_define hedge with hedge | ⟨input, hinput, k, rfl⟩
    · exact (h.forward edge hedge).mono prefix_define
    · exact leadsForward_added (hin input hinput)
  joins value hvalue hsource := by
    rw [values_define, List.mem_append, List.mem_singleton] at hvalue
    rcases hvalue with hvalue | rfl
    · obtain ⟨e₁, he₁, e₂, he₂, hsources⟩ := h.joins value hvalue hsource
      exact ⟨e₁, subset_edges_define he₁, e₂, subset_edges_define he₂, hsources⟩
    · obtain ⟨a, ha, b, hb, hne⟩ := hphi hsource
      obtain ⟨e₁, he₁, hto₁, hfrom₁⟩ := exists_edge_define function d s ha
      obtain ⟨e₂, he₂, hto₂, hfrom₂⟩ := exists_edge_define function d s hb
      refine ⟨e₁, he₁, e₂, he₂, hto₁, hto₂, ?_⟩
      rw [hfrom₁, hfrom₂]
      exact fun heq => hne (Option.some.inj heq)
  emitted := by
    rw [values_define, List.length_append, List.length_singleton, ← h.emitted]
    rfl

end Define

/-- A later state: it is in the form, has kept its values and is within the cap. -/
structure Grown (cap : Nat) (s s' : SsaState) : Prop where
  valid : s'.Valid
  kept : s.values <+: s'.values
  within : s'.values.length ≤ cap

/-- The definitions that leave the blocks are those of values. -/
def OutNamed (outDefs : OrderedMap Nat Defs) (values : List SsaValueRecord) : Prop :=
  ∀ block defs storage input, outDefs.get block = some defs → defs.get storage = some input →
    Named values input

structure SliceState.Valid (cap : Nat) (s : SliceState) : Prop where
  built : s.built.Valid
  within : s.built.values.length ≤ cap
  outDefs : OutNamed s.outDefs s.built.values

theorem exists_ne_of_sortDedup {α : Type} [LinearOrder α] {xs : List α}
    (h : ¬ (sortDedup xs).length < 2) : ∃ a ∈ xs, ∃ b ∈ xs, a ≠ b := by
  have hsorted : (sortDedup xs).Pairwise (· < ·) := SortedMap.sorted_ofList xs
  have hmem : ∀ x ∈ sortDedup xs, x ∈ xs := fun x => SortedMap.mem_of_mem_ofList
  generalize sortDedup xs = ys at h hsorted hmem
  rcases ys with _ | ⟨a, _ | ⟨b, ys⟩⟩
  · exact absurd (by simp) h
  · exact absurd (by simp) h
  · exact ⟨a, hmem a (by simp), b, hmem b (by simp),
      ((List.pairwise_cons.mp hsorted).1 b List.mem_cons_self).ne⟩

namespace SsaTask

variable {task : SsaTask} {s₀ s : SsaState} {t : SliceState} {outDefs : OrderedMap Nat Defs}
  {inputs : List CurrentDef} {cap : Nat}

theorem grown_define {function : Nat} {d : Definition} (h : Grown cap s₀ s) (hcap : s.emitted < cap)
    (hin : ∀ input ∈ d.inputs, Named s₀.values input)
    (hphi : d.write.source = .phi → ∃ a ∈ d.inputs, ∃ b ∈ d.inputs, a.id ≠ b.id) :
    Grown cap s₀ (define function d s) where
  valid := h.valid.define (fun input hinput => (hin input hinput).mono h.kept) hphi
  kept := h.kept.trans prefix_define
  within := by
    rw [values_define, List.length_append, List.length_singleton, ← h.valid.emitted]
    exact hcap

theorem grown_joinStorage {function block : Nat} {storage : String} (h : Grown cap s₀ s)
    (hcap : s.emitted < cap) (hin : ∀ input ∈ inputs, Named s₀.values input) :
    Grown cap s₀ (joinStorage function block inputs storage s) := by
  rw [joinStorage]
  split
  · exact h
  · rename_i hmany
    rw [Bool.or_eq_true, not_or, decide_eq_true_iff, decide_eq_true_iff] at hmany
    refine grown_define h hcap hin fun _ => ?_
    obtain ⟨x, hx, y, hy, hne⟩ := exists_ne_of_sortDedup hmany.2
    obtain ⟨a, ha, rfl⟩ := List.mem_map.mp hx
    obtain ⟨b, hb, rfl⟩ := List.mem_map.mp hy
    exact ⟨a, ha, b, hb, hne⟩

theorem named_incomingDefs (hout : OutNamed outDefs s₀.values) {predecessors : List Nat}
    {storage : String} : ∀ input ∈ incomingDefs outDefs predecessors storage,
      Named s₀.values input := by
  intro input hinput
  obtain ⟨block, _, hget⟩ := List.mem_filterMap.mp hinput
  obtain ⟨defs, hdefs, hget⟩ := Option.bind_eq_some_iff.mp hget
  exact hout block defs storage input hdefs hget

theorem grown_emitJoinPhis {block : Nat} {predecessors : List Nat}
    (hout : OutNamed outDefs s₀.values) (h : Grown task.perFunctionCap s₀ s₀) :
    Grown task.perFunctionCap s₀ (task.emitJoinPhis block predecessors outDefs s₀) := by
  have hfold : ∀ (storages : List String) (s : SsaState), Grown task.perFunctionCap s₀ s →
      Grown task.perFunctionCap s₀
        (storages.foldl (task.emitJoinPhi block predecessors outDefs) s) := by
    intro storages
    induction storages with
    | nil => exact fun s hs => hs
    | cons storage rest ih =>
      intro s hs
      refine ih _ ?_
      rw [emitJoinPhi]
      split
      · exact hs
      · rename_i hcap
        exact grown_joinStorage hs (not_le.mp hcap) (named_incomingDefs hout)
  exact hfold _ s₀ h

theorem grown_writeAll {ins : IrInstruction} (hin : ∀ input ∈ inputs, Named s₀.values input)
    (writes : List StorageWrite) (capsHit : Bool) (hwrites : ∀ w ∈ writes, w.source ≠ .phi)
    (h : Grown task.perFunctionCap s₀ s) :
    Grown task.perFunctionCap s₀ (task.writeAll ins inputs writes (s, capsHit)).1 := by
  induction writes generalizing s with
  | nil => exact h
  | cons write rest ih =>
    rw [writeAll]
    split
    · exact h
    · rename_i hcap
      refine ih (fun w hw => hwrites w (List.mem_cons_of_mem _ hw)) ?_
      exact grown_define h (not_le.mp hcap) hin
        fun hphi => absurd hphi (hwrites write List.mem_cons_self)

theorem writeStorages_source (ins : IrInstruction) : ∀ w ∈ writeStorages ins, w.source ≠ .phi := by
  intro w hw
  simp only [writeStorages, List.mem_append, Option.mem_toList, Option.map_eq_some_iff] at hw
  rcases hw with (⟨reg, _, rfl⟩ | hw) | hw
  · exact nofun
  · obtain ⟨_, hw⟩ := List.mem_ite_nil_right.mp hw
    rcases List.mem_append.mp hw with hw | hw
    · obtain ⟨slot, _, rfl⟩ := Option.map_eq_some_iff.mp (Option.mem_toList.mp hw)
      exact nofun
    · rw [List.mem_singleton.mp hw]
      exact nofun
  · obtain ⟨_, hw⟩ := List.mem_ite_nil_right.mp hw
    obtain ⟨flag, _, rfl⟩ := List.mem_map.mp hw
    exact nofun

theorem valid_of_grown (h : t.Valid task.perFunctionCap)
    (hs : Grown task.perFunctionCap t.built s) (joined : List Nat) (capsHit : Bool) :
    SliceState.Valid task.perFunctionCap ⟨s, t.outDefs, joined, capsHit⟩ where
  built := hs.valid
  within := hs.within
  outDefs block defs storage input hdefs hget :=
    (h.outDefs block defs storage input hdefs hget).mono hs.kept

theorem SliceState.Valid.grown (h : t.Valid cap) : Grown cap t.built t.built :=
  ⟨h.built, List.prefix_rfl, h.within⟩

theorem valid_enterBlock (block : Option Nat) (h : t.Valid task.perFunctionCap) :
    (task.enterBlock block t).Valid task.perFunctionCap := by
  cases block with
  | none => exact h
  | some block =>
    simp only [enterBlock]
    split
    · exact h
    · refine valid_of_grown h ?_ _ _
      cases (predecessorBlocksByJoin task.cfg).get block with
      | none => exact SliceState.Valid.grown h
      | some predecessors => exact grown_emitJoinPhis h.outDefs (SliceState.Valid.grown h)

theorem named_inputDefs (h : s.Valid) (ins : IrInstruction) :
    ∀ input ∈ inputDefs ins s.current, Named s.values input := by
  intro input hinput
  rw [inputDefs, List.mem_append] at hinput
  rcases hinput with hinput | hinput
  · obtain ⟨storage, _, hget⟩ := List.mem_filterMap.mp hinput
    exact h.current storage input hget
  · obtain ⟨_, hget⟩ := List.mem_ite_nil_right.mp hinput
    exact h.current "mem" input (Option.mem_toList.mp hget)

theorem valid_leaveBlock (block : Option Nat) (h : t.Valid cap) :
    (leaveBlock block t).Valid cap := by
  cases block with
  | none => exact h
  | some block =>
    refine ⟨h.built, h.within, fun other defs storage input hdefs hget => ?_⟩
    change (t.outDefs.insert block t.built.current).get other = some defs at hdefs
    rw [OrderedMap.get_insert] at hdefs
    split at hdefs
    · cases hdefs
      exact h.built.current storage input hget
    · exact h.outDefs other defs storage input hdefs hget

theorem valid_processInstruction (ins : IrInstruction) (h : t.Valid task.perFunctionCap) :
    (task.processInstruction ins t).Valid task.perFunctionCap := by
  refine valid_leaveBlock _ (valid_of_grown h ?_ _ _)
  exact grown_writeAll (named_inputDefs h.built ins) _ _ (writeStorages_source ins)
    (SliceState.Valid.grown h)

theorem valid_processInstructions (ir : List IrInstruction) (h : t.Valid task.perFunctionCap) :
    (task.processInstructions ir t).Valid task.perFunctionCap := by
  induction ir generalizing t with
  | nil => exact h
  | cons ins rest ih =>
    rw [processInstructions]
    split
    · exact ⟨h.built, h.within, h.outDefs⟩
    · have hentered := valid_enterBlock (blockFor task.cfg ins.address) h
      dsimp only
      split
      · exact ⟨hentered.built, hentered.within, hentered.outDefs⟩
      · exact ih (valid_processInstruction ins hentered)

theorem valid_startState (cap : Nat) : startState.Valid cap where
  built :=
    { ids := nofun
      versions := fun _ => rfl
      current := nofun
      forward := nofun
      joins := nofun
      emitted := rfl }
  within := Nat.zero_le _
  outDefs := nofun

/-- The form that a valid state has reached. -/
theorem singleAssignment_of_valid (h : s.Valid) : SingleAssignment s.values s.edges where
  distinct := by
    rw [List.Nodup, List.pairwise_iff_getElem]
    intro i j hi hj hij heq
    rw [List.getElem_map, List.getElem_map] at heq
    rw [List.length_map] at hi hj
    have hi' := h.ids i _ (List.getElem?_eq_getElem hi)
    have hj' := h.ids j _ (List.getElem?_eq_getElem hj)
    exact absurd (hi'.inj (heq ▸ hj')) hij.ne
  versions storage := ⟨_, h.versions storage⟩
  forward := h.forward
  joins := h.joins

/-- No storage has more versions than there are values. -/
theorem version_le {values : List SsaValueRecord} {edges : List DataflowEdgeRecord}
    {value : SsaValueRecord} (h : SingleAssignment values edges) (hvalue : value ∈ values) :
    value.version ≤ values.length := by
  obtain ⟨k, hk⟩ := h.versions value.storage
  have hmem : value.version ∈ versionsOf values value.storage :=
    List.mem_map_of_mem (List.mem_filter.mpr ⟨hvalue, decide_eq_true rfl⟩)
  have hlength : (versionsOf values value.storage).length ≤ values.length := by
    rw [versionsOf, List.length_map]
    exact List.length_filter_le _ _
  rw [hk, List.length_range'] at hlength
  rw [hk, List.mem_range'_1] at hmem
  omega

/-- The result of a function is in single-assignment form and within the cap, which bounds the
versions too. -/
theorem processFunctionSlice_singleAssignment (task : SsaTask) :
    SingleAssignment task.processFunctionSlice.1 task.processFunctionSlice.2.1 ∧
      task.processFunctionSlice.1.length ≤ task.perFunctionCap ∧
      ∀ value ∈ task.processFunctionSlice.1, value.version ≤ task.perFunctionCap := by
  have h := valid_processInstructions task.ir (valid_startState task.perFunctionCap)
  have hform := singleAssignment_of_valid h.built
  exact ⟨hform, h.within, fun value hvalue => (version_le hform hvalue).trans h.within⟩

end SsaTask
end Axe.Static
