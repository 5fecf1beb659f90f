import Axe.Concolic.Validate

/-!
# Interning into a built DAG

While the DAG has room for `u32` ids, interning returns the id of what was asked
for and keeps all that is there. `FitsSort` is the typing judgement that such
growth keeps and under which `validate` accepts.
-/
namespace Axe.Concolic

open Smt (SmtSort)

namespace ExprDag
variable {dag dag' dag'' : ExprDag} {k l : Nat}

theorem intern_of_some {e : Expr} {id : NodeId} (h : dag.index.lookup e = some id) :
    dag.intern e = (id, dag) := by
  rw [intern, h]

theorem intern_of_none {e : Expr} (h : dag.index.lookup e = none) :
    dag.intern e = (dag.len % 2 ^ 32, { dag with
      nodes := dag.nodes ++ [e], index := (e, dag.len % 2 ^ 32) :: dag.index }) := by
  rw [intern, h]
  rfl

theorem internSymbol_of_some {name : String} {v : SymbolId}
    (h : dag.symbolIndex.lookup name = some v) : dag.internSymbol name = (v, dag) := by
  rw [internSymbol, h]

theorem internSymbol_of_none {name : String} (h : dag.symbolIndex.lookup name = none) :
    dag.internSymbol name = (dag.symbols.length % 2 ^ 32, { dag with
      symbols := dag.symbols ++ [name]
      symbolIndex := (name, dag.symbols.length % 2 ^ 32) :: dag.symbolIndex }) := by
  rw [internSymbol, h]

theorem internSymbol_symbols (dag : ExprDag) (name : String) :
    (dag.internSymbol name).2.symbols = dag.symbols ∨
      (dag.internSymbol name).2.symbols = dag.symbols ++ [name] := by
  unfold internSymbol
  split
  · exact .inl rfl
  · exact .inr rfl

@[simp] theorem intern_symbols (dag : ExprDag) (e : Expr) :
    (dag.intern e).2.symbols = dag.symbols := by
  unfold intern
  split <;> rfl

@[simp] theorem intern_symbolIndex (dag : ExprDag) (e : Expr) :
    (dag.intern e).2.symbolIndex = dag.symbolIndex := by
  unfold intern
  split <;> rfl

@[simp] theorem internSymbol_index (dag : ExprDag) (name : String) :
    (dag.internSymbol name).2.index = dag.index := by
  unfold internSymbol
  split <;> rfl

theorem extends_intern (dag : ExprDag) (e : Expr) : (dag.intern e).2.Extends dag := by
  intro id f hf
  rcases intern_nodes dag e with hn | hn
  · rw [tryGet, hn]
    exact hf
  · rw [tryGet, hn, List.getElem?_append_left (lt_of_tryGet hf)]
    exact hf

theorem symbolName_internSymbol {name n : String} {v : SymbolId} (h : dag.symbolName v = some n) :
    (dag.internSymbol name).2.symbolName v = some n := by
  have hlt : v < dag.symbols.length := (List.getElem?_eq_some_iff.mp h).1
  rcases internSymbol_symbols dag name with hs | hs
  · rw [symbolName, hs]
    exact h
  · rw [symbolName, hs, List.getElem?_append_left hlt]
    exact h

theorem len_intern_le (dag : ExprDag) (e : Expr) :
    dag.len ≤ (dag.intern e).2.len ∧ (dag.intern e).2.len ≤ dag.len + 1 := by
  rcases intern_nodes dag e with hn | hn <;> simp [len, hn]

theorem symbols_internSymbol_le (dag : ExprDag) (name : String) :
    dag.symbols.length ≤ (dag.internSymbol name).2.symbols.length ∧
      (dag.internSymbol name).2.symbols.length ≤ dag.symbols.length + 1 := by
  rcases internSymbol_symbols dag name with hs | hs <;> simp [hs]

/-- The index knows the expressions, as long as ids do not wrap around. -/
theorem Built.index_sound (h : dag.Built) (hlen : dag.len ≤ 2 ^ 32) {e : Expr} {id : NodeId}
    (he : dag.index.lookup e = some id) : dag.tryGet id = some e := by
  induction h generalizing e id with
  | new => simp [ExprDag.new] at he
  | @internSymbol dag name _ ih =>
    rw [internSymbol_index] at he
    rw [len, internSymbol_nodes] at hlen
    rw [tryGet, internSymbol_nodes]
    exact ih hlen he
  | @intern dag f hdag hc hu ih =>
    have hlen' : dag.len ≤ 2 ^ 32 := (len_intern_le dag f).1.trans hlen
    cases hl : dag.index.lookup f with
    | some _ =>
      rw [intern_of_some hl] at he ⊢
      exact ih hlen' he
    | none =>
      rw [intern_of_none hl] at hlen he ⊢
      have hlt : dag.len < 2 ^ 32 := by
        simp only [len, List.length_append, List.length_singleton] at hlen ⊢
        omega
      rw [Nat.mod_eq_of_lt hlt, List.lookup_cons] at he
      split at he
      · rename_i hf
        cases beq_iff_eq.mp hf
        cases he
        simp [tryGet, len]
      · have := ih hlen' he
        rwa [tryGet, List.getElem?_append_left (lt_of_tryGet this)]

theorem Built.symbolIndex_sound (h : dag.Built) (hlen : dag.symbols.length ≤ 2 ^ 32) {n : String}
    {v : SymbolId} (he : dag.symbolIndex.lookup n = some v) : dag.symbolName v = some n := by
  induction h generalizing n v with
  | new => simp [ExprDag.new] at he
  | @intern dag f hdag hc hu ih =>
    rw [intern_symbolIndex] at he
    rw [intern_symbols] at hlen
    rw [symbolName, intern_symbols]
    exact ih hlen he
  | @internSymbol dag name _ ih =>
    have hlen' := (symbols_internSymbol_le dag name).1.trans hlen
    cases hl : dag.symbolIndex.lookup name with
    | some _ =>
      rw [internSymbol_of_some hl] at he ⊢
      exact ih hlen' he
    | none =>
      rw [internSymbol_of_none hl] at hlen he ⊢
      have hlt : dag.symbols.length < 2 ^ 32 := by
        simp only [List.length_append, List.length_singleton] at hlen
        omega
      rw [Nat.mod_eq_of_lt hlt, List.lookup_cons] at he
      split at he
      · rename_i hf
        cases beq_iff_eq.mp hf
        cases he
        simp [symbolName]
      · have := ih hlen' he
        rwa [symbolName, List.getElem?_append_left (List.getElem?_eq_some_iff.mp this).1]

/-- A DAG that can take `k` further nodes and symbols. -/
structure Room (dag : ExprDag) (k : Nat) : Prop where
  built : dag.Built
  nodes : dag.len + k ≤ 2 ^ 32
  symbols : dag.symbols.length + k ≤ 2 ^ 32

/-- A DAG after at most `k` nodes and symbols have been added. -/
structure Grows (k : Nat) (dag dag' : ExprDag) : Prop where
  built : dag'.Built
  keeps : dag'.Extends dag
  names : ∀ v n, dag.symbolName v = some n → dag'.symbolName v = some n
  len : dag'.len ≤ dag.len + k
  symbols : dag'.symbols.length ≤ dag.symbols.length + k

theorem Room.mono (h : dag.Room l) (hk : k ≤ l) : dag.Room k :=
  ⟨h.built, by have := h.nodes; omega, by have := h.symbols; omega⟩

theorem Grows.refl (h : dag.Built) : dag.Grows 0 dag :=
  ⟨h, fun _ _ h => h, fun _ _ h => h, le_rfl, le_rfl⟩

theorem Grows.trans (h : dag.Grows k dag') (h' : dag'.Grows l dag'') : dag.Grows (k + l) dag'' :=
  ⟨h'.built, fun id e he => h'.keeps id e (h.keeps id e he),
    fun v n hn => h'.names v n (h.names v n hn),
    by have := h.len; have := h'.len; omega, by have := h.symbols; have := h'.symbols; omega⟩

theorem Grows.mono (h : dag.Grows k dag') (hk : k ≤ l) : dag.Grows l dag' :=
  ⟨h.built, h.keeps, h.names, by have := h.len; omega, by have := h.symbols; omega⟩

theorem Grows.room (h : dag.Grows k dag') (hr : dag.Room (k + l)) : dag'.Room l :=
  ⟨h.built, by have := h.len; have := hr.nodes; omega,
    by have := h.symbols; have := hr.symbols; omega⟩

theorem Grows.lt (h : dag.Grows k dag') {n : NodeId} (hn : n < dag.len) : n < dag'.len := by
  obtain ⟨e, he⟩ := exists_tryGet hn
  exact lt_of_tryGet (h.keeps n e he)

/-- Interning an expression over ids of the DAG. -/
theorem Room.intern {e : Expr} (hr : dag.Room 1) (hc : ∀ c ∈ childrenOf e, c < dag.len)
    (hu : U32 e) : dag.Grows 1 (dag.intern e).2 ∧
      (dag.intern e).2.tryGet (dag.intern e).1 = some e := by
  have hbuilt : (dag.intern e).2.Built := .intern hr.built hc hu
  have hlen := len_intern_le dag e
  refine ⟨⟨hbuilt, extends_intern dag e, fun v n hn => ?_, hlen.2, by simp⟩, ?_⟩
  · rwa [symbolName, intern_symbols]
  · have hnodes := hr.nodes
    refine hbuilt.index_sound (by omega) ?_
    cases hl : dag.index.lookup e with
    | some id => rwa [intern_of_some hl]
    | none => simp [intern_of_none hl]

theorem Room.internSymbol {name : String} (hr : dag.Room 1) :
    dag.Grows 1 (dag.internSymbol name).2 ∧
      (dag.internSymbol name).2.symbolName (dag.internSymbol name).1 = some name ∧
      (dag.internSymbol name).1 < 2 ^ 32 := by
  have hbuilt : (dag.internSymbol name).2.Built := .internSymbol hr.built
  have hlen := symbols_internSymbol_le dag name
  have hsymbols := hr.symbols
  have hname : (dag.internSymbol name).2.symbolName (dag.internSymbol name).1 = some name := by
    refine hbuilt.symbolIndex_sound (by omega) ?_
    cases hl : dag.symbolIndex.lookup name with
    | some id => rwa [internSymbol_of_some hl]
    | none => simp [internSymbol_of_none hl]
  refine ⟨⟨hbuilt, fun id e he => ?_, fun v n => symbolName_internSymbol, ?_, hlen.2⟩, hname, ?_⟩
  · rwa [tryGet, internSymbol_nodes]
  · simp [len]
  · exact (List.getElem?_eq_some_iff.mp hname).1.trans_le (hlen.2.trans hsymbols)

/-- The typing rules, at widths that fit `u32`. -/
def fitsAlg (e : Expr) (ss : List SmtSort) : Option SmtSort :=
  (sortAlg e ss).filter fun s => ∀ w ∈ bvWidth s, w < 2 ^ 32

/-- The node and all below it have sorts of widths that fit `u32`. -/
def FitsSort (dag : ExprDag) (id : NodeId) (s : SmtSort) : Prop :=
  DagFold.Folds dag.tryGet childrenOf fitsAlg id s

theorem FitsSort.hasSort {id : NodeId} {s : SmtSort} (h : dag.FitsSort id s) : dag.HasSort id s := by
  obtain ⟨t, ht, rfl⟩ : ∃ t, DagFold.Folds dag.tryGet childrenOf sortAlg id t ∧ s = t :=
    DagFold.Folds.fuse (fun _ e ss ts s _ hts hs => by
      obtain rfl := List.forall₂_eq_eq_eq ▸ hts
      exact ⟨s, (Option.filter_eq_some_iff.mp hs).1, rfl⟩) h
  exact ht

theorem FitsSort.narrow {id : NodeId} {s : SmtSort} (h : dag.FitsSort id s) : Narrow s := by
  obtain ⟨e, ss, -, -, hs⟩ := DagFold.Folds.iff.mp h
  have hw := of_decide_eq_true (Option.filter_eq_some_iff.mp hs).2
  rintro w rfl
  exact hw w rfl

theorem FitsSort.extend (hx : dag'.Extends dag) {id : NodeId} {s : SmtSort}
    (h : dag.FitsSort id s) : dag'.FitsSort id s :=
  DagFold.Folds.congr h (fun n e _ he => hx n e he) fun _ _ _ _ _ => rfl

/-- No sort below is too wide for `validate` to ask for. -/
theorem FitsSort.not_wide {id : NodeId} {s : SmtSort} (h : dag.FitsSort id s) {n : NodeId}
    (hn : dag.Reaches id n) : ¬ Wide dag n := by
  rintro ⟨w, hw, hlax⟩
  obtain ⟨t, ht⟩ := DagFold.Folds.of_reaches h hn
  have := DagFold.Folds.unique (FitsSort.hasSort ht).lax hlax
  have := FitsSort.narrow ht w this
  omega

/-- What fits is accepted. -/
theorem FitsSort.validate (hd : dag.Built) {id : NodeId} {s : SmtSort} (h : dag.FitsSort id s) :
    dag.validate id = .ok () :=
  (validate_eq_ok_iff id hd.ordered.acyclic hd.varsNarrow).mpr
    ⟨⟨s, h.hasSort.lax⟩, fun _ hc => h.not_wide hc.reaches⟩

theorem FitsSort.sortOf (hd : dag.Built) {id : NodeId} {s : SmtSort} (h : dag.FitsSort id s) :
    dag.sortOf id = .ok s :=
  h.hasSort.lax.sortOf_of_validate hd.ordered.acyclic h.narrow (h.validate hd)

end ExprDag

end Axe.Concolic
