import Axe.Lib.Smt

/-!
# SMT-LIB scripts

Terms over any type of symbols, and the commands of a script with the text they
stand for. The sort and the value of a term are computed from the declarations
of its symbols, so one that is not declared has neither. A hexadecimal literal
has four bits for each of its digits.
-/
namespace Smt

inductive Term (κ : Type) where
  | symbol (name : κ)
  | lit (b : Bool)
  | bvNum (value width : Nat)
  | hex (digits : List Char)
  | app (op : Op) (args : List (Term κ))

inductive Command where
  | setInfo (info : String)
  | setLogic (logic : String)
  | setOption (opt : String)
  | declareFun (name : String) (sort : SmtSort)
  | assertNamed (body : Term String) (name : String)
  | checkSat
  | getModel
  | getUnsatCore
  | exit

abbrev Script := List Command

section Render

def Op.head : Op → String
  | .not => "not"
  | .and => "and"
  | .or => "or"
  | .eq => "="
  | .bin .add => "bvadd"
  | .bin .sub => "bvsub"
  | .bin .mul => "bvmul"
  | .bin .and => "bvand"
  | .bin .or => "bvor"
  | .bin .xor => "bvxor"
  | .bin .shl => "bvshl"
  | .bin .lshr => "bvlshr"
  | .bin .ashr => "bvashr"
  | .cmp .ult => "bvult"
  | .cmp .ule => "bvule"
  | .cmp .slt => "bvslt"
  | .cmp .sle => "bvsle"
  | .extract hi lo => s!"(_ extract {hi} {lo})"
  | .concat => "concat"
  | .zeroExtend extra => s!"(_ zero_extend {extra})"
  | .signExtend extra => s!"(_ sign_extend {extra})"
  | .ite => "ite"
  | .select => "select"
  | .store => "store"

mutual
def Term.render : Term String → String
  | .symbol name => name
  | .lit b => if b then "true" else "false"
  | .bvNum value width => s!"(_ bv{value} {width})"
  | .hex digits => "#x" ++ String.ofList digits
  | .app op args => "(" ++ op.head ++ Term.renderArgs args ++ ")"

def Term.renderArgs : List (Term String) → String
  | [] => ""
  | t :: ts => " " ++ t.render ++ Term.renderArgs ts
end

def SmtSort.render : SmtSort → String
  | .bool => "Bool"
  | .bv w => s!"(_ BitVec {w})"
  | .array i v => s!"(Array (_ BitVec {i}) (_ BitVec {v}))"

def Command.render : Command → String
  | .setInfo a => s!"(set-info {a})"
  | .setLogic l => s!"(set-logic {l})"
  | .setOption o => s!"(set-option {o})"
  | .declareFun name s => s!"(declare-fun {name} () {s.render})"
  | .assertNamed body name => s!"(assert (! {body.render} :named {name}))"
  | .checkSat => "(check-sat)"
  | .getModel => "(get-model)"
  | .getUnsatCore => "(get-unsat-core)"
  | .exit => "(exit)"

/-- One command a line. -/
def Script.render : Script → String
  | [] => ""
  | c :: cs => c.render ++ "\n" ++ Script.render cs

theorem Script.render_append (s t : Script) :
    Script.render (s ++ t) = Script.render s ++ Script.render t := by
  induction s with
  | nil => simp [Script.render]
  | cons c s ih => rw [List.cons_append, Script.render, ih, Script.render, ← String.append_assoc]

theorem render_app_one (op : Op) (t : Term String) :
    (Term.app op [t]).render = s!"({op.head} {t.render})" := by
  simp only [Term.render, Term.renderArgs, String.append_assoc, String.append_empty]
  rfl

theorem render_app_two (op : Op) (t u : Term String) :
    (Term.app op [t, u]).render = s!"({op.head} {t.render} {u.render})" := by
  simp only [Term.render, Term.renderArgs, String.append_assoc, String.append_empty]
  rfl

theorem render_app_three (op : Op) (t u v : Term String) :
    (Term.app op [t, u, v]).render = s!"({op.head} {t.render} {u.render} {v.render})" := by
  simp only [Term.render, Term.renderArgs, String.append_assoc, String.append_empty]
  rfl

end Render

section Hex

def isHexDigit (c : Char) : Bool :=
  ('0' ≤ c && c ≤ '9') || ('a' ≤ c && c ≤ 'f') || ('A' ≤ c && c ≤ 'F')

def hexDigit (c : Char) : Nat :=
  if c ≤ '9' then c.toNat - '0'.toNat
  else if c ≤ 'F' then c.toNat - 'A'.toNat + 10
  else c.toNat - 'a'.toNat + 10

def hexValue (digits : List Char) : Nat := digits.foldl (fun n c => 16 * n + hexDigit c) 0

theorem hexDigit_digitChar {d : Nat} (h : d < 16) :
    hexDigit d.digitChar = d ∧ isHexDigit d.digitChar = true := by
  have : ∀ d < 16, hexDigit (Nat.digitChar d) = d ∧ isHexDigit (Nat.digitChar d) = true := by decide
  exact this d h

theorem hexValue_toDigits (n : Nat) : hexValue (Nat.toDigits 16 n) = n := by
  induction n using Nat.strongRecOn with
  | ind n ih =>
    rw [Nat.toDigits_eq_if (by decide)]
    split
    · rename_i h
      simp [hexValue, (hexDigit_digitChar h).1]
    · have := ih (n / 16) (by omega)
      rw [hexValue] at this
      rw [hexValue, List.foldl_append, this, List.foldl_cons, List.foldl_nil,
        (hexDigit_digitChar (Nat.mod_lt n (by decide))).1]
      omega

theorem isHexDigit_toDigits (n : Nat) : ∀ c ∈ Nat.toDigits 16 n, isHexDigit c = true := by
  induction n using Nat.strongRecOn with
  | ind n ih =>
    rw [Nat.toDigits_eq_if (by decide)]
    split
    · rename_i h
      simpa using (hexDigit_digitChar h).2
    · intro c hc
      rcases List.mem_append.mp hc with hc | hc
      · exact ih (n / 16) (by omega) c hc
      · rw [List.mem_singleton.mp hc]
        exact (hexDigit_digitChar (Nat.mod_lt n (by decide))).2

/-- Leading zeros change neither the value nor the alphabet. -/
theorem hexValue_leftpad (k : Nat) (ds : List Char) : hexValue (ds.leftpad k '0') = hexValue ds := by
  have h : ∀ j, (List.replicate j '0').foldl (fun n c => 16 * n + hexDigit c) 0 = 0 := by
    intro j
    induction j with
    | zero => rfl
    | succ j ih => rw [List.replicate_succ, List.foldl_cons]; exact ih
  rw [List.leftpad, hexValue, List.foldl_append, h, hexValue]

theorem isHexDigit_leftpad (k : Nat) {ds : List Char} (h : ∀ c ∈ ds, isHexDigit c = true) :
    ∀ c ∈ ds.leftpad k '0', isHexDigit c = true := by
  intro c hc
  rcases List.mem_append.mp hc with hc | hc
  · rw [List.eq_of_mem_replicate hc]
    decide
  · exact h c hc

end Hex

section Meaning
variable {κ : Type} (decl : κ → Option SmtSort)

mutual
/-- The sort of a term. An operator needs an operand, also `and` and `or`. -/
def Term.sort : Term κ → Option SmtSort
  | .symbol name => decl name
  | .lit _ => some .bool
  | .bvNum value width => if 0 < width ∧ value < 2 ^ width then some (.bv width) else none
  | .hex digits =>
    if digits ≠ [] ∧ digits.all isHexDigit then some (.bv (4 * digits.length)) else none
  | .app op args => if args.isEmpty then none else (Term.sorts args).bind op.sort

def Term.sorts : List (Term κ) → Option (List SmtSort)
  | [] => some []
  | t :: ts => do return (← t.sort) :: (← Term.sorts ts)
end

mutual
/-- The value of a term under an assignment of the declared symbols. -/
def Term.eval (ρ : Assignment κ) : Term κ → Option Value
  | .symbol name => (decl name).map fun s => .of s (ρ name s)
  | .lit b => some (.bool b)
  | .bvNum value width => some (.bv width (BitVec.ofNat width value))
  | .hex digits => some (.bv (4 * digits.length) (BitVec.ofNat _ (hexValue digits)))
  | .app op args => (Term.evals ρ args).bind op.apply

def Term.evals (ρ : Assignment κ) : List (Term κ) → Option (List Value)
  | [] => some []
  | t :: ts => do return (← t.eval ρ) :: (← Term.evals ρ ts)
end

variable {decl}

theorem Term.sorts_eq_some {ts : List (Term κ)} {ss : List SmtSort}
    (h : List.Forall₂ (fun t s => t.sort decl = some s) ts ss) : Term.sorts decl ts = some ss := by
  induction h with
  | nil => rfl
  | cons h _ ih => simp [Term.sorts, h, ih]

theorem Term.forall₂_of_sorts {ts : List (Term κ)} {ss : List SmtSort}
    (h : Term.sorts decl ts = some ss) : List.Forall₂ (fun t s => t.sort decl = some s) ts ss := by
  induction ts generalizing ss with
  | nil =>
    cases h
    exact .nil
  | cons t ts ih =>
    obtain ⟨s, hs, h⟩ := Option.bind_eq_some_iff.mp h
    obtain ⟨ss', hss, h⟩ := Option.bind_eq_some_iff.mp h
    cases h
    exact .cons hs (ih hss)

theorem Term.evals_eq_some {ρ : Assignment κ} {ts : List (Term κ)} {vs : List Value}
    (h : List.Forall₂ (fun t v => t.eval decl ρ = some v) ts vs) :
    Term.evals decl ρ ts = some vs := by
  induction h with
  | nil => rfl
  | cons h _ ih => simp [Term.evals, h, ih]

/-- An application has the sort and the value its operator gives to its operands. -/
theorem Term.sort_app {o : Op} {ts : List (Term κ)} {ss : List SmtSort} (hne : ts ≠ [])
    (h : List.Forall₂ (fun t s => t.sort decl = some s) ts ss) :
    (Term.app o ts).sort decl = o.sort ss := by
  rw [Term.sort, if_neg (by simpa using hne), Term.sorts_eq_some h, Option.bind_some]

theorem Term.eval_app {o : Op} {ρ : Assignment κ} {ts : List (Term κ)} {vs : List Value}
    (h : List.Forall₂ (fun t v => t.eval decl ρ = some v) ts vs) :
    (Term.app o ts).eval decl ρ = o.apply vs := by
  rw [Term.eval, Term.evals_eq_some h, Option.bind_some]

def Command.declared : Command → Option (String × SmtSort)
  | .declareFun name s => some (name, s)
  | _ => none

def Command.asserted : Command → Option (Term String)
  | .assertNamed body _ => some body
  | _ => none

/-- The sort a script declares a symbol with. -/
def Script.declares (s : Script) (name : String) : Option SmtSort :=
  (s.filterMap Command.declared).lookup name

def Script.bodies (s : Script) : List (Term String) := s.filterMap Command.asserted

end Meaning

end Smt
