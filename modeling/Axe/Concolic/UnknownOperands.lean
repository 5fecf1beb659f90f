import Axe.Concolic.OperandGrammar
import Axe.Concolic.ShadowSorts

/-!
# Operands outside the grammar

An operand that the parser does not understand should leave a destination
concrete. No operand it can return does so in every state: an immediate is always
a value, a register may be symbolic, and a memory operand is an address.
-/
namespace Axe.Concolic

open Smt (SmtSort)
open X86 (Reg)

section Reading

/-- A state of a run from a fresh emulator. -/
def ShadowEmulator.Reachable (em : ShadowEmulator) : Prop :=
  ∃ dag base len, ExprDag.Built dag ∧ Reached (.new dag base len) (fun em _ => em.HasRoom) em

/-- Loading the operand leaves every register concrete, in every state. -/
def LeftConcrete (op : Operand) : Prop :=
  ∀ em : ShadowEmulator, em.Reachable → em.HasRoom → ∀ name w, registerWidth name = some w →
    ∃ em', stepMov [.reg name w, op] em = some ((), em') ∧
      ∀ c ∈ canonicalReg name, em'.state.regs c = none

variable {em : ShadowEmulator} {op : Operand}

theorem new_reachable (base : BitVec 64) (len : BitVec 32) :
    (ShadowEmulator.new .new base len).Reachable := ⟨.new, base, len, .new, .start⟩

theorem new_hasRoom (base : BitVec 64) (len : BitVec 32) :
    (ShadowEmulator.new .new base len).HasRoom :=
  ⟨show 0 + 64 ≤ 2 ^ 32 by decide, show 0 + 64 ≤ 2 ^ 32 by decide⟩

/-- An operand that leaves registers concrete has no term. -/
theorem LeftConcrete.operandTerm (h : LeftConcrete op) (hop : op.WellFormed) (hr : em.Reachable)
    (hroom : em.HasRoom) : em.operandTerm op 64 = none := by
  obtain ⟨em', hrun, hnone⟩ := h em hr hroom "rax".toList 64 registerWidth_rax
  obtain ⟨dag, base, len, hd, hreach⟩ := hr
  obtain ⟨hb, hv⟩ := hreach.valid (fun _ _ h => h) hd (new_valid dag base len)
  have hops : ∀ o ∈ [.reg "rax".toList 64, op], o.WellFormed := by
    exact List.forall_mem_cons.mpr ⟨registerWidth_rax, by simpa using hop⟩
  have hout := (stepMov_acts hv hops ⟨hb, hroom.nodes, hroom.symbols⟩ _ _ hrun).outcome
  rw [ShadowEmulator.movEffect, regEffect, canonicalReg_rax] at hout
  obtain ⟨-, -, r, hregs, hrep⟩ := hout
  have hr := hnone .rax canonicalReg_rax
  rw [hregs, Function.update_self] at hr
  subst hr
  cases ht : em.operandTerm op 64 with
  | none => rfl
  | some t =>
    rw [ht] at hrep
    cases hrep

/-- The name of a whole register. -/
def regName : Reg → String
  | .rax => "rax" | .rbx => "rbx" | .rcx => "rcx" | .rdx => "rdx"
  | .rsi => "rsi" | .rdi => "rdi" | .rsp => "rsp" | .rbp => "rbp"
  | .r8 => "r8" | .r9 => "r9" | .r10 => "r10" | .r11 => "r11"
  | .r12 => "r12" | .r13 => "r13" | .r14 => "r14" | .r15 => "r15"

theorem stepMov_loads {em₁ : ShadowEmulator} {name : List Char} {c : Reg} {n : NodeId}
    (hname : canonicalReg name = some c) (hread : readOperand op 64 em = some (some n, em₁)) :
    stepMov [.reg name 64, op] em =
      some ((), { em₁ with state := em₁.state.writeReg c (some n) }) := by
  show (readOperand op 64 em).bind _ = _
  rw [hread]
  show writeReg64 name (some n) em₁ = _
  rw [writeReg64, hname]
  rfl

theorem stepInstruction_mov {em₁ : ShadowEmulator} {text : String} {ops : List Operand}
    (hparse : parseOperands text = some ops) (hstep : stepMov ops em = some ((), em₁)) :
    stepInstruction ⟨0, "mov", text⟩ em = some (none, em₁) := by
  have hmnemonic : InstructionRecord.lowerMnemonic ⟨0, "mov", text⟩ = "mov".toList := by
    show toAsciiLowercase "mov".toList = "mov".toList
    decide +kernel
  unfold stepInstruction
  rw [hparse, hmnemonic, mov_dispatch.1, mov_dispatch.2]
  show (stepMov ops em).bind _ = _
  rw [hstep]
  rfl

/-- Every register can be loaded from the input. -/
theorem exists_symbolic (c : Reg) :
    ∃ em : ShadowEmulator, em.Reachable ∧ em.HasRoom ∧ ∃ n, em.state.regs c = some n := by
  have hparse : parseOperands (regName c ++ ", [0]") =
      some [.reg (regName c).toList 64, .mem none 0 64] := by
    cases c <;> decide +kernel
  have hname : canonicalReg (regName c).toList = some c := by cases c <;> decide +kernel
  have hload : ((readOperand (.mem none 0 64) 64 (.new .new 0 8)).any fun p =>
      p.1.isSome && decide (p.2.dag.len ≤ 64 ∧ p.2.dag.symbols.length ≤ 64)) = true := by
    decide +kernel
  obtain ⟨⟨r, em⟩, hread, hem⟩ := (Option.any_eq_true _ _).mp hload
  rw [Bool.and_eq_true, decide_eq_true_iff] at hem
  obtain ⟨n, rfl⟩ := Option.isSome_iff_exists.mp hem.1
  have hstep := stepInstruction_mov hparse (stepMov_loads hname hread)
  have hnodes : em.dag.len ≤ 64 := hem.2.1
  have hsymbols : em.dag.symbols.length ≤ 64 := hem.2.2
  refine ⟨_, ⟨.new, 0, 8, .new, .step .start (new_hasRoom 0 8) hstep⟩, ⟨?_, ?_⟩, n,
    Function.update_self ..⟩
  · show em.dag.len + 64 ≤ 2 ^ 32
    omega
  · show em.dag.symbols.length + 64 ≤ 2 ^ 32
    omega

/-- A memory operand whose address is in the input has a term. -/
theorem operandTerm_input {base : Option (List Char)} {disp : BitVec 64} {w : Nat}
    (hw : w ∈ [8, 16, 32, 64]) (hc : em.baseConcrete base)
    (hin : em.inInput (em.effectiveAddr base disp) (w / 8) = some true) :
    em.operandTerm (.mem base disp w) 64 ≠ none := by
  have hw : 8 ≤ w ∧ w ≤ 64 ∧ w % 8 = 0 := by
    simp only [List.mem_cons, List.not_mem_nil, or_false] at hw
    omega
  have hsome : ∀ is acc, (acc.isSome ∨ is ≠ []) → (concatTerm (fun i => some (.symbol
      (.input (((em.effectiveAddr base disp - em.inputBase).setWidth 32).toNat + i)))) is acc).isSome := by
    intro is
    induction is with
    | nil =>
      intro acc h
      exact h.resolve_right (by simp)
    | cons i is ih =>
      intro acc _
      rw [concatTerm.eq_def]
      cases acc with
      | none => exact ih _ (.inl rfl)
      | some low => exact ih _ (.inl rfl)
  have hrange : List.range (w / 8) ≠ [] := by
    rw [Ne, List.range_eq_nil]
    omega
  have := hsome _ none (.inr hrange)
  rw [ShadowEmulator.operandTerm, Nat.min_eq_left hw.2.1, Ne, Option.map_eq_none_iff,
    ShadowEmulator.regionTerm]
  rw [if_neg (by simp [hc]; omega), if_pos hin]
  exact Option.isSome_iff_ne_none.mp this

/-- An access that runs over the end of the address space panics. -/
theorem stepMov_panics {base : Option (List Char)} {disp : BitVec 64} {w : Nat}
    (hw : w ∈ [8, 16, 32, 64]) (hc : em.baseConcrete base)
    (hin : em.inInput (em.effectiveAddr base disp) (w / 8) = none) :
    stepMov [.reg "rax".toList 64, .mem base disp w] em = none := by
  have hw : 8 ≤ w ∧ w ≤ 64 ∧ w % 8 = 0 := by
    simp only [List.mem_cons, List.not_mem_nil, or_false] at hw
    omega
  have hread : readMemoryRegion base disp (min w 64) em = none := by
    by_contra hne
    obtain ⟨r, hr⟩ := Option.ne_none_iff_exists'.mp hne
    rw [Nat.min_eq_left hw.2.1, readMemoryRegion, if_neg (by omega)] at hr
    have hr := run_get_bind hr
    rw [if_neg (by simp [hc])] at hr
    obtain ⟨q, hq, -⟩ := Option.bind_eq_some_iff.mp hr
    rw [hin] at hq
    cases hq
  refine Option.bind_eq_none_iff.mpr fun p hp => ?_
  obtain ⟨q, hq, -⟩ := Option.bind_eq_some_iff.mp hp
  rw [hread] at hq
  cases hq

/-- An access above the input's start that is not in the input ends after it. -/
theorem inInput_outside {addr : BitVec 64} {count : Nat} (hcount : count ≤ 8)
    (hle : em.inputBase ≤ addr) (h : em.inInput addr count = some false) :
    addr.toNat + count < 2 ^ 64 ∧ em.inputBase.toNat + em.inputLen.toNat < addr.toNat + count := by
  have hlen := em.inputLen.isLt
  rw [ShadowEmulator.inInput, if_pos hle] at h
  obtain ⟨stop, hstop, h⟩ := Option.bind_eq_some_iff.mp h
  obtain ⟨inputStop, hinput, h⟩ := Option.bind_eq_some_iff.mp h
  obtain ⟨rfl, hstop⟩ := checkedAdd_eq_some hstop
  obtain ⟨rfl, hinput⟩ := checkedAdd_eq_some hinput
  have hlt := of_decide_eq_false (Option.some.inj h)
  simp only [BitVec.le_def, BitVec.toNat_add, BitVec.toNat_setWidth, BitVec.toNat_ofNat] at *
  omega

/-- With the right input no access is outside it: it is in the input, or it overflows. -/
theorem not_outside (base : Option (List Char)) (disp : BitVec 64) {count : Nat} (hpos : 1 ≤ count)
    (hcount : count ≤ 8)
    (h : ∀ b l, (ShadowEmulator.new .new b l).inInput
      ((ShadowEmulator.new .new b l).effectiveAddr base disp) count = some false) : False := by
  have hdisp := disp.isLt
  cases base with
  | none =>
    obtain ⟨-, hlt⟩ := inInput_outside hcount (BitVec.le_refl disp) (h disp (BitVec.ofNat 32 count))
    have hlen : (BitVec.ofNat 32 count).toNat = count := by
      rw [BitVec.toNat_ofNat, Nat.mod_eq_of_lt (by omega)]
    have hlt : disp.toNat + (BitVec.ofNat 32 count).toNat < disp.toNat + count := hlt
    omega
  | some name =>
    by_cases hin : disp.toNat + count < 2 ^ 32
    · have hadd : (0 : BitVec 64) + disp = disp := BitVec.zero_add disp
      have h := h 0 (BitVec.allOnes 32)
      change (ShadowEmulator.new .new 0 (BitVec.allOnes 32)).inInput (0 + disp) count = _ at h
      rw [hadd] at h
      have hzero : (0 : BitVec 64) ≤ disp := BitVec.le_def.mpr (Nat.zero_le _)
      obtain ⟨-, hlt⟩ := inInput_outside hcount hzero h
      have hlen : (BitVec.allOnes 32).toNat = 2 ^ 32 - 1 := BitVec.toNat_allOnes
      have hlt : 0 + (BitVec.allOnes 32).toNat < disp.toNat + count := hlt
      omega
    · have hadd : BitVec.allOnes 64 - disp + disp = BitVec.allOnes 64 := BitVec.sub_add_cancel _ _
      have h := h (BitVec.allOnes 64 - disp) 0
      change (ShadowEmulator.new .new (BitVec.allOnes 64 - disp) 0).inInput
        (BitVec.allOnes 64 - disp + disp) count = _ at h
      rw [hadd] at h
      have hones : (BitVec.allOnes 64).toNat = 2 ^ 64 - 1 := BitVec.toNat_allOnes
      have hle : (ShadowEmulator.new .new (BitVec.allOnes 64 - disp) 0).inputBase ≤
          BitVec.allOnes 64 := by
        have hlt := (ShadowEmulator.new .new (BitVec.allOnes 64 - disp) 0).inputBase.isLt
        rw [BitVec.le_def, hones]
        omega
      obtain ⟨hlt, -⟩ := inInput_outside hcount hle h
      rw [hones] at hlt
      omega

/-- No operand leaves registers concrete. -/
theorem not_leftConcrete (hop : op.WellFormed) : ¬ LeftConcrete op := by
  intro h
  cases op with
  | imm v =>
    have := h.operandTerm trivial (new_reachable 0 0) (new_hasRoom 0 0)
    cases this
  | reg name w =>
    obtain ⟨c, hc⟩ := Option.isSome_iff_exists.mp (canonicalReg_isSome hop)
    obtain ⟨em, hr, hroom, n, hn⟩ := exists_symbolic c
    have := h.operandTerm hop hr hroom
    rw [ShadowEmulator.operandTerm, hc, Option.bind_some, hn] at this
    cases this
  | mem base disp w =>
    have hconc : ∀ b l, (ShadowEmulator.new .new b l).baseConcrete base := by
      intro b l
      cases base with
      | none => rfl
      | some name =>
        obtain ⟨w, hw⟩ := Option.isSome_iff_exists.mp (hop.2 name rfl)
        obtain ⟨c, hc⟩ := Option.isSome_iff_exists.mp (canonicalReg_isSome hw)
        simp [ShadowEmulator.baseConcrete, hc, ShadowEmulator.new, ShadowState.new]
    have hin : ∀ b l, (ShadowEmulator.new .new b l).inInput
        ((ShadowEmulator.new .new b l).effectiveAddr base disp) (w / 8) = some false := by
      intro b l
      have hterm := h.operandTerm hop (new_reachable b l) (new_hasRoom b l)
      cases hin : (ShadowEmulator.new .new b l).inInput
          ((ShadowEmulator.new .new b l).effectiveAddr base disp) (w / 8) with
      | none =>
        obtain ⟨em', hrun, -⟩ := h _ (new_reachable b l) (new_hasRoom b l) "rax".toList 64
          registerWidth_rax
        rw [stepMov_panics hop.1 (hconc b l) hin] at hrun
        cases hrun
      | some v =>
        cases v with
        | false => rfl
        | true => exact absurd hterm (operandTerm_input hop.1 (hconc b l) hin)
    have hw := OperandWidth.bounds hop.1
    exact not_outside base disp (by omega) (by omega) hin

example : canonicalReg (regName .r9).toList = some .r9 := by decide +kernel

end Reading

section Grammar

def IntegerText (s : List Char) : Prop := ∃ t n, Numeral t n ∧ (s = t ∨ s = '-' :: t)

/-- Registers, integers and memory operands. -/
def InGrammar (s : List Char) : Prop :=
  (registerWidth s).isSome ∨ IntegerText s ∨ ∃ op, MemoryText s op

/-- A memory operand whose size keyword, if it has one, is followed by `ptr`, and whose
displacement is not -2^63. -/
def PlainMemory (s : List Char) : Prop :=
  ∃ t b d, AddressText t b d ∧ ¬ NegatesMin t ∧
    (s = bracketed t ∨ ∃ k ∈ sizeWords, s = k.1 ++ ' ' :: ("ptr".toList ++ ' ' :: bracketed t))

def PlainOperand (s : List Char) : Prop :=
  (registerWidth s).isSome ∨ IntegerText s ∨ PlainMemory s

/-- What an operand text should be read as: a memory operand as it is printed, and a text
outside the grammar as something that leaves registers concrete. -/
def ReadAsPrinted (s : List Char) (op : Operand) : Prop :=
  (∀ op', MemoryText s op' → op = op') ∧ (¬ InGrammar s → LeftConcrete op)

/-- The parser does not panic and reads every operand as it should. -/
def FaithfulParse (s : String) : Prop :=
  ∃ ops, parseOperands s = some ops ∧
    List.Forall₂ (fun piece op => ReadAsPrinted (trim piece) op) (splitOperands s.toList 0 []) ops

variable {raw s t : List Char} {op : Operand} {b : Option (List Char)} {d : BitVec 64}
  {k : List Char × Nat}

theorem parseSingleOperand_bare (h : AddressText t b d) (hraw : trim raw = bracketed t) :
    parseSingleOperand raw = (parseAddrInner t).map fun p => .mem p.1 p.2 64 := by
  have hstrip : stripWidthPrefix (trim raw) = (none, bracketed t) := by
    rw [hraw, stripWidthPrefix_none (bracketed_no_space h)]
  exact parseSingleOperand_bracketed hstrip

theorem parseSingleOperand_ptr (hk : k ∈ sizeWords)
    (hraw : trim raw = k.1 ++ ' ' :: ("ptr".toList ++ ' ' :: bracketed t)) :
    parseSingleOperand raw = (parseAddrInner t).map fun p => .mem p.1 p.2 k.2 :=
  parseSingleOperand_bracketed (hraw ▸ stripWidthPrefix_ptr hk _)

/-- A memory operand that is read at all, and not as a zero, is read as it is printed. -/
theorem parse_memoryText (h : MemoryText (trim raw) op) :
    parseSingleOperand raw = some op ∨ parseSingleOperand raw = none ∨
      parseSingleOperand raw = some (.imm 0) := by
  generalize hs : trim raw = s at h
  have haddr : ∀ {t b d} {w : Nat}, AddressText t b d →
      parseSingleOperand raw = (parseAddrInner t).map (fun p => .mem p.1 p.2 w) →
        parseSingleOperand raw = some (.mem b d w) ∨ parseSingleOperand raw = none ∨
          parseSingleOperand raw = some (.imm 0) := by
    intro t b d w ha hp
    by_cases hmin : NegatesMin t
    · exact .inr (.inl (by rw [hp, parseAddrInner_min ha hmin]; rfl))
    · exact .inl (by rw [hp, parseAddrInner_text ha hmin]; rfl)
  cases h with
  | bare ha => exact haddr ha (parseSingleOperand_bare ha hs)
  | ptr hk ha => exact haddr ha (parseSingleOperand_ptr hk hs)
  | keyword hk ha => exact .inr (.inr (parseSingleOperand_keyword hk ha hs))

theorem word_no_space (h : Word s) : ∀ c ∈ s, c ≠ ' ' := fun _ hc => h.ne hc (by decide)

/-- A register is read as one. -/
theorem parse_register (h : (registerWidth (trim raw)).isSome) :
    ∃ w, parseSingleOperand raw = some (.reg (toAsciiLowercase (trim raw)) w) := by
  obtain ⟨hword, c, cs, hcs, hd⟩ := registerWidth_word h
  obtain ⟨w, hw⟩ := Option.isSome_iff_exists.mp h
  refine ⟨w, ?_⟩
  have hc : c ≠ '[' := alphanum_ne (hword c (by simp [hcs])) (by decide)
  unfold parseSingleOperand
  rw [stripWidthPrefix_none (word_no_space hword)]
  dsimp only
  rw [hword.trim, if_neg (by rw [hcs]; simp [hc]), hw]
  rfl

/-- An integer is read as an immediate. -/
theorem parse_integer (h : IntegerText (trim raw)) : ∃ v, parseSingleOperand raw = some (.imm v) := by
  obtain ⟨t, n, hn, hs⟩ := h
  obtain ⟨hword, c, cs, hcs, hd⟩ := hn.word
  have hchars : ∀ x ∈ trim raw, x.isAlphanum ∨ x = '-' := by
    obtain hs | hs := hs <;> rw [hs]
    · exact fun x hx => .inl (hword x hx)
    · exact List.forall_mem_cons.mpr ⟨.inr rfl, fun x hx => .inl (hword x hx)⟩
  have hspace : ∀ x ∈ trim raw, x ≠ ' ' := fun x hx => (hchars x hx).elim
    (fun h => alphanum_ne h (by decide)) (fun h => h ▸ by decide)
  have htrim : trim (trim raw) = trim raw := trim_of_all fun x hx => (hchars x hx).elim
    isWhiteSpace_of_alphanum (fun h => h ▸ by decide)
  have hhead : ∃ x xs, trim raw = x :: xs ∧ x ≠ '[' ∧ (x.isDigit ∨ x = '-') := by
    obtain hs | hs := hs
    · exact ⟨c, cs, hs.trans hcs, isDigit_ne hd (by decide), .inl hd⟩
    · exact ⟨'-', t, hs, by decide, .inr rfl⟩
  obtain ⟨x, xs, hx, hbracket, hstart⟩ := hhead
  have hreg : registerWidth (trim raw) = none := by
    by_contra hne
    obtain ⟨hw, y, ys, hy, hyd⟩ := registerWidth_word (Option.isSome_iff_ne_none.mpr hne)
    cases hx.symm.trans hy
    obtain hstart | rfl := hstart
    · rw [hstart] at hyd
      cases hyd
    · exact absurd (hw '-' (by simp [hy])) (by decide)
  have hint : parseIntLike (trim raw) ≠ none := by
    intro hnone
    obtain ⟨r, hr⟩ := parseIntLike_eq_none hnone
    rw [htrim] at hr
    obtain hs | hs := hs
    · cases (hs.trans hcs).symm.trans hr
      exact absurd hd (by decide)
    · have ht := (List.cons.inj (hs.symm.trans hr)).2
      cases hcs.symm.trans ht
      exact absurd hd (by decide)
  obtain ⟨v, hv⟩ := Option.ne_none_iff_exists'.mp hint
  unfold parseSingleOperand
  rw [stripWidthPrefix_none hspace]
  dsimp only
  rw [htrim, if_neg (by rw [hx]; simp [hbracket]), hreg]
  dsimp only
  rw [hv]
  cases v with
  | none => exact ⟨0, rfl⟩
  | some v => exact ⟨v, rfl⟩

theorem PlainMemory.parse (h : PlainMemory (trim raw)) :
    ∃ b d w, parseSingleOperand raw = some (.mem b d w) := by
  obtain ⟨t, b, d, ha, hmin, hs | ⟨k, hk, hs⟩⟩ := h
  · exact ⟨b, d, 64, by rw [parseSingleOperand_bare ha hs, parseAddrInner_text ha hmin]; rfl⟩
  · exact ⟨b, d, k.2, by rw [parseSingleOperand_ptr hk hs, parseAddrInner_text ha hmin]; rfl⟩

/-- No text of a memory operand is a register or an integer. -/
theorem MemoryText.not_plain (h : MemoryText s op) :
    (registerWidth s).isSome = false ∧ ¬ IntegerText s := by
  have hmem : ']' ∈ s := by
    cases h <;> simp [bracketed]
  constructor
  · by_contra hne
    exact absurd ((registerWidth_word (Bool.of_not_eq_false hne)).1 _ hmem) (by decide)
  · rintro ⟨t, n, hn, rfl | rfl⟩
    · exact absurd (hn.word.1 _ hmem) (by decide)
    · obtain h | h := List.mem_cons.mp hmem
      · exact absurd h (by decide)
      · exact absurd (hn.word.1 _ h) (by decide)

theorem PlainMemory.text (h : PlainMemory s) : ∃ op, MemoryText s op := by
  obtain ⟨t, b, d, ha, -, rfl | ⟨k, hk, rfl⟩⟩ := h
  · exact ⟨_, .bare ha⟩
  · exact ⟨_, .ptr hk ha⟩

theorem PlainOperand.inGrammar (h : PlainOperand s) : InGrammar s := by
  obtain h | h | h := h
  · exact .inl h
  · exact .inr (.inl h)
  · exact .inr (.inr h.text)

/-- A plain operand is read as it should. -/
theorem PlainOperand.parse (h : PlainOperand (trim raw)) :
    ∃ op, parseSingleOperand raw = some op ∧ ReadAsPrinted (trim raw) op := by
  have hin := h.inGrammar
  obtain h | h | h := h
  · obtain ⟨w, hw⟩ := parse_register h
    refine ⟨_, hw, fun op' ht => ?_, fun hno => absurd hin hno⟩
    rw [ht.not_plain.1] at h
    cases h
  · obtain ⟨v, hv⟩ := parse_integer h
    exact ⟨_, hv, fun op' ht => absurd h ht.not_plain.2, fun hno => absurd hin hno⟩
  · obtain ⟨b, d, w, hp⟩ := h.parse
    refine ⟨_, hp, fun op' ht => ?_, fun hno => absurd hin hno⟩
    obtain hop | hop | hop := parse_memoryText ht <;> cases hp.symm.trans hop
    rfl

/-- An operand that is read as it should is plain. -/
theorem plainOperand_of_parse (hp : parseSingleOperand raw = some op)
    (h : ReadAsPrinted (trim raw) op) : PlainOperand (trim raw) := by
  by_cases hin : InGrammar (trim raw)
  · obtain hreg | hint | ⟨op', ht⟩ := hin
    · exact .inl hreg
    · exact .inr (.inl hint)
    · refine .inr (.inr ?_)
      obtain rfl := h.1 op' ht
      have hmin : ∀ {t b d} {w : Nat}, AddressText t b d →
          parseSingleOperand raw = (parseAddrInner t).map (fun p => .mem p.1 p.2 w) →
            ¬ NegatesMin t := by
        intro t b d w ha heq hmin
        rw [heq, parseAddrInner_min ha hmin] at hp
        cases hp
      generalize hs : trim raw = s at ht
      cases ht with
      | bare ha => exact ⟨_, _, _, ha, hmin ha (parseSingleOperand_bare ha hs), .inl rfl⟩
      | ptr hk ha =>
        exact ⟨_, _, _, ha, hmin ha (parseSingleOperand_ptr hk hs), .inr ⟨_, hk, rfl⟩⟩
      | keyword hk ha =>
        cases hp.symm.trans (parseSingleOperand_keyword hk ha hs)
  · exact absurd (h.2 hin) (not_leftConcrete (parseSingleOperand_wellFormed hp))

/-- The parser is faithful exactly on the texts of plain operands. -/
theorem parseOperands_faithful_iff (s : String) :
    FaithfulParse s ↔ depthFits s.toList 0 = true ∧
      ∀ piece ∈ splitOperands s.toList 0 [], PlainOperand (trim piece) := by
  constructor
  · rintro ⟨ops, hops, hall⟩
    obtain ⟨hdepth, hmap⟩ := Option.ite_none_right_eq_some.mp hops
    refine ⟨hdepth, ?_⟩
    have hparse := (DagFold.mapM_some_iff _ _ _).mp hmap
    clear hops hmap hdepth
    generalize splitOperands s.toList 0 [] = pieces at hall hparse ⊢
    induction hall with
    | nil => exact fun _ h => (by cases h)
    | cons h _ ih =>
      cases hparse with
      | cons hp hrest => exact List.forall_mem_cons.mpr ⟨plainOperand_of_parse hp h, ih hrest⟩
  · rintro ⟨hdepth, hall⟩
    suffices hparse : ∃ ops, (splitOperands s.toList 0 []).mapM parseSingleOperand = some ops ∧
        List.Forall₂ (fun piece op => ReadAsPrinted (trim piece) op)
          (splitOperands s.toList 0 []) ops by
      obtain ⟨ops, hops, h⟩ := hparse
      exact ⟨ops, by rw [parseOperands, if_pos hdepth, hops], h⟩
    clear hdepth
    generalize splitOperands s.toList 0 [] = pieces at hall ⊢
    induction pieces with
    | nil => exact ⟨[], rfl, .nil⟩
    | cons piece pieces ih =>
      obtain ⟨op, hop, hread⟩ := PlainOperand.parse (hall piece (by simp))
      obtain ⟨ops, hops, hreads⟩ := ih fun p hp => hall p (by simp [hp])
      refine ⟨op :: ops, ?_, .cons hread hreads⟩
      rw [List.mapM_cons, hop, hops]
      rfl

/-- The size keyword as the formatter prints it makes the operand a zero, and the lowest
displacement panics. -/
example : parseOperands "eax, 5" = some [.reg "eax".toList 32, .imm 5] := by decide +kernel

theorem parseOperands_unfaithful :
    ¬ FaithfulParse "eax,dword [rdi]" ∧ ¬ FaithfulParse "rax,[rdi-0x8000000000000000]" := by
  constructor
  · rintro ⟨ops, hops, hall⟩
    have hparse : parseOperands "eax,dword [rdi]" = some [.reg "eax".toList 32, .imm 0] := by
      decide +kernel
    have hsplit : splitOperands "eax,dword [rdi]".toList 0 [] =
        ["eax".toList, "dword [rdi]".toList] := by decide +kernel
    cases hparse.symm.trans hops
    rw [hsplit] at hall
    cases hall with
    | cons _ hall =>
      cases hall with
      | cons h _ =>
        have haddr : AddressText "rdi".toList (some (toAsciiLowercase "rdi".toList)) 0 :=
          .base (by decide +kernel)
        have htrim : trim "dword [rdi]".toList = "dword".toList ++ ' ' :: bracketed "rdi".toList := by
          decide +kernel
        have htext := MemoryText.keyword (k := ("dword".toList, 32)) (by decide +kernel) haddr
        cases h.1 _ (htrim ▸ htext)
  · rintro ⟨ops, hops, -⟩
    have hpanic : parseOperands "rax,[rdi-0x8000000000000000]" = none := by decide +kernel
    cases hpanic.symm.trans hops

example : parseOperands "rax, [rdi+8]" =
    some [.reg "rax".toList 64, .mem (some "rdi".toList) 8 64] := by decide +kernel

end Grammar

end Axe.Concolic
