import Mathlib.Data.Nat.Find
import Axe.Static.Switches

/-!
# What a chain of comparisons does

The values of a chain are read as values of the register that it is named after. A comparison of
another part of the register or of memory tells something else, and a value that comes twice jumps
at the first.
-/
namespace Axe.Static.Switches

/-- Registers by the names of their families, and memory. -/
structure Machine where
  reg : String → BitVec 64
  mem : X86.Memory

/-- What a register holds, as it takes part in an address. -/
def Machine.value (σ : Machine) : Register → BitVec 64
  | .general r p => (X86.readPart p.offset p.width (σ.reg (generalName r))).setWidth 64
  | .other name _ => σ.reg name

/-- The register with a low byte of this name. -/
def lowOwner (name : String) : Option X86.Reg :=
  [.r8, .r9, .r10, .r11, .r12, .r13, .r14, .r15].find? fun r => lowName r = some name

/-- What the register of a name holds. -/
def Machine.named (σ : Machine) (name : String) : BitVec 64 :=
  (lowOwner name).elim (σ.reg name) fun r => σ.value (.general r .low)

/-- The address of the memory operand. -/
def Machine.address (σ : Machine) (instr : Instruction) : BitVec 64 :=
  instr.ipRelMemoryAddress.elim
    (instr.memoryBase.elim 0 σ.value +
      instr.memoryIndex.elim 0 σ.value * BitVec.ofNat 64 instr.memoryIndexScale +
      BitVec.ofFin instr.memoryDisplacement64)
    BitVec.ofFin

/-- The zero flag of a comparison with an immediate: what is compared equals the immediate, which
is cut to its width. A comparison without an immediate is in no chain. -/
def Machine.equal (σ : Machine) (instr : Instruction) : Bool :=
  match instr.operands with
  | [.register (.general r p), .immediate i] =>
    decide (X86.readPart p.offset p.width (σ.reg (generalName r)) = i.bits.setWidth p.width)
  | [.memory, .immediate i] =>
    decide (σ.mem.load (σ.address instr) (8 * instr.memorySize) =
      i.bits.setWidth (8 * instr.memorySize))
  | _ => false

/-- Where the instructions of a chain jump to first: comparisons set the zero flag, and the jumps
among them read it. -/
def Machine.exitOf (σ : Machine) : (zero : Bool) → List Decoded → Option Nat
  | _, [] => none
  | zero, d :: rest =>
    if d.mnemonic = "cmp" then σ.exitOf (σ.equal d.instr) rest
    else if zero then some d.instr.nearBranchTarget
    else σ.exitOf zero rest

/-- Addresses are made of registers of more than a byte. -/
def AddressRegister (r : Register) : Prop := ∀ reg, r ≠ .general reg .low

/-- An immediate that is compared with a byte is one without a sign. -/
def Fits (q : Part) (i : Immediate) : Prop := q.width = 8 → i.width = 8 ∧ i.signed = false

/-- The forms of a comparison with an immediate, which has 32 bits at most. -/
def ValidCmp (d : Decoded) : Prop :=
  d.mnemonic = "cmp" → (fromIced d).immediate.isSome →
    ∃ i : Immediate, i.width ≤ 32 ∧
      ((∃ r p, d.instr.operands = [.register (.general r p), .immediate i] ∧ Fits p i) ∨
        d.instr.operands = [.memory, .immediate i] ∧ d.instr.memorySize ≤ 8 ∧
          (∀ r ∈ d.instr.memoryBase, AddressRegister r) ∧
          ∀ r ∈ d.instr.memoryIndex, AddressRegister r)

/-- The case list tells where the chain jumps: to the target of the one case that has the value of
the register. -/
def Describes (code : List Decoded) (c : Chain) (cases : List SwitchCase) : Prop :=
  ∀ (σ : Machine) (zero : Bool) (t : Nat),
    σ.exitOf zero ((code.drop c.start).take (2 * c.count)) = some t ↔
      ∃ i, cases[i]? = some ⟨(σ.named c.reg).toInt, t⟩ ∧
        ∀ (j : Nat) (case : SwitchCase), j ≠ i → cases[j]? = some case →
          case.value ≠ (σ.named c.reg).toInt

/-- The part of the register that its name stands for: all of it, or a low byte that has a name of
its own. -/
def Named (r : X86.Reg) (p : Part) : Prop := p = .qword ∨ p = .low ∧ (lowName r).isSome

/-- Each comparison of a chain is one of the register that its name stands for, and no two have
the same value. -/
structure Whole (code : List Decoded) (c : Chain) : Prop where
  register : ∀ m < c.count, ∃ d r p i, code[c.start + 2 * m]? = some d ∧ Named r p ∧
    d.instr.operands = [.register (.general r p), .immediate i]
  distinct : ∀ m < c.count, ∀ n < c.count, m ≠ n → ∀ d e : Decoded,
    code[c.start + 2 * m]? = some d → code[c.start + 2 * n]? = some e →
      (fromIced d).immediate ≠ (fromIced e).immediate

section Chains
variable {code : List Decoded} {c : Chain} {reg : String} {p : Nat} {d : Decoded}

/-- What a pair of the slice is in the code. -/
theorem PairAt.decoded (h : PairAt (code.map fromIced) reg p) :
    ∃ d b, code[p]? = some d ∧ code[p + 1]? = some b ∧ d.mnemonic = "cmp" ∧
      (fromIced d).immediate.isSome ∧ (fromIced d).readRegs.head? = some reg ∧
      b.mnemonic ≠ "cmp" ∧ (fromIced b).directTarget = some b.instr.nearBranchTarget := by
  obtain ⟨cmp, branch, hcmp, hbranch, hname, hreg, hjump⟩ := h
  rw [List.getElem?_map, Option.map_eq_some_iff] at hcmp hbranch
  obtain ⟨d, hd, rfl⟩ := hcmp
  obtain ⟨b, hb, rfl⟩ := hbranch
  simp only [isCmpRegImm, isEqBranch, Bool.and_eq_true, decide_eq_true_iff, fromIced_mnemonic]
    at hname hjump
  refine ⟨d, b, hd, hb, hname.1.1, hname.1.2, hreg, fun heq => ?_, ?_⟩
  · rw [heq] at hjump
    exact absurd hjump.1 (by decide)
  · have hsome := hjump.2
    rw [fromIced_directTarget, branchTarget] at hsome ⊢
    split at hsome
    · rename_i hne
      rw [if_pos hne]
    · cases hsome

/-- Whether the comparison at a position finds equal values. -/
def Machine.equalAt (σ : Machine) (code : List Decoded) (p : Nat) : Bool :=
  (code[p]?.map fun d => σ.equal d.instr).getD false

theorem Machine.equalAt_of_get {σ : Machine} (hd : code[p]? = some d) :
    σ.equalAt code p = σ.equal d.instr := by
  rw [equalAt, hd]
  rfl

theorem drop_of_get (hd : code[p]? = some d) : code.drop p = d :: code.drop (p + 1) := by
  obtain ⟨hlt, rfl⟩ := List.getElem?_eq_some_iff.mp hd
  exact List.drop_eq_getElem_cons hlt

/-- A chain is left at the first comparison that finds equal values. -/
theorem Machine.exitOf_iff (σ : Machine) {count s t : Nat} (zero : Bool)
    (h : ∀ m < count, PairAt (code.map fromIced) reg (s + 2 * m)) :
    σ.exitOf zero ((code.drop s).take (2 * count)) = some t ↔
      ∃ m < count, σ.equalAt code (s + 2 * m) = true ∧
        (∀ n < m, σ.equalAt code (s + 2 * n) = false) ∧
        (caseAt (code.map fromIced) (s + 2 * m)).targetVa = t := by
  induction count generalizing s zero with
  | zero =>
    rw [Nat.mul_zero, List.take_zero, exitOf]
    refine iff_of_false (by simp) ?_
    rintro ⟨m, hm, -⟩
    exact Nat.not_lt_zero m hm
  | succ count ih =>
    have hfirst := h 0 (Nat.succ_pos count)
    rw [Nat.mul_zero, Nat.add_zero] at hfirst
    obtain ⟨d, b, hd, hb, hcmp, -, -, hjump, htarget⟩ := hfirst.decoded
    have hrest : ∀ m < count, PairAt (code.map fromIced) reg (s + 2 + 2 * m) := by
      intro m hm
      have hpair := h (m + 1) (Nat.succ_lt_succ hm)
      rwa [show s + 2 * (m + 1) = s + 2 + 2 * m by omega] at hpair
    have hzero : σ.equalAt code s = σ.equal d.instr := σ.equalAt_of_get hd
    have hcase : (caseAt (code.map fromIced) s).targetVa = b.instr.nearBranchTarget := by
      simp only [caseAt, List.getElem?_map, hb, Option.map_some, Option.bind_some, htarget,
        Option.getD_some]
    rw [drop_of_get hd, drop_of_get hb, show 2 * (count + 1) = 2 * count + 1 + 1 by omega,
      List.take_succ_cons, List.take_succ_cons, exitOf, if_pos hcmp, exitOf, if_neg hjump]
    cases heq : σ.equal d.instr with
    | true =>
      rw [if_pos rfl, Option.some.injEq]
      constructor
      · intro ht
        exact ⟨0, Nat.succ_pos count, hzero.trans heq, fun n hn => absurd hn (Nat.not_lt_zero n),
          hcase.trans ht⟩
      · rintro ⟨m, -, -, hbefore, ht⟩
        cases m with
        | zero => exact hcase.symm.trans ht
        | succ m =>
          have hno := hbefore 0 (Nat.succ_pos m)
          rw [Nat.mul_zero, Nat.add_zero, hzero, heq] at hno
          cases hno
    | false =>
      rw [if_neg Bool.false_ne_true, show s + 1 + 1 = s + 2 from rfl, ih false hrest]
      constructor
      · rintro ⟨m, hm, hyes, hbefore, ht⟩
        refine ⟨m + 1, Nat.succ_lt_succ hm, ?_, fun n hn => ?_, ?_⟩
        · rwa [show s + 2 * (m + 1) = s + 2 + 2 * m by omega]
        · cases n with
          | zero => exact hzero.trans heq
          | succ n =>
            rw [show s + 2 * (n + 1) = s + 2 + 2 * n by omega]
            exact hbefore n (Nat.lt_of_succ_lt_succ hn)
        · rwa [show s + 2 * (m + 1) = s + 2 + 2 * m by omega]
      · rintro ⟨m, hm, hyes, hbefore, ht⟩
        cases m with
        | zero =>
          rw [Nat.mul_zero, Nat.add_zero, hzero, heq] at hyes
          cases hyes
        | succ m =>
          rw [show s + 2 * (m + 1) = s + 2 + 2 * m by omega] at hyes ht
          refine ⟨m, Nat.lt_of_succ_lt_succ hm, hyes, fun n hn => ?_, ht⟩
          rw [show s + 2 + 2 * n = s + 2 * (n + 1) by omega]
          exact hbefore (n + 1) (Nat.succ_lt_succ hn)

theorem fromIced_immediate {o : Operand} {i : Immediate}
    (h : d.instr.operands = [o, .immediate i]) : (fromIced d).immediate = some i.value := by
  rw [fromIced, h]
  rfl

theorem asI64_value (i : Immediate) : asI64 i.value = i.bits.toInt := rfl

theorem asI64_inj {a b : Word} (h : asI64 a = asI64 b) : a = b :=
  congrArg BitVec.toFin (BitVec.toInt_inj.mp h)

/-- The register that a comparison of a register reads first. -/
theorem fromIced_readRegs {r : Register} {i : Immediate} (hname : d.mnemonic = "cmp")
    (h : d.instr.operands = [.register r, .immediate i]) :
    (fromIced d).readRegs = [normalizeRegister r] := by
  have hwrites : writesFirstOperand "cmp" = false := by decide
  rw [fromIced, h, hname]
  simp [liftOperand, hwrites, liftHead, pushUnique]

/-- The register that a comparison of memory reads first is one of the address. -/
theorem fromIced_memoryRegs {i : Immediate} (h : d.instr.operands = [.memory, .immediate i])
    (hreg : (fromIced d).readRegs.head? = some reg) :
    ∃ r, (r ∈ d.instr.memoryBase ∨ r ∈ d.instr.memoryIndex) ∧ normalizeRegister r = reg := by
  have hregs : (fromIced d).readRegs =
      pushRegister (pushRegister [] d.instr.memoryBase) d.instr.memoryIndex := by
    rw [fromIced, h]
    rfl
  rw [hregs] at hreg
  cases hbase : d.instr.memoryBase with
  | some base =>
    refine ⟨base, .inl rfl, ?_⟩
    rw [hbase] at hreg
    cases hindex : d.instr.memoryIndex with
    | none =>
      rw [hindex] at hreg
      exact Option.some.inj hreg
    | some index =>
      rw [hindex, pushRegister, Option.map_some, Option.elim_some, pushUnique] at hreg
      split at hreg
      · exact Option.some.inj hreg
      · exact Option.some.inj hreg
  | none =>
    rw [hbase] at hreg
    cases hindex : d.instr.memoryIndex with
    | none =>
      rw [hindex] at hreg
      cases hreg
    | some index =>
      rw [hindex] at hreg
      exact ⟨index, .inr rfl, Option.some.inj hreg⟩

theorem caseAt_value (hd : code[p]? = some d) :
    (caseAt (code.map fromIced) p).value = asI64 ((fromIced d).immediate.getD 0) := by
  simp only [caseAt, List.getElem?_map, hd, Option.map_some, Option.bind_some]

theorem lowOwner_eq_none {name : String} (h : name ∉ lowNames) : lowOwner name = none := by
  refine List.find?_eq_none.mpr fun r hr hname => h ?_
  have hall : ∀ r ∈ ([.r8, .r9, .r10, .r11, .r12, .r13, .r14, .r15] : List X86.Reg),
      ∀ name ∈ lowName r, name ∈ lowNames := by decide
  exact hall r hr name (of_decide_eq_true hname)

theorem lowOwner_lowName {r : X86.Reg} {name : String} (h : lowName r = some name) :
    lowOwner name = some r := by
  cases r <;> cases h <;> decide

/-- Of the parts only a low byte with a name of its own is named after less than all. -/
theorem not_mem_lowNames {r : X86.Reg} {q : Part} (h : ¬ (q = .low ∧ (lowName r).isSome)) :
    normalizeRegister (.general r q) ∉ lowNames := by
  rcases normalizeRegister_general r q with hname | ⟨rfl, hname⟩
  · rw [hname]
    cases r <;> decide
  · rw [hname] at h
    exact absurd ⟨rfl, rfl⟩ h

theorem AddressRegister.not_mem_lowNames {r : Register} (h : AddressRegister r) :
    normalizeRegister r ∉ lowNames := by
  cases r with
  | general r q =>
    refine Switches.not_mem_lowNames ?_
    rintro ⟨rfl, -⟩
    exact h r rfl
  | other name own => exact fun hlow => own (List.mem_append_right _ hlow)

theorem Machine.named_eq_reg (σ : Machine) {name : String} (h : name ∉ lowNames) :
    σ.named name = σ.reg name := by
  rw [named, lowOwner_eq_none h, Option.elim_none]

theorem readPart_zero {w : Nat} (x : BitVec 64) : X86.readPart 0 w x = x.setWidth w := by
  apply BitVec.eq_of_toNat_eq
  rw [X86.readPart, BitVec.extractLsb'_toNat, Nat.shiftRight_zero, BitVec.toNat_setWidth]

theorem Named.offset {r : X86.Reg} {q : Part} (h : Named r q) : q.offset = 0 := by
  rcases h with rfl | ⟨rfl, -⟩
  · rfl
  · rfl

/-- The register that a name stands for holds what the part holds. -/
theorem Machine.named_normalize (σ : Machine) {r : X86.Reg} {q : Part} (h : Named r q) :
    σ.named (normalizeRegister (.general r q)) =
      ((σ.reg (generalName r)).setWidth q.width).setWidth 64 := by
  rcases h with rfl | ⟨rfl, hlow⟩
  · rw [σ.named_eq_reg (not_mem_lowNames fun h => Part.noConfusion h.1)]
    simp only [Part.width, BitVec.setWidth_eq, normalizeRegister]
  · obtain ⟨name, hname⟩ := Option.isSome_iff_exists.mp hlow
    rw [normalizeRegister, hname, Option.getD_some, named, lowOwner_lowName hname,
      Option.elim_some, value]
    simp only [Part.offset, readPart_zero]

theorem setWidth_setWidth {q : Part} (x : BitVec q.width) :
    (x.setWidth 64).setWidth q.width = x := by
  have hle : q.width ≤ 64 := by
    cases q <;> decide
  have hlt := Nat.lt_of_lt_of_le x.isLt (Nat.pow_le_pow_right Nat.two_pos hle)
  apply BitVec.eq_of_toNat_eq
  rw [BitVec.toNat_setWidth, BitVec.toNat_setWidth, Nat.mod_eq_of_lt hlt, Nat.mod_eq_of_lt x.isLt]

/-- The immediate keeps its value in the width of what it is compared with. -/
theorem Fits.setWidth {r : X86.Reg} {q : Part} {i : Immediate} (hfits : Fits q i)
    (h : Named r q) : (i.bits.setWidth q.width).setWidth 64 = i.bits := by
  rcases h with rfl | ⟨rfl, -⟩
  · rw [Part.width, BitVec.setWidth_eq, BitVec.setWidth_eq]
  · obtain ⟨hwidth, hsigned⟩ := hfits rfl
    have hlt : i.raw.toNat < 2 ^ 8 := hwidth ▸ i.raw.isLt
    rw [Immediate.bits, hsigned, if_neg Bool.false_ne_true]
    apply BitVec.eq_of_toNat_eq
    simp only [BitVec.toNat_setWidth, Part.width]
    omega

/-- What the comparison of a pair compares with its immediate. -/
theorem PairAt.form (hpair : PairAt (code.map fromIced) reg p) (hvalid : ∀ d ∈ code, ValidCmp d) :
    ∃ d i, code[p]? = some d ∧ i.width ≤ 32 ∧
      (caseAt (code.map fromIced) p).value = i.bits.toInt ∧
      ((∃ r q, d.instr.operands = [.register (.general r q), .immediate i] ∧ Fits q i ∧
          normalizeRegister (.general r q) = reg) ∨
        d.instr.operands = [.memory, .immediate i] ∧ d.instr.memorySize ≤ 8 ∧
          reg ∉ lowNames) := by
  obtain ⟨d, -, hd, -, hname, hsome, hreg, -⟩ := hpair.decoded
  obtain ⟨i, hwidth, ⟨r, q, hops, hfits⟩ | ⟨hops, hsize, hbase, hindex⟩⟩ :=
    hvalid d (List.mem_of_getElem? hd) hname hsome
  · refine ⟨d, i, hd, hwidth, ?_, .inl ⟨r, q, hops, hfits, ?_⟩⟩
    · rw [caseAt_value hd, fromIced_immediate hops, Option.getD_some, asI64_value]
    · rwa [fromIced_readRegs hname hops, List.head?_cons, Option.some.injEq] at hreg
  · refine ⟨d, i, hd, hwidth, ?_, .inr ⟨hops, hsize, ?_⟩⟩
    · rw [caseAt_value hd, fromIced_immediate hops, Option.getD_some, asI64_value]
    · obtain ⟨r, hr | hr, rfl⟩ := fromIced_memoryRegs hops hreg
      · exact (hbase r hr).not_mem_lowNames
      · exact (hindex r hr).not_mem_lowNames

/-- A comparison of the register of the chain finds equal values where the register has the value
of the case. -/
theorem Machine.equalAt_named {r : X86.Reg} {q : Part} {i : Immediate} (σ : Machine)
    (hpair : PairAt (code.map fromIced) reg p) (hvalid : ∀ d ∈ code, ValidCmp d)
    (hd : code[p]? = some d) (h : d.instr.operands = [.register (.general r q), .immediate i])
    (hnamed : Named r q) :
    σ.equalAt code p = true ↔ (caseAt (code.map fromIced) p).value = (σ.named reg).toInt := by
  obtain ⟨d', i', hd', -, hvalue, ⟨r', q', hops, hfits, hreg⟩ | ⟨hops, -⟩⟩ := hpair.form hvalid
  · cases hd.symm.trans hd'
    cases h.symm.trans hops
    rw [σ.equalAt_of_get hd, hvalue, equal, h, BitVec.toInt_inj, ← hreg,
      σ.named_normalize hnamed]
    simp only [hnamed.offset, readPart_zero]
    constructor
    · intro heq
      rw [of_decide_eq_true heq, hfits.setWidth hnamed]
    · intro heq
      exact decide_eq_true (by rw [heq, setWidth_setWidth])
  · cases hd.symm.trans hd'
    cases h.symm.trans hops

theorem casesFrom_getElem? {slice : List LiftedInstruction} {s count i : Nat} {case : SwitchCase} :
    (casesFrom slice s count)[i]? = some case ↔ i < count ∧ caseAt slice (s + 2 * i) = case := by
  rw [casesFrom, List.getElem?_map, Option.map_eq_some_iff]
  constructor
  · rintro ⟨m, hm, rfl⟩
    obtain ⟨hlt, heq⟩ := List.getElem?_eq_some_iff.mp hm
    rw [List.length_range] at hlt
    rw [List.getElem_range] at heq
    exact ⟨hlt, by rw [heq]⟩
  · rintro ⟨hlt, rfl⟩
    exact ⟨i, by rw [List.getElem?_range hlt], rfl⟩

/-- A case names its value and the target of its jump. -/
theorem caseAt_eq_iff {slice : List LiftedInstruction} {v : Int} {t : Nat} :
    caseAt slice p = ⟨v, t⟩ ↔ (caseAt slice p).value = v ∧ (caseAt slice p).targetVa = t := by
  cases caseAt slice p
  rw [SwitchCase.mk.injEq]

/-- The first index with a property, and that none before it has it. -/
theorem exists_first {P : Nat → Prop} {m : Nat} (h : P m) :
    ∃ k ≤ m, P k ∧ ∀ n < k, ¬ P n := by
  classical
  have hsome : ∃ m, P m := ⟨m, h⟩
  exact ⟨Nat.find hsome, Nat.find_min' hsome h, Nat.find_spec hsome, fun n => Nat.find_min hsome⟩

/-- An immediate of 32 bits at most is no number that needs 33 bits. -/
theorem bits_ne {i : Immediate} {v : BitVec 64} (hwidth : i.width ≤ 32) (hlow : 2 ^ 32 ≤ v.toNat)
    (hhigh : v.toNat < 2 ^ 33) : i.bits ≠ v := by
  rintro rfl
  rw [Immediate.bits] at hlow hhigh
  split at hlow
  · rename_i hsigned
    rw [if_pos hsigned] at hhigh
    have hle := BitVec.toInt_signExtend_of_le (x := i.raw) (show i.width ≤ 64 by omega)
    have hlt := BitVec.two_mul_toInt_lt (x := i.raw)
    have hbig := BitVec.toInt_eq_toNat_of_lt (x := i.raw.signExtend 64) (by omega)
    have hpow : (2 : Int) ^ i.width ≤ 2 ^ 32 :=
      mod_cast Nat.pow_le_pow_right (show 0 < 2 by decide) hwidth
    omega
  · rw [BitVec.toNat_setWidth] at hlow
    have hlt := i.raw.isLt
    have hpow : 2 ^ i.width ≤ 2 ^ 32 := Nat.pow_le_pow_right (by decide) hwidth
    have hmod := Nat.mod_le i.raw.toNat (2 ^ 64)
    omega

theorem readPart_above {p : Part} (hp : p ≠ .qword) (y : BitVec p.width) :
    X86.readPart p.offset p.width (BitVec.ofNat 64 (2 ^ 32 + y.toNat * 2 ^ p.offset)) = y := by
  have hy := y.isLt
  apply BitVec.eq_of_toNat_eq
  rw [X86.readPart, BitVec.extractLsb'_toNat, BitVec.toNat_ofNat, Nat.shiftRight_eq_div_pow]
  cases p with
  | qword => exact absurd rfl hp
  | low | high | word | dword =>
    simp only [Part.offset, Part.width] at hy ⊢
    omega

/-- Where a comparison is not one of a whole register, a register value that is no immediate can
make it find equal values. -/
theorem exists_equal {o : Operand} {i : Immediate} (hops : d.instr.operands = [o, .immediate i])
    (hform : (∃ r p, p ≠ Part.qword ∧ o = .register (.general r p)) ∨
      o = .memory ∧ d.instr.memorySize ≤ 8) :
    ∃ (σ : Machine) (v : BitVec 64), (∀ name, σ.reg name = v) ∧ 2 ^ 32 ≤ v.toNat ∧
      v.toNat < 2 ^ 33 ∧ σ.equal d.instr = true := by
  rcases hform with ⟨r, p, hp, rfl⟩ | ⟨rfl, hsize⟩
  · have hy := (i.bits.setWidth p.width).isLt
    have hfit : (i.bits.setWidth p.width).toNat * 2 ^ p.offset < 2 ^ 32 := by
      cases p with
      | qword => exact absurd rfl hp
      | low | high | word | dword =>
        simp only [Part.offset, Part.width] at hy ⊢
        omega
    obtain ⟨v, hv⟩ :
        ∃ v, v = BitVec.ofNat 64 (2 ^ 32 + (i.bits.setWidth p.width).toNat * 2 ^ p.offset) :=
      ⟨_, rfl⟩
    have hnat : v.toNat = 2 ^ 32 + (i.bits.setWidth p.width).toNat * 2 ^ p.offset := by
      rw [hv, BitVec.toNat_ofNat, Nat.mod_eq_of_lt (by omega)]
    refine ⟨⟨fun _ => v, fun _ => 0⟩, v, fun _ => rfl, by omega, by omega, ?_⟩
    rw [Machine.equal, hops]
    refine decide_eq_true ?_
    rw [hv]
    exact readPart_above hp _
  · let σ : Machine := ⟨fun _ => BitVec.ofNat 64 (2 ^ 32), fun _ => 0⟩
    refine ⟨⟨σ.reg, X86.Memory.store σ.mem (σ.address d.instr)
      (i.bits.setWidth (8 * d.instr.memorySize))⟩, BitVec.ofNat 64 (2 ^ 32), fun _ => rfl,
      by decide, by decide, ?_⟩
    rw [Machine.equal, hops]
    exact decide_eq_true (X86.Memory.load_store _ _ _ (Nat.mul_mod_right 8 _) (by omega))

section Describes
variable (hpairs : ∀ m < c.count, PairAt (code.map fromIced) c.reg (c.start + 2 * m))
  (hvalid : ∀ d ∈ code, ValidCmp d)
include hpairs hvalid

theorem Whole.equalAt_iff (hwhole : Whole code c) (σ : Machine) {m : Nat} (hm : m < c.count) :
    σ.equalAt code (c.start + 2 * m) = true ↔
      (caseAt (code.map fromIced) (c.start + 2 * m)).value = (σ.named c.reg).toInt := by
  obtain ⟨d, r, q, i, hd, hnamed, hops⟩ := hwhole.register m hm
  exact σ.equalAt_named (hpairs m hm) hvalid hd hops hnamed

omit hvalid in
theorem value_ne_of_immediate_ne {m n : Nat} (hm : m < c.count) (hn : n < c.count)
    (hne : ∀ d e : Decoded, code[c.start + 2 * m]? = some d → code[c.start + 2 * n]? = some e →
      (fromIced d).immediate ≠ (fromIced e).immediate) :
    (caseAt (code.map fromIced) (c.start + 2 * m)).value ≠
      (caseAt (code.map fromIced) (c.start + 2 * n)).value := by
  obtain ⟨d, -, hd, -, -, hsome, -⟩ := (hpairs m hm).decoded
  obtain ⟨e, -, he, -, -, hsome', -⟩ := (hpairs n hn).decoded
  obtain ⟨a, ha⟩ := Option.isSome_iff_exists.mp hsome
  obtain ⟨b, hb⟩ := Option.isSome_iff_exists.mp hsome'
  rw [caseAt_value hd, caseAt_value he, ha, hb, Option.getD_some, Option.getD_some]
  intro heq
  refine hne d e hd he ?_
  rw [ha, hb, asI64_inj heq]

/-- A chain of comparisons of its register with different values is described by its cases. -/
theorem Whole.describes (hwhole : Whole code c) :
    Describes code c (casesFrom (code.map fromIced) c.start c.count) := by
  intro σ zero t
  rw [σ.exitOf_iff zero hpairs]
  constructor
  · rintro ⟨m, hm, heq, -, ht⟩
    rw [hwhole.equalAt_iff hpairs hvalid σ hm] at heq
    refine ⟨m, casesFrom_getElem?.mpr ⟨hm, caseAt_eq_iff.mpr ⟨heq, ht⟩⟩, fun j case hj hcase => ?_⟩
    obtain ⟨hlt, rfl⟩ := casesFrom_getElem?.mp hcase
    rw [← heq]
    exact value_ne_of_immediate_ne hpairs hlt hm (hwhole.distinct j hlt m hm hj)
  · rintro ⟨m, hcase, hother⟩
    obtain ⟨hm, hsame⟩ := casesFrom_getElem?.mp hcase
    obtain ⟨heq, ht⟩ := caseAt_eq_iff.mp hsame
    refine ⟨m, hm, (hwhole.equalAt_iff hpairs hvalid σ hm).mpr heq, fun n hn => ?_, ht⟩
    rw [← Bool.not_eq_true, hwhole.equalAt_iff hpairs hvalid σ (hn.trans hm)]
    exact hother n _ (Nat.ne_of_lt hn) (casesFrom_getElem?.mpr ⟨hn.trans hm, rfl⟩)

/-- No case has a value that needs 33 bits. -/
theorem value_ne_above {v : BitVec 64} (hlow : 2 ^ 32 ≤ v.toNat) (hhigh : v.toNat < 2 ^ 33)
    {m : Nat} (hm : m < c.count) :
    (caseAt (code.map fromIced) (c.start + 2 * m)).value ≠ v.toInt := by
  obtain ⟨d, i, -, hwidth, hvalue, -⟩ := (hpairs m hm).form hvalid
  rw [hvalue]
  exact fun heq => bits_ne hwidth hlow hhigh (BitVec.toInt_inj.mp heq)

/-- Where the cases describe the chain its first comparison of anything else than its register
would jump for a value that no case has. -/
theorem Describes.register
    (h : Describes code c (casesFrom (code.map fromIced) c.start c.count)) :
    ∀ m < c.count, ∃ d r q i, code[c.start + 2 * m]? = some d ∧ Named r q ∧
      d.instr.operands = [.register (.general r q), .immediate i] := by
  by_contra hbad
  push Not at hbad
  obtain ⟨m, hm⟩ := hbad
  obtain ⟨k, -, ⟨hk, hother⟩, hfirst⟩ := exists_first (P := fun m => m < c.count ∧
    ∀ (d : Decoded) r q i, code[c.start + 2 * m]? = some d → Named r q →
      d.instr.operands ≠ [.register (.general r q), .immediate i]) hm
  obtain ⟨d, i, hd, -, -, hform⟩ := (hpairs k hk).form hvalid
  -- what is compared instead can have the value while the register has one above all cases
  have hequal : c.reg ∉ lowNames ∧ ∃ (σ : Machine) (v : BitVec 64), (∀ name, σ.reg name = v) ∧
      2 ^ 32 ≤ v.toNat ∧ v.toNat < 2 ^ 33 ∧ σ.equal d.instr = true := by
    rcases hform with ⟨r, q, hops, -, hreg⟩ | ⟨hops, hsize, hreg⟩
    · have hnot : ¬ Named r q := fun hnamed => hother d r q i hd hnamed hops
      obtain ⟨hq, hlow⟩ := not_or.mp hnot
      exact ⟨hreg ▸ not_mem_lowNames hlow, exists_equal hops (.inl ⟨r, q, hq, rfl⟩)⟩
    · exact ⟨hreg, exists_equal hops (.inr ⟨rfl, hsize⟩)⟩
  obtain ⟨hreg, σ, v, hall, hlow, hhigh, heq⟩ := hequal
  have hv : σ.named c.reg = v := (σ.named_eq_reg hreg).trans (hall c.reg)
  have hexit := (σ.exitOf_iff false hpairs (t := (caseAt (code.map fromIced)
    (c.start + 2 * k)).targetVa)).mpr ⟨k, hk, (σ.equalAt_of_get hd).trans heq, fun n hn => ?_, rfl⟩
  · obtain ⟨j, hcase, -⟩ := (h σ false _).mp hexit
    obtain ⟨hj, hsame⟩ := casesFrom_getElem?.mp hcase
    rw [hv] at hsame
    exact value_ne_above hpairs hvalid hlow hhigh hj (caseAt_eq_iff.mp hsame).1
  · have hn' := hn.trans hk
    have hnamed := not_and.mp (hfirst n hn) hn'
    push Not at hnamed
    obtain ⟨e, r, q, a, he, hnamed, hops⟩ := hnamed
    rw [← Bool.not_eq_true, σ.equalAt_named (hpairs n hn') hvalid he hops hnamed, hv]
    exact value_ne_above hpairs hvalid hlow hhigh hn'

/-- Where all registers hold what a comparison of the register of the chain compares it with, the
register has the value of the case. -/
theorem named_of_all {m : Nat} {r : X86.Reg} {q : Part} {i : Immediate} (hm : m < c.count)
    (hd : code[c.start + 2 * m]? = some d) (hnamed : Named r q)
    (hops : d.instr.operands = [.register (.general r q), .immediate i]) (σ : Machine)
    (hall : ∀ name, σ.reg name = BitVec.ofInt 64
      (caseAt (code.map fromIced) (c.start + 2 * m)).value) :
    (σ.named c.reg).toInt = (caseAt (code.map fromIced) (c.start + 2 * m)).value := by
  obtain ⟨d', i', hd', -, hvalue, ⟨r', q', hops', hfits, hreg⟩ | ⟨hops', -⟩⟩ :=
    (hpairs m hm).form hvalid
  · cases hd.symm.trans hd'
    cases hops.symm.trans hops'
    rw [← hreg, σ.named_normalize hnamed, hall, hvalue, BitVec.ofInt_toInt,
      hfits.setWidth hnamed]
  · cases hd.symm.trans hd'
    cases hops.symm.trans hops'

/-- Where the cases describe the chain no value comes twice: one of the two would be no case that
is alone with its value. -/
theorem Describes.distinct
    (h : Describes code c (casesFrom (code.map fromIced) c.start c.count))
    (hregister : ∀ m < c.count, ∃ d r q i, code[c.start + 2 * m]? = some d ∧ Named r q ∧
      d.instr.operands = [.register (.general r q), .immediate i]) :
    ∀ m < c.count, ∀ n < c.count, m ≠ n → ∀ d e : Decoded,
      code[c.start + 2 * m]? = some d → code[c.start + 2 * n]? = some e →
        (fromIced d).immediate ≠ (fromIced e).immediate := by
  intro m hm n hn hmn d e hd he hsame
  have hvalue : (caseAt (code.map fromIced) (c.start + 2 * m)).value =
      (caseAt (code.map fromIced) (c.start + 2 * n)).value := by
    rw [caseAt_value hd, caseAt_value he, hsame]
  let σ : Machine := ⟨fun _ => BitVec.ofInt 64
    (caseAt (code.map fromIced) (c.start + 2 * m)).value, fun _ => 0⟩
  have hreg : (σ.named c.reg).toInt = (caseAt (code.map fromIced) (c.start + 2 * m)).value := by
    obtain ⟨f, r, q, i, hf, hnamed, hops⟩ := hregister m hm
    exact named_of_all hpairs hvalid hm hf hnamed hops σ fun _ => rfl
  have hequal : ∀ k < c.count, σ.equalAt code (c.start + 2 * k) = true ↔
      (caseAt (code.map fromIced) (c.start + 2 * k)).value = (σ.named c.reg).toInt := by
    intro k hk
    obtain ⟨f, r, q, i, hf, hnamed, hops⟩ := hregister k hk
    exact σ.equalAt_named (hpairs k hk) hvalid hf hops hnamed
  obtain ⟨k, hk, heq, hfirst⟩ := exists_first (P := fun k =>
    σ.equalAt code (c.start + 2 * k) = true) ((hequal m hm).mpr hreg.symm)
  have hk' := Nat.lt_of_le_of_lt hk hm
  have hexit := (σ.exitOf_iff false hpairs).mpr ⟨k, hk', heq, fun n hn =>
    Bool.not_eq_true _ ▸ hfirst n hn, rfl⟩
  obtain ⟨i, -, hother⟩ := (h σ false _).mp hexit
  by_cases hmi : m = i
  · refine hother n _ (hmi ▸ Ne.symm hmn) (casesFrom_getElem?.mpr ⟨hn, rfl⟩) ?_
    rw [hreg, hvalue]
  · exact hother m _ hmi (casesFrom_getElem?.mpr ⟨hm, rfl⟩) hreg.symm

/-- The cases describe a chain exactly if its comparisons are of the register of the chain and
have different values. -/
theorem describes_iff :
    Describes code c (casesFrom (code.map fromIced) c.start c.count) ↔ Whole code c := by
  refine ⟨fun h => ?_, fun h => h.describes hpairs hvalid⟩
  have hregister := h.register hpairs hvalid
  exact ⟨hregister, h.distinct hpairs hvalid hregister⟩

end Describes

/-- Adjacent pairs of a comparison of one register operand and a jump on equality. -/
def RegisterRun (code : List Decoded) (r : Register) (s count : Nat) : Prop :=
  ∀ m < count, ∃ (d b : Decoded) (i : Immediate), code[s + 2 * m]? = some d ∧
    code[s + 2 * m + 1]? = some b ∧ d.mnemonic = "cmp" ∧
    d.instr.operands = [.register r, .immediate i] ∧ (b.mnemonic = "je" ∨ b.mnemonic = "jz") ∧
    b.instr.nearBranchTarget ≠ 0

theorem RegisterRun.pair {r : Register} {s count m : Nat} (h : RegisterRun code r s count)
    (hm : m < count) : PairAt (code.map fromIced) (normalizeRegister r) (s + 2 * m) := by
  obtain ⟨d, b, i, hd, hb, hname, hops, hjump, htarget⟩ := h m hm
  refine ⟨fromIced d, fromIced b, ?_, ?_, ?_, ?_, ?_⟩
  · rw [List.getElem?_map, hd, Option.map_some]
  · rw [List.getElem?_map, hb, Option.map_some]
  · rw [isCmpRegImm, fromIced_mnemonic, hname, fromIced_immediate hops,
      fromIced_readRegs hname hops]
    rfl
  · rw [fromIced_readRegs hname hops, List.head?_cons]
  · rw [isEqBranch, fromIced_mnemonic, fromIced_directTarget, branchTarget, if_pos htarget,
      Option.isSome_some, Bool.and_true]
    rcases hjump with hjump | hjump
    · rw [hjump]
      decide
    · rw [hjump]
      decide

/-- The pairs before a position reach back to one that has none before it. -/
theorem exists_start (slice : List LiftedInstruction) (reg : String) (s : Nat) :
    ∃ a n, a + 2 * n = s ∧ (∀ m < n, PairAt slice reg (a + 2 * m)) ∧
      ∀ p, a = p + 2 → ¬ PairAt slice reg p := by
  induction s using Nat.strong_induction_on with
  | _ s ih =>
    by_cases hprev : ∃ p, s = p + 2 ∧ PairAt slice reg p
    · obtain ⟨p, rfl, hp⟩ := hprev
      obtain ⟨a, n, rfl, hpairs, hfirst⟩ := ih p (by omega)
      refine ⟨a, n + 1, by omega, fun m hm => ?_, hfirst⟩
      rcases Nat.lt_succ_iff_lt_or_eq.mp hm with hlt | rfl
      · exact hpairs m hlt
      · exact hp
    · refine ⟨s, 0, rfl, fun m hm => absurd hm (Nat.not_lt_zero m), fun p hp hpair => ?_⟩
      exact hprev ⟨p, hp, hpair⟩

/-- A run of two pairs is part of a chain. -/
theorem RegisterRun.maximal {r : Register} {s count : Nat} (h : RegisterRun code r s count)
    (htwo : 2 ≤ count) :
    ∃ c, Maximal (code.map fromIced) c ∧ c.start ≤ s ∧ s + 2 * count ≤ c.stop := by
  obtain ⟨a, n, rfl, hbefore, hfirst⟩ :=
    exists_start (code.map fromIced) (normalizeRegister r) s
  obtain ⟨k, -, hbehind⟩ :=
    chainCases_spec (code.map fromIced) (normalizeRegister r) (a + 2 * n)
  have hlong : count ≤ k := by
    by_contra hshort
    exact hbehind.last (h.pair (Nat.not_le.mp hshort))
  refine ⟨⟨normalizeRegister r, a, n + k⟩, ⟨by dsimp only; omega, ⟨fun m hm => ?_, ?_⟩, hfirst⟩,
    Nat.le_add_right a _, by simp only [Chain.stop]; omega⟩
  · by_cases hlt : m < n
    · exact hbefore m hlt
    · have hpair := hbehind.pair (m - n) (by dsimp only at hm; omega)
      rwa [show a + 2 * n + 2 * (m - n) = a + 2 * m by omega] at hpair
  · rw [show a + 2 * (n + k) = a + 2 * n + 2 * k by omega]
    exact hbehind.last

/-- A chain is the only one over its pairs. -/
theorem Maximal.unique {slice : List LiftedInstruction} {c' : Chain} {s count : Nat}
    (h : Maximal slice c) (h' : Maximal slice c') (hpos : 0 < count) (hstart : c.start ≤ s)
    (hstart' : c'.start ≤ s) (hstop : s + 2 * count ≤ c.stop) (hstop' : s + 2 * count ≤ c'.stop) :
    c' = c := by
  rcases Nat.le_total c.start c'.start with hle | hle
  · exact h.eq_of_start_mem h' hle (by omega)
  · exact (h'.eq_of_start_mem h hle (by omega)).symm

end Chains

/-- The facts of the chains are right: their cases describe the chains, a run on one register
operand is covered by one of them, and they do not overlap. -/
structure Correct (functionVa : Nat) (code : List Decoded) (chains : List Chain) : Prop where
  described : ∀ c ∈ chains, Describes code c (factAt functionVa (code.map fromIced) c).cases
  covered : ∀ r s count, 2 ≤ count → RegisterRun code r s count →
    ∃! c, c ∈ chains ∧ c.start ≤ s ∧ s + 2 * count ≤ c.stop
  apart : chains.Pairwise fun c c' => c.stop ≤ c'.start

/-- The scan ends, and the facts are right exactly if each chain has comparisons of its register
with different values. -/
theorem detectCompareTrees_correct_iff (functionVa : Nat) (code : List Decoded)
    (hvalid : ∀ d ∈ code, ValidCmp d) :
    ∃ (facts : List SwitchFact) (chains : List Chain),
      detectCompareTrees functionVa (code.map fromIced) = some facts ∧
      facts = chains.map (factAt functionVa (code.map fromIced)) ∧
      (Correct functionVa code chains ↔
        ∀ c, Maximal (code.map fromIced) c → Whole code c) := by
  obtain ⟨facts, chains, hfacts, hmap, hmem, hapart⟩ :=
    detectCompareTrees_spec functionVa (code.map fromIced)
  refine ⟨facts, chains, hfacts, hmap, fun h c hc => ?_, fun h => ⟨fun c hc => ?_, ?_, hapart⟩⟩
  · exact (describes_iff hc.pairs.pair hvalid).mp (h.described c ((hmem c).mpr hc))
  · have hmax := (hmem c).mp hc
    exact (describes_iff hmax.pairs.pair hvalid).mpr (h c hmax)
  · intro r s count htwo hrun
    obtain ⟨c, hmax, hstart, hstop⟩ := hrun.maximal htwo
    refine ⟨c, ⟨(hmem c).mpr hmax, hstart, hstop⟩, ?_⟩
    rintro c' ⟨hc', hstart', hstop'⟩
    exact hmax.unique ((hmem c').mp hc') (by omega) hstart hstart' hstop hstop'

/-- A comparison of an operand with an immediate, and a jump on equality. -/
def comparePair (ip : Nat) (operand : Operand) (base : Option Register) (imm : Immediate)
    (target : Nat) : List Decoded :=
  [⟨⟨ip, 3, [operand, .immediate imm], base, none, 1, 0, 4, 0, none⟩, "cmp", false, false⟩,
    ⟨⟨ip + 3, 2, [.other], none, none, 1, 0, 0, target, none⟩, "je", false, true⟩]

/-- `cmp rcx, 1; je 0x2000; cmp rcx, 2; je 0x3000; cmp r8b, 3; je 0x2000; cmp r8b, 4; je 0x3000` -/
def registerCompares : List Decoded :=
  comparePair 0x1000 (.register (.general .rcx .qword)) none ⟨8, 1, true⟩ 0x2000 ++
    comparePair 0x1005 (.register (.general .rcx .qword)) none ⟨8, 2, true⟩ 0x3000 ++
    comparePair 0x100A (.register (.general .r8 .low)) none ⟨8, 3, false⟩ 0x2000 ++
    comparePair 0x100F (.register (.general .r8 .low)) none ⟨8, 4, false⟩ 0x3000

/-- Both chains compare their register, one all of `rcx` and the other the byte `r8l`. -/
theorem detectCompareTrees_correct_iff_registerCompares :
    ∃ (facts : List SwitchFact) (chains : List Chain),
      detectCompareTrees 0x1000 (registerCompares.map fromIced) = some facts ∧
      facts = chains.map (factAt 0x1000 (registerCompares.map fromIced)) ∧
      Correct 0x1000 registerCompares chains := by
  obtain ⟨facts, chains, hfacts, hmap, hiff⟩ :=
    detectCompareTrees_correct_iff 0x1000 registerCompares (by
      simp [registerCompares, comparePair, ValidCmp, Fits, Part.width])
  refine ⟨facts, chains, hfacts, hmap, hiff.mpr fun c hc => ⟨fun m hm => ?_, ?_⟩⟩
  · obtain ⟨d, -, hd, -, hname, -⟩ := (hc.pairs.pair m hm).decoded
    have hmem := List.mem_of_getElem? hd
    simp only [registerCompares, comparePair, List.cons_append, List.nil_append, List.mem_cons,
      List.not_mem_nil, or_false] at hmem
    rcases hmem with rfl | rfl | rfl | rfl | rfl | rfl | rfl | rfl
    · exact ⟨_, .rcx, .qword, _, hd, .inl rfl, rfl⟩
    · exact absurd hname (by decide)
    · exact ⟨_, .rcx, .qword, _, hd, .inl rfl, rfl⟩
    · exact absurd hname (by decide)
    · exact ⟨_, .r8, .low, _, hd, .inr ⟨rfl, rfl⟩, rfl⟩
    · exact absurd hname (by decide)
    · exact ⟨_, .r8, .low, _, hd, .inr ⟨rfl, rfl⟩, rfl⟩
    · exact absurd hname (by decide)
  · intro m hm n hn hmn d e hd he heq
    obtain ⟨d', -, hd', -, hname, -⟩ := (hc.pairs.pair m hm).decoded
    obtain ⟨e', -, he', -, hname', -⟩ := (hc.pairs.pair n hn).decoded
    cases hd.symm.trans hd'
    cases he.symm.trans he'
    have hlt : c.start + 2 * m < 8 := (List.getElem?_eq_some_iff.mp hd).1
    have hlt' : c.start + 2 * n < 8 := (List.getElem?_eq_some_iff.mp he).1
    -- the positions of the comparisons can be told from what they compare with
    have hall : ∀ p < 8, registerCompares[p]?.all (fun d => d.mnemonic ≠ "cmp" ||
        (fromIced d).immediate = some (Fin.ofNat (2 ^ 64) (p / 2 + 1))) = true := by decide
    have hfirst := hall _ hlt
    have hsecond := hall _ hlt'
    simp only [hd, he, Option.all_some, hname, hname', ne_eq, not_true, decide_false,
      Bool.false_or, decide_eq_true_eq] at hfirst hsecond
    rw [hfirst, hsecond, Option.some.injEq, Fin.ext_iff, Fin.val_ofNat, Fin.val_ofNat] at heq
    omega

/-- `cmp dword ptr [rcx], 1; je 0x2000; cmp dword ptr [rcx], 2; je 0x3000` -/
def memoryCompares : List Decoded :=
  comparePair 0x1000 .memory (some (.general .rcx .qword)) ⟨8, 1, true⟩ 0x2000 ++
    comparePair 0x1005 .memory (some (.general .rcx .qword)) ⟨8, 2, true⟩ 0x3000

/-- The chain is taken for one of `rcx`, and jumps though no case has its value. -/
theorem memoryCompares_wrong :
    (∀ d ∈ memoryCompares, ValidCmp d) ∧
      detectCompareTrees 0x1000 (memoryCompares.map fromIced) =
        some [factAt 0x1000 (memoryCompares.map fromIced) ⟨"rcx", 0, 2⟩] ∧
      ¬ Describes memoryCompares ⟨"rcx", 0, 2⟩
        (factAt 0x1000 (memoryCompares.map fromIced) ⟨"rcx", 0, 2⟩).cases := by
  refine ⟨by simp [memoryCompares, comparePair, ValidCmp, AddressRegister], by decide, fun h => ?_⟩
  have hpoints := (h ⟨fun _ => 0x5000, fun a => if a = 0x5000 then 1 else 0⟩ false 0x2000).mp
    (by decide)
  obtain ⟨i, hcase, -⟩ := hpoints
  obtain ⟨hi, hcase⟩ := casesFrom_getElem?.mp hcase
  have hnone : ∀ i < 2, (caseAt (memoryCompares.map fromIced) (0 + 2 * i)).value ≠ 0x5000 := by
    decide
  exact hnone i hi (congrArg SwitchCase.value hcase)

end Axe.Static.Switches
