import Mathlib
import Axe.Lib.X86

/-!
# The operand parser of the shadow emulator

Texts are lists of characters. Overflowing arithmetic panics, which is the
outer `none` of a result; the inner one is the source's `None`.
-/
namespace Axe.Concolic

open X86 (Reg)

section Text

/-- `char::is_whitespace`. -/
def isWhiteSpace (c : Char) : Bool :=
  let n := c.toNat
  (9 ≤ n && n ≤ 13) || n = 32 || n = 0x85 || n = 0xA0 || n = 0x1680 ||
    (0x2000 ≤ n && n ≤ 0x200A) || n = 0x2028 || n = 0x2029 || n = 0x202F || n = 0x205F ||
    n = 0x3000

def trim (s : List Char) : List Char :=
  ((s.dropWhile isWhiteSpace).reverse.dropWhile isWhiteSpace).reverse

def toAsciiLowercase (s : List Char) : List Char := s.map Char.toLower

/-- The text before and after the first occurrence of a separator. -/
def splitOnce (sep : Char) (s : List Char) : Option (List Char × List Char) :=
  match s.span (· ≠ sep) with
  | (_, []) => none
  | (before, _ :: after) => some (before, after)

/-- `char::to_digit`. -/
def toDigit (radix : Nat) (c : Char) : Option Nat :=
  let d := if '0' ≤ c ∧ c ≤ '9' then c.toNat - '0'.toNat
    else if 'a' ≤ c ∧ c ≤ 'z' then c.toNat - 'a'.toNat + 10
    else if 'A' ≤ c ∧ c ≤ 'Z' then c.toNat - 'A'.toNat + 10
    else radix
  if d < radix then some d else none

def digits (radix : Nat) (s : List Char) : Option Nat :=
  if s = [] then none
  else s.foldlM (fun n c => (toDigit radix c).map fun d => n * radix + d) 0

/-- `u64::from_str_radix`, which also accepts a leading `+`. -/
def u64FromStrRadix (s : List Char) (radix : Nat) : Option (BitVec 64) :=
  let n := digits radix (match s with
    | '+' :: ds => ds
    | ds => ds)
  n.bind fun n => if n < 2 ^ 64 then some (BitVec.ofNat 64 n) else none

/-- `str::parse::<i64>`, as its two's complement. -/
def i64Parse (s : List Char) : Option (BitVec 64) :=
  match s with
  | '-' :: ds => (digits 10 ds).bind fun n =>
    if n ≤ 2 ^ 63 then some (-BitVec.ofNat 64 n) else none
  | '+' :: ds => (digits 10 ds).bind fun n =>
    if n < 2 ^ 63 then some (BitVec.ofNat 64 n) else none
  | ds => (digits 10 ds).bind fun n =>
    if n < 2 ^ 63 then some (BitVec.ofNat 64 n) else none

/-- Negation of an `i64`. -/
def negI64 (v : BitVec 64) : Option (BitVec 64) :=
  if v = BitVec.intMin 64 then none else some (-v)

end Text

section Registers

def registerNames : List (List String × Nat) :=
  [(["rax", "rbx", "rcx", "rdx", "rsi", "rdi", "rsp", "rbp", "r8", "r9", "r10", "r11", "r12",
      "r13", "r14", "r15"], 64),
    (["eax", "ebx", "ecx", "edx", "esi", "edi", "esp", "ebp", "r8d", "r9d", "r10d", "r11d", "r12d",
      "r13d", "r14d", "r15d"], 32),
    (["ax", "bx", "cx", "dx", "si", "di", "sp", "bp", "r8w", "r9w", "r10w", "r11w", "r12w", "r13w",
      "r14w", "r15w"], 16),
    (["al", "bl", "cl", "dl", "sil", "dil", "spl", "bpl", "r8b", "r9b", "r10b", "r11b", "r12b",
      "r13b", "r14b", "r15b", "ah", "bh", "ch", "dh"], 8)]

/-- The width of a register alias. -/
def registerWidth (name : List Char) : Option Nat :=
  let s := String.ofList (toAsciiLowercase name)
  (registerNames.find? fun p => s ∈ p.1).map Prod.snd

def canonicalNames : List (List String × Reg) :=
  [(["rax", "eax", "ax", "ah", "al"], .rax),
    (["rbx", "ebx", "bx", "bh", "bl"], .rbx),
    (["rcx", "ecx", "cx", "ch", "cl"], .rcx),
    (["rdx", "edx", "dx", "dh", "dl"], .rdx),
    (["rsi", "esi", "si", "sil"], .rsi),
    (["rdi", "edi", "di", "dil"], .rdi),
    (["rsp", "esp", "sp", "spl"], .rsp),
    (["rbp", "ebp", "bp", "bpl"], .rbp),
    (["r8", "r8d", "r8w", "r8b"], .r8),
    (["r9", "r9d", "r9w", "r9b"], .r9),
    (["r10", "r10d", "r10w", "r10b"], .r10),
    (["r11", "r11d", "r11w", "r11b"], .r11),
    (["r12", "r12d", "r12w", "r12b"], .r12),
    (["r13", "r13d", "r13w", "r13b"], .r13),
    (["r14", "r14d", "r14w", "r14b"], .r14),
    (["r15", "r15d", "r15w", "r15b"], .r15)]

/-- The 64-bit register an alias is a part of. -/
def canonicalReg (name : List Char) : Option Reg :=
  let s := String.ofList (toAsciiLowercase name)
  (canonicalNames.find? fun p => s ∈ p.1).map Prod.snd

theorem registerWidth_rax : registerWidth "rax".toList = some 64 := by
  simp [registerWidth, registerNames, toAsciiLowercase]

theorem registerWidth_ah : registerWidth "ah".toList = some 8 := by
  simp [registerWidth, registerNames, toAsciiLowercase]

theorem canonicalReg_rax : canonicalReg "rax".toList = some .rax := by
  simp [canonicalReg, canonicalNames, toAsciiLowercase]

theorem canonicalReg_ah : canonicalReg "ah".toList = some .rax := by
  simp [canonicalReg, canonicalNames, toAsciiLowercase]

theorem canonicalReg_cl : canonicalReg "cl".toList = some .rcx := by
  simp [canonicalReg, canonicalNames, toAsciiLowercase]

end Registers

section Operands

inductive Operand where
  | reg (name : List Char) (width : Nat)
  | imm (value : BitVec 64)
  | mem (base : Option (List Char)) (disp : BitVec 64) (width : Nat)
  deriving DecidableEq, Repr

def Operand.width : Operand → Option Nat
  | .reg _ width => some width
  | .imm _ => none
  | .mem _ _ width => some width

def literalValue : Operand → Option (BitVec 64)
  | .imm v => some v
  | _ => none

def parseIntLike (s : List Char) : Option (Option (BitVec 64)) :=
  let s := trim s
  match "0x".toList.isPrefixOf? s <|> "0X".toList.isPrefixOf? s with
  | some rest => some (u64FromStrRadix rest 16)
  | none =>
    if s.getLast? = some 'h' ∨ s.getLast? = some 'H' then some (u64FromStrRadix s.dropLast 16)
    else match s with
      | '-' :: rest =>
        match i64Parse rest with
        | some v => (negI64 v).map some
        | none => some none
      | _ => some (u64FromStrRadix s 10)

/-- The operands of a sum, split at the first sign after the first character. -/
def splitAddrTerms (s : List Char) : List Char × Char × Option (List Char) :=
  match s with
  | [] => ([], '+', none)
  | c :: cs =>
    match cs.span (fun c => c ≠ '+' ∧ c ≠ '-') with
    | (_, []) => (trim s, '+', none)
    | (before, sign :: after) => (trim (c :: before), sign, some (trim after))

/-- The displacement: a signed term, or without a base perhaps the whole text. -/
def addrDisp (hasBase : Bool) : List Char × Char × Option (List Char) → Option (BitVec 64)
  | (_, sign, some r) =>
    (parseIntLike r).bind fun mag => if sign = '-' then negI64 (mag.getD 0) else some (mag.getD 0)
  | (left, _, none) => if hasBase then some 0 else (parseIntLike left).map fun v => v.getD 0

def parseAddrInner (s : List Char) : Option (Option (List Char) × BitVec 64) :=
  let s := trim s
  let s := trim (("rel ".toList.isPrefixOf? s).getD s)
  let terms := splitAddrTerms s
  let left := terms.1
  let base := if left ≠ [] ∧ (registerWidth left).isSome then some (toAsciiLowercase left) else none
  (addrDisp base.isSome terms).map fun disp => (base, disp)

def widthOfKeyword (keyword : List Char) : Option Nat :=
  match String.ofList (toAsciiLowercase keyword) with
  | "byte" => some 8
  | "word" => some 16
  | "dword" => some 32
  | "qword" => some 64
  | _ => none

/-- A size keyword and `ptr`, each followed by a space. -/
def stripWidthPrefix (s : List Char) : Option Nat × List Char :=
  match splitOnce ' ' s with
  | none => (none, s)
  | some (chunk₀, rest) =>
    match splitOnce ' ' rest with
    | none => (none, s)
    | some (chunk₁, rest) =>
      if toAsciiLowercase chunk₁ = "ptr".toList then
        match widthOfKeyword chunk₀ with
        | some w => (some w, rest)
        | none => (none, s)
      else (none, s)

/-- What is neither a memory operand nor a register nor a number becomes a zero. -/
def parseSingleOperand (raw : List Char) : Option Operand := do
  let (widthHint, rest) := stripWidthPrefix (trim raw)
  let s := trim rest
  if s.head? = some '[' ∧ s.tail.getLast? = some ']' then
    let (base, disp) ← parseAddrInner s.tail.dropLast
    return .mem base disp (widthHint.getD 64)
  else
    match registerWidth s with
    | some w => return .reg (toAsciiLowercase s) w
    | none =>
      match ← parseIntLike s with
      | some v => return .imm v
      | none => return .imm 0

/-- The pieces between the commas outside brackets; a last piece without text is
dropped. -/
def splitOperands : List Char → Int → List Char → List (List Char)
  | [], _, piece => if trim piece = [] then [] else [piece]
  | c :: cs, depth, piece =>
    if c = '[' then splitOperands cs (depth + 1) (piece ++ [c])
    else if c = ']' then splitOperands cs (depth - 1) (piece ++ [c])
    else if c = ',' ∧ depth = 0 then piece :: splitOperands cs depth []
    else splitOperands cs depth (piece ++ [c])

/-- The nesting of brackets, an `i32`, does not overflow. -/
def depthFits : List Char → Int → Bool
  | [], _ => true
  | c :: cs, depth =>
    let depth := if c = '[' then depth + 1 else if c = ']' then depth - 1 else depth
    decide (-2 ^ 31 ≤ depth ∧ depth < 2 ^ 31) && depthFits cs depth

def parseOperands (s : String) : Option (List Operand) :=
  if depthFits s.toList 0 then (splitOperands s.toList 0 []).mapM parseSingleOperand else none

end Operands

section WellFormed

theorem toLower_toLower (c : Char) : c.toLower.toLower = c.toLower := by
  have h : ¬ (c.toLower.val ≥ 'A'.val ∧ c.toLower.val ≤ 'Z'.val) := by
    unfold Char.toLower
    split
    · rename_i h
      simp only [ge_iff_le, UInt32.le_iff_toNat_le] at h ⊢
      have hlo := h.1
      have hhi := h.2
      have hval : (c.val + ('a'.val - 'A'.val)).toNat = c.val.toNat + 32 := by
        rw [UInt32.toNat_add]
        simp at hlo hhi ⊢
        omega
      rw [hval]
      simp at hlo ⊢
      omega
    · assumption
  rw [Char.toLower, dif_neg h]

theorem toAsciiLowercase_idem (s : List Char) :
    toAsciiLowercase (toAsciiLowercase s) = toAsciiLowercase s := by
  rw [toAsciiLowercase, toAsciiLowercase, List.map_map]
  exact List.map_congr_left fun c _ => toLower_toLower c

@[simp] theorem registerWidth_lowercase (s : List Char) :
    registerWidth (toAsciiLowercase s) = registerWidth s := by
  rw [registerWidth, registerWidth, toAsciiLowercase_idem]

/-- The registers and the widths that the parser produces. -/
def Operand.WellFormed : Operand → Prop
  | .reg name width => registerWidth name = some width
  | .imm _ => True
  | .mem base _ width => width ∈ [8, 16, 32, 64] ∧ ∀ b ∈ base, (registerWidth b).isSome

theorem mem_widths_of_keyword {keyword : List Char} {w : Nat} (h : widthOfKeyword keyword = some w) :
    w ∈ [8, 16, 32, 64] := by
  unfold widthOfKeyword at h
  split at h <;> cases h <;> simp

theorem stripWidthPrefix_width (s : List Char) : (stripWidthPrefix s).1.getD 64 ∈ [8, 16, 32, 64] := by
  unfold stripWidthPrefix
  split
  · simp
  · split
    · simp
    · split
      · split
        · exact mem_widths_of_keyword ‹_›
        · simp
      · simp

theorem parseAddrInner_base {s b : List Char} {disp : BitVec 64}
    (h : parseAddrInner s = some (some b, disp)) : (registerWidth b).isSome := by
  rw [parseAddrInner] at h
  obtain ⟨d, -, hd⟩ := Option.map_eq_some_iff.mp h
  obtain ⟨hleft, hb⟩ := Option.ite_none_right_eq_some.mp (congrArg Prod.fst hd)
  rw [← Option.some.inj hb, registerWidth_lowercase]
  exact hleft.2

theorem parseSingleOperand_wellFormed {raw : List Char} {op : Operand}
    (h : parseSingleOperand raw = some op) : op.WellFormed := by
  unfold parseSingleOperand at h
  dsimp only at h
  split at h
  · obtain ⟨⟨base, disp⟩, hinner, h⟩ := Option.bind_eq_some_iff.mp h
    cases h
    refine ⟨stripWidthPrefix_width _, fun b hb => ?_⟩
    cases hb
    exact parseAddrInner_base hinner
  · split at h
    · rename_i w hw
      cases h
      exact (registerWidth_lowercase _).trans hw
    · obtain ⟨v, -, h⟩ := Option.bind_eq_some_iff.mp h
      cases v <;> cases h <;> trivial

theorem mapM_parse_wellFormed {pieces : List (List Char)} {ops : List Operand}
    (h : pieces.mapM parseSingleOperand = some ops) : ∀ op ∈ ops, op.WellFormed := by
  induction pieces generalizing ops with
  | nil =>
    cases h
    simp
  | cons piece pieces ih =>
    rw [List.mapM_cons] at h
    obtain ⟨op, hop, h⟩ := Option.bind_eq_some_iff.mp h
    obtain ⟨rest, hrest, h⟩ := Option.bind_eq_some_iff.mp h
    cases h
    simp only [List.forall_mem_cons]
    exact ⟨parseSingleOperand_wellFormed hop, ih hrest⟩

theorem parseOperands_wellFormed {s : String} {ops : List Operand} (h : parseOperands s = some ops) :
    ∀ op ∈ ops, op.WellFormed :=
  mapM_parse_wellFormed (Option.ite_none_right_eq_some.mp h).2

theorem registerNames_of_width {name : List Char} {w : Nat} (h : registerWidth name = some w) :
    ∃ p ∈ registerNames, String.ofList (toAsciiLowercase name) ∈ p.1 ∧ p.2 = w := by
  obtain ⟨p, hp, rfl⟩ := Option.map_eq_some_iff.mp h
  exact ⟨p, List.mem_of_find?_eq_some hp, by simpa using List.find?_some hp, rfl⟩

theorem registerWidth_mem {name : List Char} {w : Nat} (h : registerWidth name = some w) :
    w ∈ [8, 16, 32, 64] := by
  obtain ⟨p, hp, -, rfl⟩ := registerNames_of_width h
  have hall : ∀ p ∈ registerNames, p.2 ∈ [8, 16, 32, 64] := by decide
  exact hall p hp

/-- Every alias with a width is a part of a register. -/
theorem canonicalReg_isSome {name : List Char} {w : Nat} (h : registerWidth name = some w) :
    (canonicalReg name).isSome := by
  obtain ⟨p, hp, hmem, -⟩ := registerNames_of_width h
  have hall : ∀ p ∈ registerNames, ∀ s ∈ p.1, (canonicalNames.find? fun q => s ∈ q.1).isSome := by
    decide
  rw [canonicalReg, Option.isSome_map]
  exact hall p hp _ hmem

theorem Operand.WellFormed.width_mem {op : Operand} {w : Nat} (h : op.WellFormed)
    (hw : op.width = some w) : w ∈ [8, 16, 32, 64] := by
  cases op with
  | reg name width =>
    cases hw
    exact registerWidth_mem h
  | imm v => cases hw
  | mem base disp width =>
    cases hw
    exact h.1

end WellFormed

section Tests

example : parseOperands "eax, dword ptr [rdi+0x10]" =
    some [.reg "eax".toList 32, .mem (some "rdi".toList) 0x10 32] := by decide

example : parseOperands "rax, qword ptr [rbp-8]" =
    some [.reg "rax".toList 64, .mem (some "rbp".toList) (-8) 64] := by decide

end Tests

end Axe.Concolic
