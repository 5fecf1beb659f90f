import Mathlib.Data.String.Basic
import Axe.Lib.LastPosition
import Axe.Lib.OrderedMap
import Axe.Static.Lifting

/-!
# Calls of imports through registers

A call without a resolution of its own is taken for one of the import that the register it reads
first was bound to. A register is bound by the load of an import slot, and another write that the
lifter sees unbinds it. What an instruction changes in fact is a parameter.
-/
namespace Axe.Static.ImportCalls

structure Xref where
  kind : String
  fromVa : Nat
  target : Nat
  role : String
  symbol : Option String
  deriving DecidableEq

structure ResolvedCall where
  callsite : Nat
  resolvedApi : String
  deriving DecidableEq

section Names
variable (ir : List LiftedInstruction) (xrefs : List Xref)

/-- The symbols of cross references by where they come from. -/
def namesOf (xrefs : List Xref) : OrderedMap Nat String :=
  .ofList (xrefs.filterMap fun xref => xref.symbol.map fun symbol => (xref.fromVa, symbol))

def Xref.isImportOperand (xref : Xref) : Bool := xref.kind = "import" && xref.role = "operand"

def jmpAddresses : List Nat :=
  (ir.filter fun ins => !ins.isCall && ins.mnemonic = "jmp").map fun ins => ins.address

def thunkToImport : OrderedMap Nat String :=
  namesOf (xrefs.filter fun xref =>
    xref.isImportOperand && (jmpAddresses ir).contains xref.fromVa)

def irByVa : OrderedMap Nat LiftedInstruction := .ofList (ir.map fun ins => (ins.address, ins))

def movToImport : OrderedMap Nat String :=
  namesOf (xrefs.filter fun xref =>
    xref.isImportOperand && !(jmpAddresses ir).contains xref.fromVa &&
      ((irByVa ir).get xref.fromVa).any fun ins => !ins.isCall && ins.writeReg.isSome)

def importCallBySite : OrderedMap Nat String :=
  namesOf (xrefs.filter fun xref =>
    xref.kind = "import" && (xref.role = "call" || xref.role = "operand"))

/-- A call of a thunk is one of the thunk's import, where the site has no other. -/
def addThunkCall (sites : OrderedMap Nat String) (xref : Xref) : OrderedMap Nat String :=
  match (thunkToImport ir xrefs).get xref.target with
  | none => sites
  | some symbol =>
    if (sites.get xref.fromVa).isSome then sites else sites.insert xref.fromVa symbol

def callBySite (resolvedCalls : List ResolvedCall) : OrderedMap Nat String :=
  resolvedCalls.foldl (fun sites call => sites.insert call.callsite call.resolvedApi)
    ((xrefs.filter fun xref => xref.kind = "code" && xref.role = "call").foldl
      (addThunkCall ir xrefs) (importCallBySite xrefs))

end Names

inductive Resolution
  | site (api : String)
  | register (symbol : String)
  deriving DecidableEq

section Tracking
variable (movs sites : OrderedMap Nat String)

/-- The bindings of registers behind an instruction. -/
def trackImport (regs : OrderedMap String String) (ins : LiftedInstruction) :
    OrderedMap String String :=
  match movs.get ins.address with
  | some symbol => ins.writeReg.elim regs fun reg => regs.insert reg symbol
  | none => ins.writeReg.elim regs regs.erase

def resolveCall (regs : OrderedMap String String) (ins : LiftedInstruction) : Option Resolution :=
  if !ins.isCall then none
  else ((sites.get ins.address).map .site).or ((ins.readRegs.head?.bind regs.get).map .register)

/-- The resolutions of the instructions of a slice. -/
def resolveCalls : OrderedMap String String → List LiftedInstruction → List (Option Resolution)
  | _, [] => []
  | regs, ins :: rest =>
    let regs := trackImport movs regs ins
    resolveCall sites regs ins :: resolveCalls regs rest

end Tracking

def sliceCalls (ir : List LiftedInstruction) (xrefs : List Xref)
    (resolvedCalls : List ResolvedCall) (slice : List LiftedInstruction) :
    List (Option Resolution) :=
  resolveCalls (movToImport ir xrefs) (callBySite ir xrefs resolvedCalls) .empty slice

section Bindings
variable {movs sites : OrderedMap Nat String} {slice : List LiftedInstruction} {reg symbol : String}
  {c : Nat}

/-- The instruction at a position is one that the lifter takes for a write of a register. -/
def WritesAt (slice : List LiftedInstruction) (reg : String) (m : Nat) : Prop :=
  ∃ ins, slice[m]? = some ins ∧ ins.writeReg = some reg

theorem trackImport_get {regs : OrderedMap String String} {ins : LiftedInstruction} :
    (trackImport movs regs ins).get reg =
      if ins.writeReg = some reg then movs.get ins.address else regs.get reg := by
  rw [trackImport]
  cases hmov : movs.get ins.address with
  | some s =>
    cases hw : ins.writeReg with
    | none => exact (if_neg nofun).symm
    | some w =>
      simp only [Option.elim_some, OrderedMap.get_insert, Option.some.injEq, eq_comm (a := w)]
  | none =>
    cases hw : ins.writeReg with
    | none => exact (if_neg nofun).symm
    | some w =>
      simp only [Option.elim_some, OrderedMap.get_erase, Option.some.injEq, eq_comm (a := w)]

/-- What a write of a register binds it to. -/
def boundBy (movs : OrderedMap Nat String) (reg : String) (ins : LiftedInstruction) :
    Option (Option String) :=
  if ins.writeReg = some reg then some (movs.get ins.address) else none

theorem foldl_trackImport_get (regs : OrderedMap String String) (slice : List LiftedInstruction) :
    (slice.foldl (trackImport movs) regs).get reg =
      slice.foldl (fun acc ins => (boundBy movs reg ins).getD acc) (regs.get reg) := by
  induction slice generalizing regs with
  | nil => rfl
  | cons ins rest ih =>
    rw [List.foldl_cons, List.foldl_cons, ih, trackImport_get, boundBy]
    split <;> rfl

theorem replacesAt_boundBy {m : Nat} :
    ReplacesAt (boundBy movs reg) slice 0 m ↔ WritesAt slice reg m := by
  have hiff : ∀ ins, (boundBy movs reg ins).isSome = true ↔ ins.writeReg = some reg := by
    intro ins
    rw [boundBy]
    split <;> simp_all
  simp only [ReplacesAt, hiff, Nat.zero_le, true_and, WritesAt]

/-- A register is bound by the last instruction that writes it. -/
theorem foldl_trackImport (slice : List LiftedInstruction) (n : Nat) :
    ((slice.take n).foldl (trackImport movs) .empty).get reg = some symbol ↔
      ∃ b ins, LastBefore (WritesAt slice reg) n b ∧ slice[b]? = some ins ∧
        movs.get ins.address = some symbol := by
  have hwrites : ReplacesAt (boundBy movs reg) slice 0 = WritesAt slice reg :=
    funext fun m => propext replacesAt_boundBy
  rw [foldl_trackImport_get, OrderedMap.get_empty, ← List.drop_zero (l := slice.take n),
    foldl_getD_iff, hwrites]
  constructor
  · rintro (⟨b, ins, hb, hins, hbound⟩ | ⟨-, hnone⟩)
    · refine ⟨b, ins, hb, hins, ?_⟩
      rw [boundBy] at hbound
      split at hbound
      · exact Option.some.inj hbound
      · cases hbound
    · cases hnone
  · rintro ⟨b, ins, hb, hins, hmov⟩
    obtain ⟨ins', hins', hw⟩ := hb.holds
    rw [hins, Option.some.injEq] at hins'
    subst hins'
    exact .inl ⟨b, ins, hb, hins, by rw [boundBy, if_pos hw, hmov]⟩

/-- The resolutions one by one. -/
theorem resolveCalls_getElem? (regs : OrderedMap String String) (slice : List LiftedInstruction)
    (c : Nat) :
    (resolveCalls movs sites regs slice)[c]? = slice[c]?.map
      (resolveCall sites ((slice.take (c + 1)).foldl (trackImport movs) regs)) := by
  induction slice generalizing regs c with
  | nil => rfl
  | cons ins rest ih =>
    cases c with
    | zero => rfl
    | succ c => exact ih (trackImport movs regs ins) c

/-- A call that is resolved through a register. -/
theorem resolveCall_register {regs : OrderedMap String String} {ins : LiftedInstruction} :
    resolveCall sites regs ins = some (.register symbol) ↔
      ins.isCall = true ∧ sites.get ins.address = none ∧
        ∃ reg, ins.readRegs.head? = some reg ∧ regs.get reg = some symbol := by
  rw [resolveCall]
  cases ins.isCall with
  | false => exact iff_of_false nofun fun h => Bool.false_ne_true h.1
  | true =>
    rw [Bool.not_true, if_neg Bool.false_ne_true]
    cases sites.get ins.address with
    | some api => exact iff_of_false nofun fun h => Option.some_ne_none _ h.2.1
    | none =>
      rw [Option.map_none, Option.none_or, Option.map_eq_some_iff]
      constructor
      · rintro ⟨_, hget, heq⟩
        cases heq
        exact ⟨rfl, rfl, Option.bind_eq_some_iff.mp hget⟩
      · rintro ⟨-, -, reg, hhead, hget⟩
        exact ⟨symbol, Option.bind_eq_some_iff.mpr ⟨reg, hhead, hget⟩, rfl⟩

/-- Where a call is resolved through a register, and by which instruction it was bound. -/
theorem sliceCalls_register {ir : List LiftedInstruction} {xrefs : List Xref}
    {resolvedCalls : List ResolvedCall} :
    (sliceCalls ir xrefs resolvedCalls slice)[c]? = some (some (.register symbol)) ↔
      ∃ ins reg, slice[c]? = some ins ∧ ins.isCall = true ∧
        (callBySite ir xrefs resolvedCalls).get ins.address = none ∧
        ins.readRegs.head? = some reg ∧
        ∃ b mov, LastBefore (WritesAt slice reg) (c + 1) b ∧ slice[b]? = some mov ∧
          (movToImport ir xrefs).get mov.address = some symbol := by
  rw [sliceCalls, resolveCalls_getElem?, Option.map_eq_some_iff]
  simp only [resolveCall_register, foldl_trackImport]
  constructor
  · rintro ⟨ins, hins, hcall, hsite, reg, hhead, hbound⟩
    exact ⟨ins, reg, hins, hcall, hsite, hhead, hbound⟩
  · rintro ⟨ins, reg, hins, hcall, hsite, hhead, hbound⟩
    exact ⟨ins, hins, hcall, hsite, reg, hhead, hbound⟩

theorem exists_of_namesOf {xrefs : List Xref} {va : Nat}
    (h : (namesOf xrefs).get va = some symbol) :
    ∃ xref ∈ xrefs, xref.fromVa = va ∧ xref.symbol = some symbol := by
  obtain ⟨xref, hxref, heq⟩ := List.mem_filterMap.mp (OrderedMap.mem_of_get_ofList h)
  obtain ⟨s, hs, hpair⟩ := Option.map_eq_some_iff.mp heq
  cases hpair
  exact ⟨xref, hxref, rfl, hs⟩

/-- An instruction has a cross reference to the import slot of a symbol. -/
def NamesSlot (xrefs : List Xref) (va : Nat) (symbol : String) : Prop :=
  ∃ xref ∈ xrefs, xref.isImportOperand = true ∧ xref.fromVa = va ∧ xref.symbol = some symbol

theorem namesSlot_of_movToImport {ir : List LiftedInstruction} {xrefs : List Xref} {va : Nat}
    (h : (movToImport ir xrefs).get va = some symbol) : NamesSlot xrefs va symbol := by
  obtain ⟨xref, hxref, hfrom, hsymbol⟩ := exists_of_namesOf h
  obtain ⟨hmem, hkind⟩ := List.mem_filter.mp hxref
  rw [Bool.and_eq_true, Bool.and_eq_true] at hkind
  exact ⟨xref, hmem, hkind.1.1, hfrom, hsymbol⟩

end Bindings

section Meaning
variable (changes : Decoded → String → Prop) {code : List Decoded} {reg symbol : String}
  {c : Nat} {d : Decoded}

/-- The instruction at a position changes a register. -/
def ChangesAt (code : List Decoded) (reg : String) (m : Nat) : Prop :=
  ∃ d, code[m]? = some d ∧ changes d reg

def CallAt (code : List Decoded) (m : Nat) : Prop := ∃ d, code[m]? = some d ∧ d.isCall = true

/-- The general registers that a call does not keep under the Windows x64 convention. -/
def volatileRegisters : List String := ["rax", "rcx", "rdx", "r8", "r9", "r10", "r11"]

/-- A load of all of a general register from memory. -/
def LoadsFromMemory (d : Decoded) (reg : String) : Prop :=
  d.mnemonic = "mov" ∧
    ∃ r, d.instr.operands = [.register (.general r .qword), .memory] ∧ generalName r = reg

/-- No call at a position between two others may have clobbered a register. -/
def KeptBetween (code : List Decoded) (reg : String) (b c : Nat) : Prop :=
  volatileRegisters.contains reg = true → ∀ m, b < m → m < c → ¬ CallAt code m

/-- The call at a position is one through a register that holds the import of a symbol: what
changed the register last is a load of the import's slot, and no call has clobbered it since. -/
def CallsImport (xrefs : List Xref) (code : List Decoded) (c : Nat) (symbol : String) : Prop :=
  ∃ d r b e, code[c]? = some d ∧ d.instr.operands.head? = some (.register r) ∧
    LastBefore (ChangesAt changes code (normalizeRegister r)) c b ∧ code[b]? = some e ∧
    NamesSlot xrefs e.instr.ip symbol ∧ LoadsFromMemory e (normalizeRegister r) ∧
    KeptBetween code (normalizeRegister r) b c

/-- The call is through a register, what the lifter takes for the last write of it is a load from
memory, nothing else changes it in between, and no call does that may clobber it. -/
def CallsLoaded (code : List Decoded) (c : Nat) : Prop :=
  ∃ d r b e, code[c]? = some d ∧ d.instr.operands.head? = some (.register r) ∧
    LastBefore (WritesAt (code.map fromIced) (normalizeRegister r)) c b ∧ code[b]? = some e ∧
    LoadsFromMemory e (normalizeRegister r) ∧
    (∀ m, b < m → m < c → ¬ ChangesAt changes code (normalizeRegister r) m) ∧
    KeptBetween code (normalizeRegister r) b c

/-- A listed instruction changes the register that its first operand is. -/
def ListedChange : Prop :=
  ∀ (d : Decoded) (r : Register), writesFirstOperand d.mnemonic = true →
    d.instr.operands.head? = some (.register r) → changes d (normalizeRegister r)

variable {changes}

theorem ChangesAt.of_writesAt (hlisted : ListedChange changes) {m : Nat}
    (h : WritesAt (code.map fromIced) reg m) : ChangesAt changes code reg m := by
  obtain ⟨ins, hins, hw⟩ := h
  rw [List.getElem?_map, Option.map_eq_some_iff] at hins
  obtain ⟨d, hd, rfl⟩ := hins
  rw [fromIced_writeReg] at hw
  split at hw
  · rename_i hwrites
    obtain ⟨r, hr, rfl⟩ := Option.map_eq_some_iff.mp hw
    obtain ⟨operand, hop, hr⟩ := Option.bind_eq_some_iff.mp hr
    cases operand with
    | register r' =>
      cases hr
      exact ⟨d, hd, hlisted d r hwrites hop⟩
    | memory => cases hr
    | immediate i => cases hr
    | other => cases hr
  · cases hw

/-- A load is a write that the lifter sees. -/
theorem LoadsFromMemory.writesAt {b : Nat} (hd : code[b]? = some d) (h : LoadsFromMemory d reg) :
    WritesAt (code.map fromIced) reg b := by
  obtain ⟨hname, r, hops, rfl⟩ := h
  refine ⟨fromIced d, by rw [List.getElem?_map, hd, Option.map_some], ?_⟩
  rw [fromIced_writeReg, hname, hops]
  rfl

/-- A call that is resolved through a register is one of the import exactly if it is through the
register, and a load from memory is what changed it last. -/
theorem registerCall_iff (hlisted : ListedChange changes) (ir : List LiftedInstruction)
    (xrefs : List Xref) (resolvedCalls : List ResolvedCall) (code : List Decoded)
    (hcalls : ∀ d ∈ code, d.isCall = true → writesFirstOperand d.mnemonic = false)
    (c : Nat) (symbol : String)
    (h : (sliceCalls ir xrefs resolvedCalls (code.map fromIced))[c]? =
      some (some (.register symbol))) :
    CallsImport changes xrefs code c symbol ↔ CallsLoaded changes code c := by
  obtain ⟨ins, reg, hins, hcall, -, hhead, b, mov, hlast, hmov, hnamed⟩ := sliceCalls_register.mp h
  rw [List.getElem?_map, Option.map_eq_some_iff] at hins hmov
  obtain ⟨d, hd, rfl⟩ := hins
  obtain ⟨e, he, rfl⟩ := hmov
  rw [fromIced_isCall] at hcall
  rw [fromIced_address] at hnamed
  have hwrites := hcalls d (List.mem_of_getElem? hd) hcall
  have hno : ¬ WritesAt (code.map fromIced) reg c := by
    rintro ⟨ins, hins, hw⟩
    rw [List.getElem?_map, hd, Option.map_some] at hins
    cases hins
    rw [fromIced_writeReg, hwrites, if_neg Bool.false_ne_true] at hw
    cases hw
  have hbound : LastBefore (WritesAt (code.map fromIced) reg) c b := by
    rcases lastBefore_succ.mp hlast with ⟨hyes, -⟩ | ⟨-, hlast⟩
    · exact absurd hyes hno
    · exact hlast
  constructor
  · rintro ⟨d', r, b', e', hd', hop, hchange, he', -, hloads, hkept⟩
    rw [hd] at hd'
    cases hd'
    rw [fromIced_head? hwrites hop, Option.some.injEq] at hhead
    subst hhead
    have heq : b = b' := by
      rcases Nat.lt_trichotomy b b' with hlt | heq | hlt
      · exact absurd (hloads.writesAt he') (hbound.last b' hlt hchange.lt)
      · exact heq
      · exact absurd (ChangesAt.of_writesAt hlisted hbound.holds)
          (hchange.last b hlt hbound.lt)
    subst heq
    exact ⟨d, r, b, e', hd, hop, hbound, he', hloads, hchange.last, hkept⟩
  · rintro ⟨d', r, b', e', hd', hop, hbound', he', hloads, hchange, hkept⟩
    rw [hd] at hd'
    cases hd'
    rw [fromIced_head? hwrites hop, Option.some.injEq] at hhead
    subst hhead
    obtain rfl := hbound.unique hbound'
    rw [he] at he'
    cases he'
    exact ⟨d, r, b, e, hd, hop,
      ⟨hbound.lt, ChangesAt.of_writesAt hlisted hbound.holds, hchange⟩, he,
      namesSlot_of_movToImport hnamed, hloads, hkept⟩

end Meaning

/-- What listed instructions and calls change. -/
def plainChanges (d : Decoded) (reg : String) : Prop :=
  writesFirstOperand d.mnemonic = true ∧
    (d.instr.operands.head?.bind Operand.register?).map normalizeRegister = some reg ∨
  d.isCall = true ∧ reg = "rsp"

theorem listedChange_plainChanges : ListedChange plainChanges := by
  intro d r hwrites hop
  refine .inl ⟨hwrites, ?_⟩
  rw [hop]
  rfl

/-- `mov rax, qword ptr [rip + ...]`, which loads the slot of an import. -/
def loadRecv : Decoded :=
  ⟨⟨0x1000, 7, [.register (.general .rax .qword), .memory], some (.other "rip" (by decide)), none,
    1, 0x3000, 8, 0, some 0x3000⟩, "mov", false, false⟩

def recvXref : Xref := ⟨"import", 0x1000, 0x3000, "operand", some "recv"⟩

/-- `call rax` -/
def callRax : Decoded :=
  ⟨⟨0x1007, 2, [.register (.general .rax .qword)], none, none, 1, 0, 0, 0, none⟩, "call", true,
    false⟩

/-- `call qword ptr [rax + 8]` -/
def callThroughRax : Decoded :=
  ⟨⟨0x1007, 3, [.memory], some (.general .rax .qword), none, 1, 8, 8, 0, none⟩, "call", true, false⟩

theorem registerCall_iff_callRax :
    CallsImport plainChanges [recvXref] [loadRecv, callRax] 1 "recv" ↔
      CallsLoaded plainChanges [loadRecv, callRax] 1 :=
  registerCall_iff listedChange_plainChanges ([loadRecv, callRax].map fromIced) [recvXref] []
    [loadRecv, callRax] (by decide) 1 "recv" (by decide)

/-- The call of what a table in memory holds is taken for one of the import. -/
theorem callThroughRax_attributed :
    (sliceCalls ([loadRecv, callThroughRax].map fromIced) [recvXref] []
        ([loadRecv, callThroughRax].map fromIced))[1]? = some (some (.register "recv")) ∧
      ¬ CallsImport plainChanges [recvXref] [loadRecv, callThroughRax] 1 "recv" := by
  refine ⟨by decide, ?_⟩
  rintro ⟨d, r, -, -, hd, hop, -⟩
  cases hd
  cases hop

end Axe.Static.ImportCalls
