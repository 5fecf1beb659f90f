import Axe.Static.SemanticIndex

/-!
# Calls through wrappers

A function whose only call or branch goes to an import, or to another function, is taken for a
wrapper of it. A call of a wrapper is resolved to the import at the end of the chain, and the
rows of the call graph carry what their call site was resolved to.
-/
namespace Axe.Static.Wrappers

open Axe.Static.Disassembly (XrefRecord)
open Axe.Static.SemanticIndex (build inFunction)
open SortedSlices (SortedBy part)

inductive WrapperTarget
  | imported (symbol : String)
  | function (target : Nat)
  deriving DecidableEq

structure ResolvedCallRecord where
  caller : Nat
  callsite : Nat
  originalCallee : Nat
  resolvedApi : String
  wrapperChain : List Nat
  chainDepth : Nat
  confidence : String
  resolutionKind : Option String
  classId : Option String
  vtableVa : Option Nat
  vtableSlot : Option Nat
  target : Option Nat
  candidateTargets : List Nat
  candidateClasses : List String
  deriving DecidableEq

structure CallGraphRecord where
  caller : Nat
  callee : Option Nat
  importSymbol : Option String
  callsite : Nat
  callKind : String
  confidence : String
  resolvedApi : Option String
  wrapperChain : List Nat
  deriving DecidableEq

def isTransfer (xref : XrefRecord) : Bool := xref.role = "call" || xref.role = "branch"

def isCodeCall (xref : XrefRecord) : Bool := xref.kind = "code" && xref.role = "call"

/-- Where the only call of a function goes. -/
def wrapperOf : List XrefRecord → Option WrapperTarget
  | [call] =>
    if call.kind = "import" then call.symbol.map .imported
    else if call.kind = "code" then some (.function call.target)
    else none
  | _ => none

/-- One turn for each wrapper on the way. -/
def resolveFrom (wrappers : OrderedMap Nat WrapperTarget) :
    Nat → (seen chain : List Nat) → Nat → Option (String × List Nat)
  | 0, _, _, _ => none
  | turns + 1, seen, chain, current =>
    if current ∈ seen then none
    else
      match wrappers.get current with
      | none => none
      | some (.imported symbol) => some (symbol, chain ++ [current])
      | some (.function next) =>
        resolveFrom wrappers turns (current :: seen) (chain ++ [current]) next

def resolveTarget (target : Nat) (wrappers : OrderedMap Nat WrapperTarget) (maxDepth : Nat) :
    Option (String × List Nat) := resolveFrom wrappers maxDepth [] [] target

def resolvedRow (caller : FunctionRecord) (xref : XrefRecord) (resolved : String × List Nat) :
    ResolvedCallRecord where
  caller := caller.start
  callsite := xref.fromVa
  originalCallee := xref.target
  resolvedApi := resolved.1
  wrapperChain := resolved.2
  chainDepth := resolved.2.length
  confidence := "high"
  resolutionKind := some "wrapper_collapse"
  classId := none
  vtableVa := none
  vtableSlot := none
  target := none
  candidateTargets := []
  candidateClasses := []

section
variable (functions : List FunctionRecord) (slices : List FunctionSemanticSlice)
  (xrefs : List XrefRecord) (maxDepth : Nat) (resolvedCalls : List ResolvedCallRecord)

def discoverWrappers : OrderedMap Nat WrapperTarget :=
  .ofList (slices.filterMap fun slice =>
    functions[slice.functionIndex]?.bind fun function =>
      (wrapperOf ((part xrefs slice.xrefRange).filter isTransfer)).map fun target =>
        (function.start, target))

def resolveCalls : List ResolvedCallRecord :=
  let wrappers := discoverWrappers functions slices xrefs
  slices.flatMap fun slice =>
    functions[slice.functionIndex]?.elim [] fun caller =>
      (part xrefs slice.xrefRange).filterMap fun xref =>
        if !isCodeCall xref then none
        else (resolveTarget xref.target wrappers maxDepth).map (resolvedRow caller xref)

def callgraphRow (caller : FunctionRecord) (xref : XrefRecord) (resolvedApi : Option String)
    (wrapperChain : List Nat) : Option CallGraphRecord :=
  if !isTransfer xref then none
  else if xref.kind = "import" then
    some ⟨caller.start, none, xref.symbol, xref.fromVa, "import", "high", resolvedApi,
      wrapperChain⟩
  else if xref.kind = "code" then
    some ⟨caller.start, some xref.target, none, xref.fromVa,
      if xref.role = "branch" then "tail_or_jump" else "direct",
      if xref.role = "branch" then "medium" else "high", resolvedApi, wrapperChain⟩
  else none

def buildCallgraph : List CallGraphRecord :=
  let resolvedBySite := OrderedMap.ofList (resolvedCalls.map fun row => (row.callsite, row))
  slices.flatMap fun slice =>
    functions[slice.functionIndex]?.elim [] fun caller =>
      (part xrefs slice.xrefRange).filterMap fun xref =>
        let resolved := resolvedBySite.get xref.fromVa
        callgraphRow caller xref (resolved.map fun row => row.resolvedApi)
          ((resolved.map fun row => row.wrapperChain).getD [])

end

section
variable (links : Nat → WrapperTarget → Prop)

/-- The wrappers on the way to an import. -/
inductive Chain : Nat → List Nat → String → Prop
  | imported {k : Nat} {api : String} (h : links k (.imported api)) : Chain k [k] api
  | function {k next : Nat} {path : List Nat} {api : String} (h : links k (.function next))
      (rest : Chain next path api) : Chain k (k :: path) api

end

section
variable {links : Nat → WrapperTarget → Prop} {k x : Nat} {path other : List Nat}
  {api api' : String} {wrappers : OrderedMap Nat WrapperTarget} {turns : Nat}
  {seen chain : List Nat}

theorem Chain.unique (hone : ∀ k s t, links k s → links k t → s = t) (h : Chain links k path api)
    (h' : Chain links k other api') : path = other ∧ api = api' := by
  induction h generalizing other with
  | imported hk =>
    cases h' with
    | imported hk' => exact ⟨rfl, WrapperTarget.imported.inj (hone _ _ _ hk hk')⟩
    | function hk' => cases hone _ _ _ hk hk'
  | function hk hrest ih =>
    cases h' with
    | imported hk' => cases hone _ _ _ hk hk'
    | function hk' hrest' =>
      obtain rfl := WrapperTarget.function.inj (hone _ _ _ hk hk')
      obtain ⟨rfl, rfl⟩ := ih hrest'
      exact ⟨rfl, rfl⟩

/-- From every wrapper on a chain the rest of it is a chain. -/
theorem Chain.tail (h : Chain links k path api) (hx : x ∈ path) :
    ∃ rest, Chain links x rest api ∧ rest.length ≤ path.length := by
  induction h with
  | imported hk =>
    obtain rfl := List.mem_singleton.mp hx
    exact ⟨_, .imported hk, Nat.le_refl _⟩
  | function hk hrest ih =>
    rcases List.mem_cons.mp hx with rfl | hx
    · exact ⟨_, .function hk hrest, Nat.le_refl _⟩
    · obtain ⟨rest, hchain, hle⟩ := ih hx
      exact ⟨rest, hchain, Nat.le_succ_of_le hle⟩

/-- A chain that ends does not come back to where it was. -/
theorem Chain.not_mem (hone : ∀ k s t, links k s → links k t → s = t)
    (h : Chain links k (k :: path) api) : k ∉ path := by
  intro hmem
  cases h with
  | imported hk => exact List.not_mem_nil hmem
  | function hk hrest =>
    obtain ⟨rest, hchain, hle⟩ := hrest.tail hmem
    have hlength := congrArg List.length ((Chain.function hk hrest).unique hone hchain).1
    rw [List.length_cons] at hlength
    omega

theorem resolveFrom_eq_some : resolveFrom wrappers turns seen chain k = some (api, path) ↔
    ∃ rest, path = chain ++ rest ∧ Chain (fun k t => wrappers.get k = some t) k rest api ∧
      rest.length ≤ turns ∧ ∀ x ∈ rest, x ∉ seen := by
  have hone : ∀ (k : Nat) (s t : WrapperTarget), wrappers.get k = some s →
      wrappers.get k = some t → s = t := fun k s t hs ht => Option.some.inj (hs.symm.trans ht)
  induction turns generalizing seen chain k with
  | zero =>
    refine iff_of_false (by simp [resolveFrom]) ?_
    rintro ⟨rest, -, hchain, hle, -⟩
    cases hchain <;> simp at hle
  | succ turns ih =>
    rw [resolveFrom]
    by_cases hseen : k ∈ seen
    · rw [if_pos hseen]
      refine iff_of_false (by simp) ?_
      rintro ⟨rest, -, hchain, -, hfresh⟩
      cases hchain with
      | imported => exact hfresh k List.mem_cons_self hseen
      | function => exact hfresh k List.mem_cons_self hseen
    · rw [if_neg hseen]
      cases hget : wrappers.get k with
      | none =>
        refine iff_of_false (by simp) ?_
        rintro ⟨rest, -, hchain, -⟩
        cases hchain with
        | imported hk => exact absurd (hget.symm.trans hk) (by simp)
        | function hk => exact absurd (hget.symm.trans hk) (by simp)
      | some target =>
        cases target with
        | imported symbol =>
          dsimp only
          rw [Option.some.injEq, Prod.mk.injEq]
          constructor
          · rintro ⟨rfl, rfl⟩
            refine ⟨[k], rfl, .imported hget, Nat.succ_le_succ (Nat.zero_le _), fun x hx => ?_⟩
            exact List.mem_singleton.mp hx ▸ hseen
          · rintro ⟨rest, rfl, hchain, -, -⟩
            obtain ⟨rfl, rfl⟩ := Chain.unique hone hchain (.imported hget)
            exact ⟨rfl, rfl⟩
        | function next =>
          refine ih.trans ?_
          constructor
          · rintro ⟨rest, rfl, hchain, hle, hfresh⟩
            refine ⟨k :: rest, (List.append_cons ..).symm, .function hget hchain,
              Nat.succ_le_succ hle, fun x hx => ?_⟩
            rcases List.mem_cons.mp hx with rfl | hx
            · exact hseen
            · exact fun hmem => hfresh x hx (List.mem_cons_of_mem _ hmem)
          · rintro ⟨rest, rfl, hchain, hle, hfresh⟩
            cases hchain with
            | imported hk => exact absurd (hget.symm.trans hk) (by simp)
            | function hk hrest =>
              obtain rfl := WrapperTarget.function.inj (hone _ _ _ hget hk)
              have hnew := Chain.not_mem hone (.function hk hrest)
              refine ⟨_, List.append_cons .., hrest, Nat.le_of_succ_le_succ hle, fun x hx => ?_⟩
              rw [List.mem_cons, not_or]
              exact ⟨fun heq => hnew (heq ▸ hx), hfresh x (List.mem_cons_of_mem _ hx)⟩

theorem resolveTarget_eq_some {maxDepth : Nat} :
    resolveTarget k wrappers maxDepth = some (api, path) ↔
      Chain (fun k t => wrappers.get k = some t) k path api ∧ path.length ≤ maxDepth := by
  rw [resolveTarget, resolveFrom_eq_some]
  constructor
  · rintro ⟨rest, rfl, hchain, hle, -⟩
    exact ⟨hchain, hle⟩
  · rintro ⟨hchain, hle⟩
    exact ⟨path, rfl, hchain, hle, fun _ _ => List.not_mem_nil⟩

end

section
variable (functions : List FunctionRecord) (xrefs : List XrefRecord)

def body (function : FunctionRecord) : List XrefRecord :=
  xrefs.filter fun xref => inFunction function xref.fromVa

/-- The function at an address has one call or branch, which goes to a target. -/
def Forwards (k : Nat) (target : WrapperTarget) : Prop :=
  ∃ f ∈ functions, f.start = k ∧ wrapperOf ((body xrefs f).filter isTransfer) = some target

/-- A call at a site, in some function, leads to an import over few enough wrappers. -/
def Resolves (maxDepth site : Nat) (api : String) (path : List Nat) : Prop :=
  ∃ f ∈ functions, ∃ xref ∈ xrefs, inFunction f xref.fromVa = true ∧ isCodeCall xref = true ∧
    xref.fromVa = site ∧ Chain (Forwards functions xrefs) xref.target path api ∧
      path.length ≤ maxDepth

/-- What the call graph says of the resolution of a site. -/
def SiteResolution (maxDepth site : Nat) (api : Option String) (path : List Nat) : Prop :=
  (∃ found, api = some found ∧ Resolves functions xrefs maxDepth site found path) ∨
    api = none ∧ path = [] ∧ ∀ found path, ¬ Resolves functions xrefs maxDepth site found path

/-- The calls of code at one site have one target. -/
def OneTarget : Prop :=
  ∀ x ∈ xrefs, ∀ y ∈ xrefs, isCodeCall x = true → isCodeCall y = true → x.fromVa = y.fromVa →
    x.target = y.target

end

section
variable {functions : List FunctionRecord} {instructions : List Disassembly.InstructionRecord}
  {ir : List LiftedInstruction} {xrefs : List XrefRecord} {cfg : List CfgRecord}
  {maxDepth k site : Nat} {target s t : WrapperTarget} {row : ResolvedCallRecord}
  {edge : CallGraphRecord} {api found : String} {path other : List Nat}

/-- Rows made of the references of all functions. -/
theorem mem_rows {β : Type} {rowOf : FunctionRecord → XrefRecord → Option β} {b : β}
    (hx : SortedBy XrefRecord.fromVa xrefs) :
    b ∈ ((build functions instructions ir xrefs cfg).flatMap fun slice =>
      functions[slice.functionIndex]?.elim [] fun caller =>
        (part xrefs slice.xrefRange).filterMap (rowOf caller)) ↔
      ∃ f ∈ functions, ∃ xref ∈ xrefs, inFunction f xref.fromVa = true ∧
        rowOf f xref = some b := by
  rw [List.mem_flatMap]
  constructor
  · rintro ⟨slice, hslice, hb⟩
    obtain ⟨f, idx, hget, rfl⟩ := SemanticIndex.mem_build.mp hslice
    have hcaller : functions[(SemanticIndex.sliceOf functions instructions ir xrefs cfg f
      idx).functionIndex]? = some f := hget
    rw [hcaller, Option.elim_some, SemanticIndex.part_xrefRange hx] at hb
    obtain ⟨xref, hxref, hrow⟩ := List.mem_filterMap.mp hb
    obtain ⟨hmem, hin⟩ := List.mem_filter.mp hxref
    exact ⟨f, List.mem_of_getElem? hget, xref, hmem, hin, hrow⟩
  · rintro ⟨f, hf, xref, hmem, hin, hrow⟩
    obtain ⟨idx, hget⟩ := List.getElem?_of_mem hf
    refine ⟨_, SemanticIndex.mem_build.mpr ⟨f, idx, hget, rfl⟩, ?_⟩
    have hcaller : functions[(SemanticIndex.sliceOf functions instructions ir xrefs cfg f
      idx).functionIndex]? = some f := hget
    rw [hcaller, Option.elim_some, SemanticIndex.part_xrefRange hx]
    exact List.mem_filterMap.mpr ⟨xref, List.mem_filter.mpr ⟨hmem, hin⟩, hrow⟩

theorem Forwards.unique (hf : SortedMap.Sorted FunctionRecord.start functions)
    (hs : Forwards functions xrefs k s) (ht : Forwards functions xrefs k t) : s = t := by
  obtain ⟨f, hmem, hkey, hsome⟩ := hs
  obtain ⟨g, hmem', hkey', hsome'⟩ := ht
  obtain rfl := hf.eq_of_key hmem hmem' (hkey.trans hkey'.symm)
  exact Option.some.inj (hsome.symm.trans hsome')

theorem get_discoverWrappers (hf : SortedMap.Sorted FunctionRecord.start functions)
    (hx : SortedBy XrefRecord.fromVa xrefs) :
    (discoverWrappers functions (build functions instructions ir xrefs cfg) xrefs).get k =
      some target ↔ Forwards functions xrefs k target := by
  have hmem : ∀ k target, (k, target) ∈ (build functions instructions ir xrefs cfg).filterMap
      (fun slice => functions[slice.functionIndex]?.bind fun function =>
        (wrapperOf ((part xrefs slice.xrefRange).filter isTransfer)).map fun target =>
          (function.start, target)) ↔ Forwards functions xrefs k target := by
    intro k target
    rw [List.mem_filterMap]
    constructor
    · rintro ⟨slice, hslice, hrow⟩
      obtain ⟨f, idx, hget, rfl⟩ := SemanticIndex.mem_build.mp hslice
      have hcaller : functions[(SemanticIndex.sliceOf functions instructions ir xrefs cfg f
        idx).functionIndex]? = some f := hget
      rw [hcaller, Option.bind_some, SemanticIndex.part_xrefRange hx] at hrow
      obtain ⟨found, hfound, heq⟩ := Option.map_eq_some_iff.mp hrow
      obtain ⟨rfl, rfl⟩ := Prod.mk.inj heq
      exact ⟨f, List.mem_of_getElem? hget, rfl, hfound⟩
    · rintro ⟨f, hf, rfl, hfound⟩
      obtain ⟨idx, hget⟩ := List.getElem?_of_mem hf
      refine ⟨_, SemanticIndex.mem_build.mpr ⟨f, idx, hget, rfl⟩, ?_⟩
      have hcaller : functions[(SemanticIndex.sliceOf functions instructions ir xrefs cfg f
        idx).functionIndex]? = some f := hget
      rw [hcaller, Option.bind_some, SemanticIndex.part_xrefRange hx]
      exact Option.map_eq_some_iff.mpr ⟨target, hfound, rfl⟩
  rw [discoverWrappers, OrderedMap.get_ofList_iff fun k v w hv hw =>
    ((hmem k v).mp hv).unique hf ((hmem k w).mp hw)]
  exact hmem k target

/-- What is resolved for one reference: a call of code from which a chain of few enough wrappers
leads to an import. -/
theorem resolvedRow_eq_some (hf : SortedMap.Sorted FunctionRecord.start functions)
    (hx : SortedBy XrefRecord.fromVa xrefs) {f : FunctionRecord} {xref : XrefRecord} :
    (if !isCodeCall xref then none
      else (resolveTarget xref.target (discoverWrappers functions
        (build functions instructions ir xrefs cfg) xrefs) maxDepth).map (resolvedRow f xref)) =
          some row ↔
      isCodeCall xref = true ∧ ∃ api path,
        Chain (Forwards functions xrefs) xref.target path api ∧ path.length ≤ maxDepth ∧
          row = resolvedRow f xref (api, path) := by
  have hlinks : (fun k t => (discoverWrappers functions (build functions instructions ir xrefs cfg)
      xrefs).get k = some t) = Forwards functions xrefs :=
    funext fun k => funext fun t => propext (get_discoverWrappers hf hx)
  cases hcall : isCodeCall xref with
  | false => simp
  | true =>
    rw [Bool.not_true, if_neg Bool.false_ne_true, Option.map_eq_some_iff, and_iff_right rfl]
    constructor
    · rintro ⟨⟨api, path⟩, hfound, rfl⟩
      obtain ⟨hchain, hle⟩ := resolveTarget_eq_some.mp hfound
      exact ⟨api, path, hlinks ▸ hchain, hle, rfl⟩
    · rintro ⟨api, path, hchain, hle, rfl⟩
      exact ⟨(api, path), resolveTarget_eq_some.mpr ⟨hlinks ▸ hchain, hle⟩, rfl⟩

/-- The resolved calls are the calls of code from which a chain of few enough wrappers leads to
an import, each with its chain. -/
theorem mem_resolveCalls (hf : SortedMap.Sorted FunctionRecord.start functions)
    (hx : SortedBy XrefRecord.fromVa xrefs) :
    row ∈ resolveCalls functions (build functions instructions ir xrefs cfg) xrefs maxDepth ↔
      ∃ f ∈ functions, ∃ xref ∈ xrefs, inFunction f xref.fromVa = true ∧
        isCodeCall xref = true ∧ ∃ api path,
          Chain (Forwards functions xrefs) xref.target path api ∧ path.length ≤ maxDepth ∧
            row = resolvedRow f xref (api, path) := by
  rw [resolveCalls, mem_rows hx]
  refine exists_congr fun f => and_congr_right fun _ => exists_congr fun xref =>
    and_congr_right fun _ => and_congr_right fun _ => ?_
  exact resolvedRow_eq_some hf hx

/-- A function that calls an import, and one that calls the first. -/
def wrapperFunction : FunctionRecord := ⟨0x1000, 0x1010, 0x10, "pdata", [], by decide⟩

def callerFunction : FunctionRecord := ⟨0x2000, 0x2010, 0x10, "pdata", [], by decide⟩

def importCall : XrefRecord :=
  ⟨"import", 0x1004, 0x3000, "call", some "CreateFileW", none, none, none⟩

def wrapperCall : XrefRecord := ⟨"code", 0x2004, 0x1000, "call", none, none, none, some ".text"⟩

theorem sorted_pair :
    SortedMap.Sorted FunctionRecord.start [wrapperFunction, callerFunction] ∧
      SortedBy XrefRecord.fromVa [importCall, wrapperCall] := by
  simp [SortedMap.Sorted, SortedBy, wrapperFunction, callerFunction, importCall, wrapperCall]

theorem chain_pair : Chain (Forwards [wrapperFunction, callerFunction] [importCall, wrapperCall])
    wrapperCall.target [0x1000] "CreateFileW" :=
  .imported ⟨wrapperFunction, List.mem_cons_self, rfl, by decide⟩

theorem mem_resolveCalls_pair : resolvedRow callerFunction wrapperCall ("CreateFileW", [0x1000]) ∈
    resolveCalls [wrapperFunction, callerFunction]
      (build [wrapperFunction, callerFunction] [] [] [importCall, wrapperCall] [])
      [importCall, wrapperCall] 4 :=
  (mem_resolveCalls sorted_pair.1 sorted_pair.2).mpr
    ⟨callerFunction, by simp, wrapperCall, by simp, by decide, by decide, _, _, chain_pair,
      by decide, rfl⟩

theorem exists_row_iff (hf : SortedMap.Sorted FunctionRecord.start functions)
    (hx : SortedBy XrefRecord.fromVa xrefs) :
    (∃ row ∈ resolveCalls functions (build functions instructions ir xrefs cfg) xrefs maxDepth,
      row.callsite = site ∧ row.resolvedApi = api ∧ row.wrapperChain = path) ↔
        Resolves functions xrefs maxDepth site api path := by
  simp only [resolveCalls, mem_rows hx, resolvedRow_eq_some hf hx]
  constructor
  · rintro ⟨row, ⟨f, hf, xref, hxref, hin, hcall, api, path, hchain, hle, rfl⟩, rfl, rfl, rfl⟩
    exact ⟨f, hf, xref, hxref, hin, hcall, rfl, hchain, hle⟩
  · rintro ⟨f, hf, xref, hxref, hin, hcall, rfl, hchain, hle⟩
    exact ⟨_, ⟨f, hf, xref, hxref, hin, hcall, api, path, hchain, hle, rfl⟩, rfl, rfl, rfl⟩

theorem Resolves.unique (hf : SortedMap.Sorted FunctionRecord.start functions)
    (hone : OneTarget xrefs) (h : Resolves functions xrefs maxDepth site api path)
    (h' : Resolves functions xrefs maxDepth site found other) : api = found ∧ path = other := by
  obtain ⟨f, -, x, hx, -, hcall, rfl, hchain, -⟩ := h
  obtain ⟨g, -, y, hy, -, hcall', hsite, hchain', -⟩ := h'
  rw [hone y hy x hx hcall' hcall hsite] at hchain'
  exact (hchain.unique (fun _ _ _ hs ht => hs.unique hf ht) hchain').symm

/-- The call graph has a row for every call or branch of a function that goes to code or to an
import, with what the calls at its site lead to. -/
theorem mem_buildCallgraph (hf : SortedMap.Sorted FunctionRecord.start functions)
    (hx : SortedBy XrefRecord.fromVa xrefs) (hone : OneTarget xrefs) :
    edge ∈ buildCallgraph functions (build functions instructions ir xrefs cfg) xrefs
        (resolveCalls functions (build functions instructions ir xrefs cfg) xrefs maxDepth) ↔
      ∃ f ∈ functions, ∃ xref ∈ xrefs, inFunction f xref.fromVa = true ∧
        ∃ resolvedApi chain, SiteResolution functions xrefs maxDepth xref.fromVa resolvedApi chain ∧
          callgraphRow f xref resolvedApi chain = some edge := by
  rw [buildCallgraph, mem_rows hx]
  refine exists_congr fun f => and_congr_right fun _ => exists_congr fun xref =>
    and_congr_right fun _ => and_congr_right fun _ => ?_
  dsimp only
  -- what the map of sites has is one of the resolutions, and they agree
  cases hget : (OrderedMap.ofList ((resolveCalls functions
      (build functions instructions ir xrefs cfg) xrefs maxDepth).map fun row =>
        (row.callsite, row))).get xref.fromVa with
  | none =>
    have hnone : ∀ api path, ¬ Resolves functions xrefs maxDepth xref.fromVa api path := by
      intro api path hres
      obtain ⟨row, hrow, hsite, -, -⟩ := (exists_row_iff hf hx).mpr hres
      obtain ⟨w, hw⟩ := OrderedMap.exists_get_ofList
        (List.mem_map_of_mem (f := fun row : ResolvedCallRecord => (row.callsite, row)) hrow)
      rw [hsite, hget] at hw
      cases hw
    constructor
    · exact fun hedge => ⟨none, [], .inr ⟨rfl, rfl, hnone⟩, hedge⟩
    · rintro ⟨resolvedApi, chain, ⟨found, -, hres⟩ | ⟨rfl, rfl, -⟩, hedge⟩
      · exact absurd hres (hnone _ _)
      · exact hedge
  | some row =>
    obtain ⟨row', hrow, heq⟩ := List.mem_map.mp (OrderedMap.mem_of_get_ofList hget)
    obtain ⟨hsite, rfl⟩ := Prod.mk.inj heq
    have hres : Resolves functions xrefs maxDepth xref.fromVa row'.resolvedApi
        row'.wrapperChain := (exists_row_iff hf hx).mp ⟨row', hrow, hsite, rfl, rfl⟩
    constructor
    · exact fun hedge => ⟨some row'.resolvedApi, row'.wrapperChain, .inl ⟨_, rfl, hres⟩, hedge⟩
    · rintro ⟨resolvedApi, chain, ⟨found, rfl, hres'⟩ | ⟨-, -, hnone⟩, hedge⟩
      · obtain ⟨rfl, rfl⟩ := hres.unique hf hone hres'
        exact hedge
      · exact absurd hres (hnone _ _)

theorem mem_buildCallgraph_pair :
    ⟨0x2000, some 0x1000, none, 0x2004, "direct", "high", some "CreateFileW", [0x1000]⟩ ∈
      buildCallgraph [wrapperFunction, callerFunction]
        (build [wrapperFunction, callerFunction] [] [] [importCall, wrapperCall] [])
        [importCall, wrapperCall]
        (resolveCalls [wrapperFunction, callerFunction]
          (build [wrapperFunction, callerFunction] [] [] [importCall, wrapperCall] [])
          [importCall, wrapperCall] 4) := by
  refine (mem_buildCallgraph sorted_pair.1 sorted_pair.2 ?_).mpr
    ⟨callerFunction, by simp, wrapperCall, by simp, by decide, _, _, .inl ⟨_, rfl, ?_⟩, rfl⟩
  · intro x hx y hy
    revert x y
    decide
  · exact ⟨callerFunction, by simp, wrapperCall, by simp, by decide, by decide, rfl, chain_pair,
      by decide⟩

end
end Axe.Static.Wrappers
