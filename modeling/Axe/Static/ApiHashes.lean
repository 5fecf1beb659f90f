import Axe.Concolic.Digits
import Axe.Cpp.Thunks
import Axe.Lib.Separators

/-!
# Constants of hashed names

One pass collects the constants of arithmetic that looks like a hash of a name and prints them
into the description of a hint. Another pass reads them back and looks for names of functions
with these hashes.
-/
namespace Axe.Static.ApiHashes

open Axe.Concolic (trim toAsciiLowercase toDigit digits digits_toDigits)

abbrev Text := List Char

structure FunctionRecord where
  start : Nat
  callsImports : List Text
  strings : List Text

structure ObfuscationHintRecord where
  hintId : String
  function : Nat
  candidateKind : String
  description : Text
  tags : List String
  confidence : String
  evidence : List Nat
  uncertaintyReason : Text
  deriving DecidableEq

structure ApiHashResolutionRecord where
  resolutionId : String
  function : Nat
  siteVa : Option Nat
  algorithm : String
  hashValue : String
  resolvedApi : Text
  confidence : String
  evidence : List Nat
  deriving DecidableEq

def contains (text : Text) (pattern : String) : Bool := pattern.toList <:+: text

def constantOf (ins : IrInstruction) : Nat := (ins.immediate.getD 0).val

def carriesConstant (ins : IrInstruction) : Bool :=
  ins.mnemonic ∈ ["imul", "xor", "add", "sub"] && 0xffff < constantOf ins

/-- `{:X}`. -/
def hexDigits (n : Nat) : Text := (Nat.toDigits 16 n).map Char.toUpper

def printed (n : Nat) : Text := '0' :: 'x' :: hexDigits n

structure HashScan where
  constants : List Text
  evidence : List Nat
  hasRotate : Bool
  hashOps : Nat
  capped : Bool
  deriving DecidableEq

def HashScan.empty : HashScan := ⟨[], [], false, 0, false⟩

def HashScan.step (limit : Nat) (scan : HashScan) (ins : IrInstruction) : HashScan :=
  let rotated := scan.hasRotate || ins.mnemonic ∈ ["ror", "rol"]
  let ops := if ins.mnemonic ∈ ["imul", "xor", "add", "sub", "ror", "rol"] then scan.hashOps + 1
    else scan.hashOps
  if carriesConstant ins then
    if limit ≤ scan.constants.length then
      ⟨scan.constants, scan.evidence, rotated, ops, true⟩
    else
      ⟨scan.constants ++ [printed (constantOf ins)], scan.evidence ++ [ins.address], rotated, ops,
        scan.capped⟩
  else ⟨scan.constants, scan.evidence, rotated, ops, scan.capped⟩

def scanSlice (limit : Nat) (part : List IrInstruction) : HashScan :=
  part.foldl (HashScan.step limit) .empty

def importResolutionContext (function : FunctionRecord) : Bool :=
  (function.callsImports.any fun symbol =>
    let lower := toAsciiLowercase symbol
    contains lower "getprocaddress" || contains lower "loadlibrary" ||
      contains lower "ldrgetprocedureaddress") ||
  function.strings.any fun text =>
    let lower := toAsciiLowercase text
    contains lower "kernel32" || contains lower "ntdll" || contains lower "advapi32"

def recoveredId (function : Nat) (kind : String) (index : Nat) : String :=
  "recovered:" ++ upperHex 16 function ++ ":" ++ kind ++ ":" ++ upperHex 4 index

def uncertainty : String :=
  "hash-like arithmetic with import-resolution context; static candidate only"

structure Candidates where
  rows : List ObfuscationHintRecord
  apiHashCandidates : Nat
  capped : Bool

def visitSlice (functions : List FunctionRecord) (ir : List IrInstruction) (limit startIndex : Nat)
    (found : Candidates) (slice : FunctionSemanticSlice) : Candidates :=
  (functions[slice.functionIndex]?).elim found fun function =>
    let scan := scanSlice limit (slice.part ir)
    let capped := found.capped || scan.capped
    if scan.hasRotate && 6 ≤ scan.hashOps && 2 ≤ scan.constants.length &&
        importResolutionContext function then
      { rows := found.rows ++ [{
          hintId := recoveredId function.start "api_hash_candidate" (startIndex + found.rows.length)
          function := function.start
          candidateKind := "api_hash_candidate"
          description := [','].intercalate scan.constants
          tags := ["api_hash"]
          confidence := "low"
          evidence := scan.evidence
          uncertaintyReason := uncertainty.toList }]
        apiHashCandidates := found.apiHashCandidates + 1
        capped }
    else { found with capped }

def apiHashCandidates (functions : List FunctionRecord) (ir : List IrInstruction)
    (limit startIndex : Nat) (slices : List FunctionSemanticSlice) : Candidates :=
  slices.foldl (visitSlice functions ir limit startIndex) ⟨[], 0, false⟩

def nameBytes (name : Text) : List (BitVec 32) :=
  (name.flatMap String.utf8EncodeChar).map fun byte => BitVec.ofNat 32 byte.toNat

def ror13HashName (name : Text) : BitVec 32 :=
  (nameBytes name).foldl (fun hash byte => hash.rotateRight 13 + byte) 0

def djb2HashName (name : Text) : BitVec 32 :=
  (nameBytes name).foldl (fun hash byte => hash * 33 + byte) 5381

def fnv1aHashName (name : Text) : BitVec 32 :=
  (nameBytes name).foldl (fun hash byte => (hash ^^^ byte) * 0x01000193) 0x811C9DC5

def crcTurn (crc : BitVec 32) : BitVec 32 :=
  (crc >>> 1) ^^^ (0xEDB88320 &&& (0 - (crc &&& 1)))

def crc32HashName (name : Text) : BitVec 32 :=
  ~~~ (nameBytes name).foldl (fun crc byte => Nat.iterate crcTurn 8 (crc ^^^ byte)) 0xFFFFFFFF

def algorithms : List (String × (Text → BitVec 32)) :=
  [("ror13", ror13HashName), ("djb2", djb2HashName), ("fnv1a", fnv1aHashName),
    ("crc32", crc32HashName)]

/-- The text after the last `!`. -/
def apiName (symbol : Text) : Text := (symbol.reverse.takeWhile (· ≠ '!')).reverse

def algorithmFor (hash : BitVec 32) (symbol : Text) : Option String :=
  (algorithms.find? fun algorithm => algorithm.2 (apiName symbol) == hash).map Prod.fst

def resolveHash (hash : BitVec 32) (seeds : List Text) : Option (String × Text) :=
  seeds.findSome? fun symbol => (algorithmFor hash symbol).map fun algorithm => (algorithm, symbol)

def isHashChar (c : Char) : Bool :=
  ('0' ≤ c && c ≤ '9') || ('a' ≤ c && c ≤ 'f') || ('A' ≤ c && c ≤ 'F') || c == 'x' || c == 'X'

/-- `trim_start_matches` with a pattern of two characters. -/
def trimStartMatches (a b : Char) : Text → Text
  | c :: d :: rest => if c = a ∧ d = b then trimStartMatches a b rest else c :: d :: rest
  | text => text

/-- `u32::from_str_radix`, which also accepts a leading `+`. -/
def u32FromStrRadix (s : Text) (radix : Nat) : Option (BitVec 32) :=
  let unsigned := if s.head? = some '+' then s.tail else s
  (digits radix unsigned).bind fun n =>
    if n < 2 ^ 32 then some (BitVec.ofNat 32 n) else none

def parsePart (part : Text) : Option (BitVec 32) :=
  let trimmed := trim part
  if trimmed = [] then none
  else u32FromStrRadix (trimStartMatches '0' 'X' (trimStartMatches '0' 'x' trimmed)) 16

def parseHashes (description : Text) : List (BitVec 32) :=
  (description.splitOnP fun c => !isHashChar c).filterMap parsePart

def hasImportResolutionContext (hint : ObfuscationHintRecord) : Bool :=
  let lower := toAsciiLowercase hint.uncertaintyReason
  contains lower "import-resolution" || contains lower "getprocaddress" ||
    contains lower "peb" || contains lower "ldr"

/-- The text before the first `!`, where there is one. -/
def dllOf (symbol : Text) : Option Text :=
  if '!' ∈ symbol then some (symbol.takeWhile (· ≠ '!')) else none

/-- `trim_end_matches`. -/
def trimEndMatches (pattern : Text) (n : Nat) (text : Text) : Text :=
  Nat.iterate (fun text => if pattern <:+ text then text.take (text.length - pattern.length)
    else text) n text

def normalizeDll (dll : Text) : Text :=
  let short := trimEndMatches ".dll".toList dll.length dll
  toAsciiLowercase (trimEndMatches ".DLL".toList short.length short)

def builtinSymbols : List String :=
  ["KERNEL32.dll!CreateFileW", "KERNEL32.dll!CreateFileA", "KERNEL32.dll!ReadFile",
    "KERNEL32.dll!WriteFile", "KERNEL32.dll!VirtualAlloc", "KERNEL32.dll!VirtualAllocEx",
    "KERNEL32.dll!VirtualProtect", "KERNEL32.dll!CreateToolhelp32Snapshot",
    "KERNEL32.dll!CreateFileMappingW", "KERNEL32.dll!MapViewOfFile",
    "KERNEL32.dll!WriteProcessMemory", "KERNEL32.dll!ReadProcessMemory",
    "KERNEL32.dll!CreateRemoteThread", "KERNEL32.dll!LoadLibraryA", "KERNEL32.dll!LoadLibraryW",
    "KERNEL32.dll!GetProcAddress", "NTDLL.dll!LdrGetProcedureAddress",
    "NTDLL.dll!NtQueryInformationProcess", "NTDLL.dll!NtProtectVirtualMemory",
    "NTDLL.dll!NtAllocateVirtualMemory", "NTDLL.dll!NtWriteVirtualMemory",
    "NTDLL.dll!RtlCreateUserThread", "NTDLL.dll!RtlDecompressBuffer",
    "ADVAPI32.dll!RegOpenKeyExW", "ADVAPI32.dll!RegSetValueExW", "ADVAPI32.dll!CreateServiceW",
    "ADVAPI32.dll!StartServiceW", "WS2_32.dll!connect", "WS2_32.dll!WSAConnect",
    "WS2_32.dll!send", "WS2_32.dll!recv", "WINHTTP.dll!WinHttpSendRequest",
    "WININET.dll!InternetReadFile", "WININET.dll!HttpSendRequestW", "BCRYPT.dll!BCryptEncrypt",
    "BCRYPT.dll!BCryptDecrypt", "ADVAPI32.dll!CryptHashData", "CRYPT32.dll!CryptDecodeObjectEx",
    "OLE32.dll!CoCreateInstance"]

/-- The symbols with the built-in ones of the libraries that they refer to, as a set in the order
of the names. -/
def apiSeedSymbols (apiSymbols : List Text) : List Text :=
  let referenced := apiSymbols.filterMap fun symbol => (dllOf symbol).map normalizeDll
  let builtin := (builtinSymbols.map String.toList).filter fun symbol =>
    (dllOf symbol).any fun dll => referenced.contains (normalizeDll dll)
  SortedMap.ofList id (apiSymbols ++ builtin)

def resolutionId (function : Nat) (algorithm : String) (hash : BitVec 32) (n : Nat) : String :=
  "api-hash:" ++ upperHex 16 function ++ ":" ++ algorithm ++ ":" ++ upperHex 8 hash.toNat ++
    ":" ++ toString n

def resolution (hint : ObfuscationHintRecord) (hash : BitVec 32) (resolved : String × Text)
    (n : Nat) : ApiHashResolutionRecord where
  resolutionId := resolutionId hint.function resolved.1 hash n
  function := hint.function
  siteVa := hint.evidence.head?
  algorithm := resolved.1
  hashValue := "0x" ++ upperHex 8 hash.toNat
  resolvedApi := resolved.2
  confidence := "medium"
  evidence := hint.evidence

def visitHash (seeds : List Text) (hint : ObfuscationHintRecord)
    (rows : List ApiHashResolutionRecord) (hash : BitVec 32) : List ApiHashResolutionRecord :=
  (resolveHash hash seeds).elim rows fun resolved =>
    rows ++ [resolution hint hash resolved rows.length]

def visitHint (seeds : List Text) (rows : List ApiHashResolutionRecord)
    (hint : ObfuscationHintRecord) : List ApiHashResolutionRecord :=
  if hint.candidateKind ≠ "api_hash_candidate" || !hasImportResolutionContext hint then rows
  else (parseHashes hint.description).foldl (visitHash seeds hint) rows

def resolveApiHashes (hints : List ObfuscationHintRecord) (apiSymbols : List Text) :
    List ApiHashResolutionRecord :=
  hints.foldl (visitHint (apiSeedSymbols apiSymbols)) []

/-- The instructions of a part whose constants are collected. -/
def carriers (part : List IrInstruction) : List IrInstruction := part.filter carriesConstant

/-- A number that is a hash of the name of a seed. -/
def Known (seeds : List Text) (n : Nat) : Prop :=
  ∃ symbol ∈ seeds, ∃ algorithm ∈ algorithms, (algorithm.2 (apiName symbol)).toNat = n

instance (seeds : List Text) (n : Nat) : Decidable (Known seeds n) :=
  inferInstanceAs (Decidable (∃ symbol ∈ seeds, ∃ algorithm ∈ algorithms, _))

def known (seeds : List Text) (part : List IrInstruction) : List IrInstruction :=
  (carriers part).filter fun ins => Known seeds (constantOf ins)

/-- The row names a seed with the constant of the instruction as its hash, at a site. -/
structure Resolves (seeds : List Text) (site : Option Nat) (row : ApiHashResolutionRecord)
    (ins : IrInstruction) : Prop where
  value : row.hashValue = "0x" ++ upperHex 8 (constantOf ins)
  seed : row.resolvedApi ∈ seeds
  hashed : ∃ hash, (row.algorithm, hash) ∈ algorithms ∧
    (hash (apiName row.resolvedApi)).toNat = constantOf ins
  site : row.siteVa = site

structure HandedOver (seeds : List Text) (part : List IrInstruction) (description : Text)
    (rows : List ApiHashResolutionRecord) : Prop where
  parsed : (parseHashes description).map BitVec.toNat =
    ((carriers part).map constantOf).filter (· < 2 ^ 32)
  rows : List.Forall₂ (fun row ins => Resolves seeds (some ins.address) row ins) rows
    (known seeds part)

/-- The rows that a hint adds behind those of the hints before it. -/
def ownRows (front : List ObfuscationHintRecord) (hint : ObfuscationHintRecord)
    (symbols : List Text) : List ApiHashResolutionRecord :=
  (resolveApiHashes (front ++ [hint]) symbols).drop (resolveApiHashes front symbols).length

variable {part : List IrInstruction} {limit n : Nat} {seeds : List Text}
  {hint : ObfuscationHintRecord} {c : Char}

/-- What a printed constant is read as. -/
def readBack (n : Nat) : Option (BitVec 32) :=
  if n < 2 ^ 32 then some (BitVec.ofNat 32 n) else none

theorem mem_toDigits (h : c ∈ Nat.toDigits 16 n) : ∃ d < 16, c = d.digitChar := by
  induction n using Nat.strongRecOn with
  | ind n ih =>
    rw [Nat.toDigits_eq_if (by decide)] at h
    split at h
    · rename_i hn
      exact ⟨n, hn, List.mem_singleton.mp h⟩
    · rcases List.mem_append.mp h with h | h
      · exact ih (n / 16) (by omega) h
      · exact ⟨n % 16, Nat.mod_lt n (by decide), List.mem_singleton.mp h⟩

theorem mem_hexDigits (h : c ∈ hexDigits n) : ∃ d < 16, c = d.digitChar.toUpper := by
  obtain ⟨b, hb, rfl⟩ := List.mem_map.mp h
  obtain ⟨d, hd, rfl⟩ := mem_toDigits hb
  exact ⟨d, hd, rfl⟩

theorem foldlM_upper {s : Text} (hs : ∀ c ∈ s, ∃ d < 16, c = d.digitChar) (a : Nat) :
    s.foldlM (fun n c => (toDigit 16 c.toUpper).map fun d => n * 16 + d) a =
      s.foldlM (fun n c => (toDigit 16 c).map fun d => n * 16 + d) a := by
  have hupper : ∀ d < 16, toDigit 16 (Nat.digitChar d).toUpper = toDigit 16 (Nat.digitChar d) := by
    decide
  induction s generalizing a with
  | nil => rfl
  | cons c s ih =>
    obtain ⟨d, hd, rfl⟩ := hs c List.mem_cons_self
    rw [List.foldlM_cons, List.foldlM_cons, hupper d hd]
    exact congrArg _ (funext fun b => ih (fun c hc => hs c (List.mem_cons_of_mem _ hc)) b)

theorem digits_hexDigits (n : Nat) : digits 16 (hexDigits n) = some n := by
  rw [← @digits_toDigits 16 (by decide) (by decide) n, digits, digits, hexDigits, List.foldlM_map,
    foldlM_upper (fun c hc => mem_toDigits hc) 0]
  simp only [List.map_eq_nil_iff]

/-- The characters of a printed constant. -/
theorem of_mem_printed (h : c ∈ printed n) :
    isHashChar c = true ∧ Axe.Concolic.isWhiteSpace c = false := by
  have hdigit : ∀ d < 16, isHashChar (Nat.digitChar d).toUpper = true ∧
      Axe.Concolic.isWhiteSpace (Nat.digitChar d).toUpper = false := by decide
  rcases List.mem_cons.mp h with rfl | h
  · decide
  · rcases List.mem_cons.mp h with rfl | h
    · decide
    · obtain ⟨d, hd, rfl⟩ := mem_hexDigits h
      exact hdigit d hd

theorem trim_eq_self {s : Text} (hs : ∀ c ∈ s, Axe.Concolic.isWhiteSpace c = false) :
    trim s = s := by
  have hdrop : ∀ t : Text, (∀ c ∈ t, Axe.Concolic.isWhiteSpace c = false) →
      t.dropWhile Axe.Concolic.isWhiteSpace = t := by
    intro t ht
    cases t with
    | nil => rfl
    | cons c t => rw [List.dropWhile_cons, ht c List.mem_cons_self, if_neg (by decide)]
  rw [trim, hdrop s hs, hdrop s.reverse fun c hc => hs c (List.mem_reverse.mp hc),
    List.reverse_reverse]

theorem trimStartMatches_eq_self {a b : Char} {s : Text} (hs : b ∉ s) :
    trimStartMatches a b s = s := by
  rcases s with _ | ⟨c, _ | ⟨d, s⟩⟩
  · rfl
  · rfl
  · have hd : ¬ (c = a ∧ d = b) := fun h => hs (by simp [h.2])
    rw [trimStartMatches, if_neg hd]

theorem parsePart_printed (n : Nat) : parsePart (printed n) = readBack n := by
  have hletters : ∀ d < 16, (Nat.digitChar d).toUpper ≠ 'x' ∧ (Nat.digitChar d).toUpper ≠ 'X' ∧
      (Nat.digitChar d).toUpper ≠ '+' := by decide
  have hx : 'x' ∉ hexDigits n := by
    intro h
    obtain ⟨d, hd, heq⟩ := mem_hexDigits h
    exact (hletters d hd).1 heq.symm
  have hX : 'X' ∉ hexDigits n := by
    intro h
    obtain ⟨d, hd, heq⟩ := mem_hexDigits h
    exact (hletters d hd).2.1 heq.symm
  have hplus : (hexDigits n).head? ≠ some '+' := by
    intro h
    obtain ⟨d, hd, heq⟩ := mem_hexDigits (List.mem_of_head? h)
    exact (hletters d hd).2.2 heq.symm
  have hstart : trimStartMatches '0' 'x' (printed n) = hexDigits n := by
    rw [printed, trimStartMatches, if_pos ⟨rfl, rfl⟩, trimStartMatches_eq_self hx]
  have htrim : trim (printed n) = printed n := trim_eq_self fun c hc => (of_mem_printed hc).2
  have hne : printed n ≠ [] := List.cons_ne_nil _ _
  simp only [parsePart, htrim, hne, if_false, hstart, trimStartMatches_eq_self hX,
    u32FromStrRadix, hplus, digits_hexDigits, Option.bind_some, readBack]

theorem parseHashes_printed (ns : List Nat) (hne : ns ≠ []) :
    parseHashes ([','].intercalate (ns.map printed)) = ns.filterMap readBack := by
  have hpieces : ∀ piece ∈ ns.map printed, ∀ c ∈ piece, (!isHashChar c) = false := by
    intro piece hpiece c hc
    obtain ⟨n, _, rfl⟩ := List.mem_map.mp hpiece
    rw [(of_mem_printed hc).1, Bool.not_true]
  rw [parseHashes, @splitOnP_intercalate _ ',' _ (by decide) _ hpieces (by simpa using hne),
    List.filterMap_map]
  exact congrArg (List.filterMap · ns) (funext fun n => parsePart_printed n)

theorem foldl_step (scan : HashScan)
    (hfits : scan.constants.length + (carriers part).length ≤ limit) :
    (part.foldl (HashScan.step limit) scan).constants =
        scan.constants ++ (carriers part).map (fun ins => printed (constantOf ins)) ∧
      (part.foldl (HashScan.step limit) scan).evidence =
        scan.evidence ++ (carriers part).map IrInstruction.address := by
  induction part generalizing scan with
  | nil => simp [carriers]
  | cons ins part ih =>
    rw [List.foldl_cons]
    by_cases hins : carriesConstant ins = true
    · have hsplit : carriers (ins :: part) = ins :: carriers part := List.filter_cons_of_pos hins
      rw [hsplit, List.length_cons] at hfits
      have hroom : ¬ limit ≤ scan.constants.length := by omega
      have hstep : (scan.step limit ins).constants = scan.constants ++ [printed (constantOf ins)] ∧
          (scan.step limit ins).evidence = scan.evidence ++ [ins.address] := by
        simp [HashScan.step, hins, hroom]
      have hrest := ih (scan.step limit ins)
        (by rw [hstep.1, List.length_append, List.length_singleton]; omega)
      rw [hstep.1, hstep.2] at hrest
      rw [hsplit, List.map_cons, List.map_cons]
      simpa only [List.append_assoc, List.singleton_append] using hrest
    · have hsplit : carriers (ins :: part) = carriers part := List.filter_cons_of_neg hins
      have hstep : (scan.step limit ins).constants = scan.constants ∧
          (scan.step limit ins).evidence = scan.evidence := by
        simp [HashScan.step, hins]
      rw [hsplit] at hfits ⊢
      have hrest := ih (scan.step limit ins) (by rw [hstep.1]; exact hfits)
      rwa [hstep.1, hstep.2] at hrest

theorem scanSlice_of_fits (hfits : (carriers part).length ≤ limit) :
    (scanSlice limit part).constants = ((carriers part).map constantOf).map printed ∧
      (scanSlice limit part).evidence = (carriers part).map IrInstruction.address := by
  have h := @foldl_step part limit HashScan.empty (by simpa [HashScan.empty] using hfits)
  rw [scanSlice, List.map_map]
  exact h

/-- What the pass emits for a slice. -/
structure HintOf (part : List IrInstruction) (hint : ObfuscationHintRecord) : Prop where
  kind : hint.candidateKind = "api_hash_candidate"
  context : hasImportResolutionContext hint = true
  description : hint.description = [','].intercalate (((carriers part).map constantOf).map printed)
  evidence : hint.evidence = (carriers part).map IrInstruction.address
  some : carriers part ≠ []

theorem context_of_uncertainty (h : hint.uncertaintyReason = uncertainty.toList) :
    hasImportResolutionContext hint = true := by
  have hfound : contains (toAsciiLowercase uncertainty.toList) "import-resolution" = true := by
    decide
  simp only [hasImportResolutionContext, h, hfound, Bool.true_or]

theorem hintOf_emitted {functions : List FunctionRecord} {ir : List IrInstruction}
    {startIndex : Nat} {before : List FunctionSemanticSlice} {slice : FunctionSemanticSlice}
    (hemits : (apiHashCandidates functions ir limit startIndex (before ++ [slice])).rows =
      (apiHashCandidates functions ir limit startIndex before).rows ++ [hint])
    (hfits : (carriers (slice.part ir)).length ≤ limit) : HintOf (slice.part ir) hint := by
  have hscan := scanSlice_of_fits hfits
  have hnone : ∀ rows : List ObfuscationHintRecord, rows ≠ rows ++ [hint] := by simp
  rw [apiHashCandidates, List.foldl_append, List.foldl_cons, List.foldl_nil, visitSlice] at hemits
  cases hfunction : functions[slice.functionIndex]? with
  | none =>
    rw [hfunction] at hemits
    exact absurd hemits (hnone _)
  | some function =>
    rw [hfunction, Option.elim_some] at hemits
    dsimp only at hemits
    split at hemits
    · rename_i hcond
      have hhint := List.append_cancel_left hemits
      simp only [List.cons.injEq, and_true] at hhint
      subst hhint
      refine ⟨rfl, context_of_uncertainty rfl, by rw [hscan.1], hscan.2, fun hempty => ?_⟩
      simp [hscan.1, hempty] at hcond
    · exact absurd hemits (hnone _)

theorem resolveHash_eq_some {hash : BitVec 32} {resolved : String × Text}
    (h : resolveHash hash seeds = some resolved) :
    resolved.2 ∈ seeds ∧ ∃ f, (resolved.1, f) ∈ algorithms ∧ f (apiName resolved.2) = hash := by
  obtain ⟨s, hs, hfound⟩ := List.exists_of_findSome?_eq_some h
  obtain ⟨a, ha, rfl⟩ := Option.map_eq_some_iff.mp hfound
  obtain ⟨⟨name, f⟩, hf, rfl⟩ := Option.map_eq_some_iff.mp ha
  have hhash := List.find?_some hf
  exact ⟨hs, f, List.mem_of_find?_eq_some hf, by simpa using hhash⟩

theorem resolveHash_eq_none {hash : BitVec 32} (h : resolveHash hash seeds = none) :
    ¬ Known seeds hash.toNat := by
  rintro ⟨symbol, hsymbol, algorithm, ha, heq⟩
  have hnone := List.findSome?_eq_none_iff.mp h symbol hsymbol
  rw [Option.map_eq_none_iff, algorithmFor, Option.map_eq_none_iff, List.find?_eq_none] at hnone
  exact hnone algorithm ha (beq_iff_eq.mpr (BitVec.eq_of_toNat_eq heq))

theorem known_of_resolveHash {hash : BitVec 32} {resolved : String × Text}
    (h : resolveHash hash seeds = some resolved) : Known seeds hash.toNat := by
  obtain ⟨hs, f, hf, heq⟩ := resolveHash_eq_some h
  exact ⟨resolved.2, hs, (resolved.1, f), hf, congrArg BitVec.toNat heq⟩

theorem Known.lt (h : Known seeds n) : n < 2 ^ 32 := by
  obtain ⟨_, _, _, _, rfl⟩ := h
  exact BitVec.isLt _

theorem foldl_visitHash (todo : List IrInstruction) (rows : List ApiHashResolutionRecord) :
    ∃ own, ((todo.map constantOf).filterMap readBack).foldl (visitHash seeds hint) rows =
        rows ++ own ∧
      List.Forall₂ (Resolves seeds hint.evidence.head?) own
        (todo.filter fun ins => Known seeds (constantOf ins)) := by
  induction todo generalizing rows with
  | nil => exact ⟨[], by simp, .nil⟩
  | cons ins todo ih =>
    by_cases hlt : constantOf ins < 2 ^ 32
    · have hread : readBack (constantOf ins) = some (BitVec.ofNat 32 (constantOf ins)) := if_pos hlt
      have hback : (BitVec.ofNat 32 (constantOf ins)).toNat = constantOf ins :=
        (BitVec.toNat_ofNat _ _).trans (Nat.mod_eq_of_lt hlt)
      rw [List.map_cons, List.filterMap_cons_some hread, List.foldl_cons]
      cases hresolve : resolveHash (BitVec.ofNat 32 (constantOf ins)) seeds with
      | none =>
        have hnot := resolveHash_eq_none hresolve
        rw [hback] at hnot
        rw [visitHash, hresolve, Option.elim_none, List.filter_cons_of_neg (by simpa using hnot)]
        exact ih rows
      | some resolved =>
        have hknown := known_of_resolveHash hresolve
        obtain ⟨hseed, f, hf, hhash⟩ := resolveHash_eq_some hresolve
        rw [hback] at hknown
        rw [visitHash, hresolve, Option.elim_some, List.filter_cons_of_pos (by simpa using hknown)]
        let row := resolution hint (BitVec.ofNat 32 (constantOf ins)) resolved rows.length
        have hrow : Resolves seeds hint.evidence.head? row ins :=
          ⟨congrArg (fun n => "0x" ++ upperHex 8 n) hback, hseed,
            ⟨f, hf, (congrArg BitVec.toNat hhash).trans hback⟩, rfl⟩
        obtain ⟨own, hown, hrows⟩ := ih (rows ++ [row])
        exact ⟨row :: own, by rw [hown, List.append_assoc, List.singleton_append],
          .cons hrow hrows⟩
    · have hread : readBack (constantOf ins) = none := if_neg hlt
      have hnot : ¬ Known seeds (constantOf ins) := fun h => hlt h.lt
      rw [List.map_cons, List.filterMap_cons_none hread,
        List.filter_cons_of_neg (by simpa using hnot)]
      exact ih rows

theorem mem_apiSeedSymbols {symbol : Text} {symbols : List Text} (h : symbol ∈ symbols) :
    symbol ∈ apiSeedSymbols symbols := by
  obtain ⟨seed, hseed, hkey⟩ := (SortedMap.exists_mem_ofList id _ symbol).mpr
    ⟨symbol, List.mem_append_left _ h, rfl⟩
  exact hkey ▸ hseed

theorem rows_of_hint (hhint : HintOf part hint) (symbols : List Text)
    (front : List ObfuscationHintRecord) :
    ∃ own, resolveApiHashes (front ++ [hint]) symbols = resolveApiHashes front symbols ++ own ∧
      List.Forall₂ (Resolves (apiSeedSymbols symbols)
        ((carriers part).head?.map IrInstruction.address)) own
        (known (apiSeedSymbols symbols) part) := by
  have hne : (carriers part).map constantOf ≠ [] := fun h => hhint.some (List.map_eq_nil_iff.mp h)
  have hsite : hint.evidence.head? = (carriers part).head?.map IrInstruction.address := by
    rw [hhint.evidence, List.head?_map]
  obtain ⟨own, hown, hrows⟩ := @foldl_visitHash (apiSeedSymbols symbols) hint (carriers part)
    (resolveApiHashes front symbols)
  refine ⟨own, ?_, hsite ▸ hrows⟩
  rw [← hown, resolveApiHashes, List.foldl_append, List.foldl_cons, List.foldl_nil, visitHint,
    if_neg (by simp [hhint.kind, hhint.context]), hhint.description, parseHashes_printed _ hne]
  rfl

theorem sites_iff {site : Option Nat} {rows : List ApiHashResolutionRecord}
    {todo : List IrInstruction} (h : List.Forall₂ (Resolves seeds site) rows todo) :
    List.Forall₂ (fun row ins => Resolves seeds (some ins.address) row ins) rows todo ↔
      ∀ ins ∈ todo, some ins.address = site := by
  induction h with
  | nil => simp
  | cons hrow _ ih =>
    rw [List.forall₂_cons, ih, List.forall_mem_cons]
    constructor
    · rintro ⟨hsite, hrest⟩
      exact ⟨hsite.site.symm.trans hrow.site, hrest⟩
    · rintro ⟨hsite, hrest⟩
      exact ⟨⟨hrow.value, hrow.seed, hrow.hashed, hrow.site.trans hsite.symm⟩, hrest⟩

theorem parsed_of_hint (hhint : HintOf part hint) :
    (parseHashes hint.description).map BitVec.toNat =
      ((carriers part).map constantOf).filter (· < 2 ^ 32) := by
  have hne : (carriers part).map constantOf ≠ [] := fun h => hhint.some (List.map_eq_nil_iff.mp h)
  have hread : ∀ n : Nat, Option.map BitVec.toNat (readBack n) =
      if n < 2 ^ 32 then some n else none := by
    intro n
    rw [readBack]
    split
    · rename_i hlt
      rw [Option.map_some, BitVec.toNat_ofNat, Nat.mod_eq_of_lt hlt]
    · rfl
  rw [hhint.description, parseHashes_printed _ hne, List.map_filterMap, ← List.filterMap_eq_filter]
  refine congrArg (List.filterMap · _) (funext fun n => (hread n).trans ?_)
  simp [Option.guard]

theorem handedOver_iff (hhint : HintOf part hint) (symbols : List Text)
    (front : List ObfuscationHintRecord) :
    HandedOver (apiSeedSymbols symbols) part hint.description (ownRows front hint symbols) ↔
      ∀ ins ∈ known (apiSeedSymbols symbols) part,
        some ins.address = (carriers part).head?.map IrInstruction.address := by
  obtain ⟨own, hown, hrows⟩ := rows_of_hint hhint symbols front
  rw [ownRows, hown, List.drop_left, ← sites_iff hrows]
  exact ⟨fun h => h.rows, fun h => ⟨parsed_of_hint hhint, h⟩⟩

/-- The constants of a hint are handed over exactly when each that is the hash of a name stands
at the address of the first one. -/
theorem constants_handed_over_iff {functions : List FunctionRecord} {ir : List IrInstruction}
    {startIndex : Nat} {before : List FunctionSemanticSlice} {slice : FunctionSemanticSlice}
    (hemits : (apiHashCandidates functions ir limit startIndex (before ++ [slice])).rows =
      (apiHashCandidates functions ir limit startIndex before).rows ++ [hint])
    (hfits : (carriers (slice.part ir)).length ≤ limit) (symbols : List Text)
    (front : List ObfuscationHintRecord) :
    HandedOver (apiSeedSymbols symbols) (slice.part ir) hint.description
        (ownRows front hint symbols) ↔
      ∀ ins ∈ known (apiSeedSymbols symbols) (slice.part ir),
        some ins.address = (carriers (slice.part ir)).head?.map IrInstruction.address :=
  handedOver_iff (hintOf_emitted hemits hfits) symbols front

def sampleInstruction (address : Nat) (mnemonic : String) (immediate : Option Word) :
    IrInstruction where
  address
  size := 4
  mnemonic
  writeReg := none
  readRegs := []
  immediate
  ripTarget := none
  stackSlot := none
  memoryBase := none
  memoryIndex := none
  memoryScale := 1
  memoryDisplacement := 0
  memoryWrite := false
  memoryRead := false
  directTarget := none
  isJump := false

/-- The hash of `A` as the second of two constants. -/
def sampleCode (first second : Word) : List IrInstruction :=
  [sampleInstruction 16 "imul" (some first), sampleInstruction 20 "ror" none,
    sampleInstruction 24 "xor" (some second), sampleInstruction 28 "add" none,
    sampleInstruction 32 "add" none, sampleInstruction 36 "sub" none]

def sampleFunction : FunctionRecord := ⟨16, ["GetProcAddress".toList], []⟩

def sampleSlice : FunctionSemanticSlice :=
  ⟨0, 16, 40, (0, 6), (0, 6), (0, 0), none, false, false⟩

def sampleHint (first second : Word) : ObfuscationHintRecord where
  hintId := "recovered:0000000000000010:api_hash_candidate:0000"
  function := 16
  candidateKind := "api_hash_candidate"
  description := [','].intercalate [printed first.val, printed second.val]
  tags := ["api_hash"]
  confidence := "low"
  evidence := [16, 24]
  uncertaintyReason := uncertainty.toList

theorem first_constant_handed_over :
    HandedOver (apiSeedSymbols ["A".toList]) (sampleCode 0x2B5E6 0x10001)
      (sampleHint 0x2B5E6 0x10001).description
      (ownRows [] (sampleHint 0x2B5E6 0x10001) ["A".toList]) := by
  have hemits : (apiHashCandidates [sampleFunction] (sampleCode 0x2B5E6 0x10001) 32 0
      ([] ++ [sampleSlice])).rows = (apiHashCandidates [sampleFunction]
        (sampleCode 0x2B5E6 0x10001) 32 0 []).rows ++ [sampleHint 0x2B5E6 0x10001] := by decide
  exact (constants_handed_over_iff hemits (by decide) ["A".toList] []).mpr (by decide)

/-- The row of the second constant has the address of the first one. -/
theorem second_constant_misplaced :
    (apiHashCandidates [sampleFunction] (sampleCode 0x10001 0x2B5E6) 32 0 [sampleSlice]).rows =
        [sampleHint 0x10001 0x2B5E6] ∧
      ¬ HandedOver (apiSeedSymbols ["A".toList]) (sampleCode 0x10001 0x2B5E6)
        (sampleHint 0x10001 0x2B5E6).description
        (resolveApiHashes [sampleHint 0x10001 0x2B5E6] ["A".toList]) := by
  have hemits : (apiHashCandidates [sampleFunction] (sampleCode 0x10001 0x2B5E6) 32 0
      ([] ++ [sampleSlice])).rows = (apiHashCandidates [sampleFunction]
        (sampleCode 0x10001 0x2B5E6) 32 0 []).rows ++ [sampleHint 0x10001 0x2B5E6] := by decide
  have hhint : HintOf (sampleCode 0x10001 0x2B5E6) (sampleHint 0x10001 0x2B5E6) :=
    hintOf_emitted hemits (by decide)
  refine ⟨hemits, fun h => ?_⟩
  have hseed : "A".toList ∈ apiSeedSymbols ["A".toList] := mem_apiSeedSymbols (by decide)
  have hknown : sampleInstruction 24 "xor" (some 0x2B5E6) ∈
      known (apiSeedSymbols ["A".toList]) (sampleCode 0x10001 0x2B5E6) := by
    refine List.mem_filter.mpr ⟨by decide, decide_eq_true ?_⟩
    exact ⟨_, hseed, ("djb2", djb2HashName), List.mem_cons_of_mem _ List.mem_cons_self,
      by decide⟩
  exact absurd ((handedOver_iff hhint ["A".toList] []).mp h _ hknown) (by decide)

end Axe.Static.ApiHashes
