import Mathlib.Data.Rat.Defs
import Axe.Concolic.Digits
import Axe.Lib.OrderedMap

/-!
# Evidence for entry points

The candidates are the addresses that were executed in memory that the run allocated. An event
sets its signal on the candidates that there are when it comes in. Decoding an instruction is a
parameter: it gives nothing where the bytes are no instruction.
-/
namespace Axe.Unpack

abbrev Byte := BitVec 8

structure AllocatedRange where
  base : Nat
  size : Nat
  deriving DecidableEq

def saturatingAdd (a b : Nat) : Nat := min (a + b) (2 ^ 64 - 1)

def AllocatedRange.contains (a : AllocatedRange) (va : Nat) : Bool :=
  a.base ≤ va && va < saturatingAdd a.base a.size

structure OepCorroboration where
  entropyDrop : Bool
  executeFromNewlyAllocated : Bool
  functionPrologueMatch : Bool
  iatCallPattern : Bool
  deriving DecidableEq

def OepCorroboration.signalCount (s : OepCorroboration) : Nat :=
  [s.entropyDrop, s.executeFromNewlyAllocated, s.functionPrologueMatch, s.iatCallPattern].count true

def defaultCorroboration : OepCorroboration := ⟨false, false, false, false⟩

structure RegionBuffer where
  vaBase : Nat
  bytes : List Byte
  deriving DecidableEq

inductive Mnemonic
  | call | jmp | other
  deriving DecidableEq

structure Insn where
  len : Nat
  mnemonic : Mnemonic
  op0Memory : Bool
  memoryDisplacement32 : Nat
  deriving DecidableEq

section Disassembly
variable (decode : List Byte → Nat → Option Insn)

def disasmFrom : (count : Nat) → List Byte → (ip : Nat) → List Insn
  | 0, _, _ => []
  | count + 1, bytes, ip =>
    if bytes = [] then []
    else
      match decode bytes ip with
      | none => []
      | some ins => ins :: disasmFrom count (bytes.drop ins.len) ((ip + ins.len) % 2 ^ 64)

def disasmAt (buffer : RegionBuffer) (offset maxInstructions : Nat) : List Insn :=
  if buffer.bytes.length ≤ offset then []
  else disasmFrom decode maxInstructions (buffer.bytes.drop offset)
    ((buffer.vaBase + offset) % 2 ^ 64)

/-- An indirect call or jump over one of the import slots. -/
def Insn.isIatCall (iatRvas : List Nat) (ins : Insn) : Bool :=
  (ins.mnemonic = .call || ins.mnemonic = .jmp) && ins.op0Memory &&
    iatRvas.contains ins.memoryDisplacement32

def iatCallAt (buffer : RegionBuffer) (iatRvas : List Nat) (windowBytes va : Nat) : Bool :=
  (disasmAt decode buffer (va - buffer.vaBase) (windowBytes / 4)).any (Insn.isIatCall iatRvas)

end Disassembly

def looksLikePrologue (bytes : List Byte) : Bool :=
  (4 ≤ bytes.length && bytes.take 4 = [0x55, 0x48, 0x89, 0xE5]) ||
  (4 ≤ bytes.length && bytes.take 3 = [0x48, 0x83, 0xEC]) ||
  (7 ≤ bytes.length && bytes.take 3 = [0x48, 0x81, 0xEC]) ||
  (5 ≤ bytes.length && (bytes[0]? = some 0x53 || bytes[0]? = some 0x56 || bytes[0]? = some 0x57) &&
    (bytes.drop 1).take 3 = [0x48, 0x83, 0xEC]) ||
  (5 ≤ bytes.length && bytes[0]? = some 0x40 && bytes[1]? = some 0x55 &&
    (bytes.drop 2).take 3 = [0x48, 0x89, 0xE5])

namespace RegionBuffer

def holds (buffer : RegionBuffer) (va : Nat) : Bool :=
  buffer.vaBase ≤ va && va < saturatingAdd buffer.vaBase buffer.bytes.length

def prologueAt (buffer : RegionBuffer) (va : Nat) : Bool :=
  let offset := va - buffer.vaBase
  offset < buffer.bytes.length && looksLikePrologue (buffer.bytes.drop offset)

end RegionBuffer

/-- A candidate's signals and its region. -/
abbrev Entry := OepCorroboration × Nat

def setEntropyDrop (entry : Entry) : Entry := ({ entry.1 with entropyDrop := true }, entry.2)

def setExecution (entry : Entry) : Entry :=
  ({ entry.1 with executeFromNewlyAllocated := true }, entry.2)

def setPrologue (entry : Entry) : Entry :=
  ({ entry.1 with functionPrologueMatch := true }, entry.2)

def setIatCall (entry : Entry) : Entry := ({ entry.1 with iatCallPattern := true }, entry.2)

structure OepDetector where
  candidates : OrderedMap Nat Entry
  allocations : List AllocatedRange

namespace OepDetector

def new : OepDetector := ⟨.empty, []⟩

def recordAllocation (d : OepDetector) (base size : Nat) : OepDetector :=
  { d with allocations := d.allocations ++ [⟨base, size⟩] }

def recordExecution (d : OepDetector) (va regionId : Nat) : OepDetector :=
  if !d.allocations.any (·.contains va) then d
  else
    let entry := (d.candidates.get va).getD (defaultCorroboration, regionId)
    { d with candidates := d.candidates.insert va (setExecution entry) }

def recordEntropyDrop (d : OepDetector) (regionId : Nat) : OepDetector :=
  { d with
    candidates := d.candidates.mapValues fun entry =>
      if entry.2 = regionId then setEntropyDrop entry else entry }

def candidateVas (d : OepDetector) (buffer : RegionBuffer) : List Nat :=
  (d.candidates.rows.map Prod.fst).filter buffer.holds

def scanForFunctionPrologues (d : OepDetector) (buffer : RegionBuffer) : OepDetector :=
  { d with
    candidates := (d.candidateVas buffer).foldl (fun candidates va =>
      if buffer.prologueAt va then candidates.modify va setPrologue else candidates) d.candidates }

def scanForIatCalls (decode : List Byte → Nat → Option Insn) (d : OepDetector)
    (buffer : RegionBuffer) (iatRvas : List Nat) (windowBytes : Nat) : OepDetector :=
  { d with
    candidates := (d.candidateVas buffer).foldl (fun candidates va =>
      if iatCallAt decode buffer iatRvas windowBytes va then candidates.modify va setIatCall
      else candidates) d.candidates }

end OepDetector

structure OepCandidate where
  va : String
  regionId : Nat
  corroboration : OepCorroboration
  confidenceScore : Rat
  confidenceTier : String
  deriving DecidableEq

def tierForScore (score : Rat) : String :=
  if 3 / 4 ≤ score then "high" else if 1 / 2 ≤ score then "medium" else "best_effort"

def formatVa (va : Nat) : String :=
  let digits := Nat.toDigits 16 va
  String.ofList ('0' :: 'x' :: (List.replicate (16 - digits.length) '0' ++ digits))

/-- The scores are quarters, which floating point numbers are exact on. -/
def manifestOep (row : Nat × Entry) : OepCandidate :=
  let score : Rat := row.2.1.signalCount / 4
  ⟨formatVa row.1, row.2.2, row.2.1, score, tierForScore score⟩

/-- Candidates with one score stay in the order of their addresses. -/
def OepDetector.scoreAll (d : OepDetector) : List OepCandidate :=
  (d.candidates.rows.map manifestOep).mergeSort fun a b => b.confidenceScore ≤ a.confidenceScore

inductive Event
  | allocation (base size : Nat)
  | execution (va regionId : Nat)
  | entropyDrop (regionId : Nat)
  | prologueScan (buffer : RegionBuffer)
  | iatScan (buffer : RegionBuffer) (iatRvas : List Nat) (windowBytes : Nat)
  deriving DecidableEq

def OepDetector.step (decode : List Byte → Nat → Option Insn) (d : OepDetector) :
    Event → OepDetector
  | .allocation base size => d.recordAllocation base size
  | .execution va regionId => d.recordExecution va regionId
  | .entropyDrop regionId => d.recordEntropyDrop regionId
  | .prologueScan buffer => d.scanForFunctionPrologues buffer
  | .iatScan buffer iatRvas windowBytes => d.scanForIatCalls decode buffer iatRvas windowBytes

def run (decode : List Byte → Nat → Option Insn) (events : List Event) : OepDetector :=
  events.foldl (·.step decode) .new

end Axe.Unpack
