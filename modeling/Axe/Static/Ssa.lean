import Axe.Static.AbstractValues

/-!
# Static single assignment of a function

The instructions of a function are read in their order. Every write makes a new version of its
storage, and a block with several predecessors first joins the versions that leave them. A version
has 32 bits; it is counted without the width here, since no version is above the number of values.
-/
namespace Axe.Static

inductive StorageKind
  | register | stackSlot | memory | flag
  deriving DecidableEq

/-- What defines a value. No instruction has the name of a join. -/
inductive ValueSource
  | phi
  | store
  | instruction (mnemonic : String)
  deriving DecidableEq

inductive EdgeKind
  | useDef | memoryStore | phi
  deriving DecidableEq

structure SsaValueRecord where
  ssaId : String
  function : Nat
  block : Option Nat
  siteVa : Nat
  storage : String
  version : Nat
  kind : StorageKind
  source : ValueSource
  value : Option String
  evidence : List Nat
  confidence : Confidence
  deriving DecidableEq

structure DataflowEdgeRecord where
  edgeId : String
  function : Nat
  fromValue : Option String
  toValue : String
  fromVa : Option Nat
  toVa : Nat
  fromStorage : Option String
  toStorage : String
  edgeKind : EdgeKind
  evidence : List Nat
  deriving DecidableEq

structure CurrentDef where
  id : String
  siteVa : Nat
  storage : String
  deriving DecidableEq

abbrev Defs := OrderedMap String CurrentDef

structure StorageWrite where
  storage : String
  kind : StorageKind
  source : ValueSource
  deriving DecidableEq

def writeStorages (ins : IrInstruction) : List StorageWrite :=
  (ins.writeReg.map fun reg => ⟨reg, .register, .instruction ins.mnemonic⟩).toList ++
    (if ins.memoryWrite then
      (ins.stackSlot.map fun slot =>
        ⟨stackStorage slot, .stackSlot, .instruction ins.mnemonic⟩).toList ++
      [⟨"mem", .memory, .store⟩] else []) ++
    if ["cmp", "test", "sub", "add", "and", "or", "xor"].contains ins.mnemonic then
      ["zf", "sf", "of", "cf"].map fun flag => ⟨flag, .flag, .instruction ins.mnemonic⟩
    else []

def readStorages (ins : IrInstruction) : List String :=
  sortDedup <| ins.readRegs ++
    if ins.memoryRead then (ins.stackSlot.map stackStorage).toList else []

def constantValue (ins : IrInstruction) : Option String :=
  if ["mov", "movabs", "lea"].contains ins.mnemonic then
    (ins.ripTarget.or ins.immediate).map valueText
  else none

def kindForStorage (storage : String) : StorageKind :=
  if storage = "mem" then .memory
  else if storage.startsWith "stack[" then .stackSlot
  else if ["zf", "sf", "of", "cf", "pf", "af"].contains storage then .flag
  else .register

/-- The blocks before the starts that more than one block leads to. -/
def predecessorBlocksByJoin (cfg : Option CfgRecord) : OrderedMap Nat (List Nat) :=
  let incoming := cfg.elim OrderedMap.empty predecessorsByBlock
  ⟨incoming.rows.filter fun row => 1 < row.2.length, incoming.sorted.filter⟩

def blockFor (cfg : Option CfgRecord) (address : Nat) : Option Nat :=
  cfg.bind fun cfg => blockForCfg cfg address

def ssaId (function : Nat) (storage : String) (version index : Nat) : String :=
  "ssa:" ++ upperHex 16 function ++ ":" ++ storage ++ ":v" ++ toString version ++ ":" ++
    toString index

def dataflowId (function index : Nat) (value : String) : String :=
  "df:" ++ upperHex 16 function ++ ":" ++ toString index ++ ":" ++ value

/-- The values so far, with the last version and definition of each storage. -/
structure SsaState where
  values : List SsaValueRecord
  edges : List DataflowEdgeRecord
  versions : OrderedMap String Nat
  current : Defs
  emitted : Nat

/-- A definition: where it is, what it defines and what it is made from. -/
structure Definition where
  block : Option Nat
  siteVa : Nat
  write : StorageWrite
  value : Option String
  inputs : List CurrentDef
  edgeKind : EdgeKind

def newValue (function : Nat) (d : Definition) (versions : OrderedMap String Nat) (index : Nat) :
    SsaValueRecord :=
  let version := (versions.get d.write.storage).getD 0 + 1
  { ssaId := ssaId function d.write.storage version index
    function := function
    block := d.block
    siteVa := d.siteVa
    storage := d.write.storage
    version := version
    kind := d.write.kind
    source := d.write.source
    value := d.value
    evidence := sortDedup (d.inputs.map CurrentDef.siteVa ++ [d.siteVa])
    confidence := if d.write.source = .phi then .medium else .high }

def newEdge (function : Nat) (value : SsaValueRecord) (kind : EdgeKind) (index : Nat)
    (input : CurrentDef) : DataflowEdgeRecord :=
  { edgeId := dataflowId function index value.ssaId
    function := function
    fromValue := some input.id
    toValue := value.ssaId
    fromVa := some input.siteVa
    toVa := value.siteVa
    fromStorage := some input.storage
    toStorage := value.storage
    edgeKind := kind
    evidence := [input.siteVa, value.siteVa] }

/-- A value is added with an edge from each input and becomes the current definition. -/
def define (function : Nat) (d : Definition) (s : SsaState) : SsaState :=
  let value := newValue function d s.versions s.values.length
  { values := s.values ++ [value]
    edges := s.edges ++ (d.inputs.zipIdx s.edges.length).map fun input =>
      newEdge function value d.edgeKind input.2 input.1
    versions := s.versions.insert value.storage value.version
    current := s.current.insert value.storage ⟨value.ssaId, value.siteVa, value.storage⟩
    emitted := s.emitted + 1 }

/-- The definitions of a storage that leave the predecessors. -/
def incomingDefs (outDefs : OrderedMap Nat Defs) (predecessors : List Nat) (storage : String) :
    List CurrentDef :=
  predecessors.filterMap fun block => (outDefs.get block).bind fun defs => defs.get storage

def joinedStorages (outDefs : OrderedMap Nat Defs) (predecessors : List Nat) : List String :=
  sortDedup <| predecessors.flatMap fun block =>
    ((outDefs.get block).elim [] fun defs => defs.rows.map Prod.fst)

def joinStorage (function block : Nat) (incoming : List CurrentDef) (storage : String)
    (s : SsaState) : SsaState :=
  if incoming.length < 2 || (sortDedup (incoming.map CurrentDef.id)).length < 2 then s
  else define function
    { block := some block, siteVa := block
      write := ⟨storage, kindForStorage storage, .phi⟩
      value := none, inputs := incoming, edgeKind := .phi } s

/-- What a function is brought into this form with. -/
structure SsaTask where
  function : Nat
  ir : List IrInstruction
  cfg : Option CfgRecord
  perFunctionCap : Nat

structure SliceState where
  built : SsaState
  outDefs : OrderedMap Nat Defs
  emittedJoinPhis : List Nat
  capsHit : Bool

namespace SsaTask

variable (task : SsaTask)

/-- A storage is joined unless the cap is reached. -/
def emitJoinPhi (block : Nat) (predecessors : List Nat) (outDefs : OrderedMap Nat Defs)
    (s : SsaState) (storage : String) : SsaState :=
  if task.perFunctionCap ≤ s.emitted then s
  else joinStorage task.function block (incomingDefs outDefs predecessors storage) storage s

def emitJoinPhis (block : Nat) (predecessors : List Nat) (outDefs : OrderedMap Nat Defs)
    (s : SsaState) : SsaState :=
  (joinedStorages outDefs predecessors).foldl (task.emitJoinPhi block predecessors outDefs) s

/-- The joins at the first instruction of a block. -/
def enterBlock (block : Option Nat) (s : SliceState) : SliceState :=
  match block with
  | none => s
  | some block =>
    if s.emittedJoinPhis.contains block then s
    else
      { s with
        emittedJoinPhis := block :: s.emittedJoinPhis
        built := ((predecessorBlocksByJoin task.cfg).get block).elim s.built fun predecessors =>
          task.emitJoinPhis block predecessors s.outDefs s.built }

/-- The definitions that an instruction reads, those of memory last. -/
def inputDefs (ins : IrInstruction) (current : Defs) : List CurrentDef :=
  (readStorages ins).filterMap current.get ++
    if ins.memoryRead then (current.get "mem").toList else []

def writeDefinition (ins : IrInstruction) (inputs : List CurrentDef) (write : StorageWrite) :
    Definition :=
  { block := blockFor task.cfg ins.address
    siteVa := ins.address
    write := write
    value := constantValue ins
    inputs := inputs
    edgeKind := if write.kind = .memory then .memoryStore else .useDef }

/-- The writes of an instruction, cut off where the cap is reached. -/
def writeAll (ins : IrInstruction) (inputs : List CurrentDef) :
    List StorageWrite → SsaState × Bool → SsaState × Bool
  | [], s => s
  | write :: rest, (s, capsHit) =>
    if task.perFunctionCap ≤ s.emitted then (s, true)
    else writeAll ins inputs rest
      (define task.function (task.writeDefinition ins inputs write) s, capsHit)

def leaveBlock (block : Option Nat) (s : SliceState) : SliceState :=
  block.elim s fun block => { s with outDefs := s.outDefs.insert block s.built.current }

def processInstruction (ins : IrInstruction) (s : SliceState) : SliceState :=
  let written := task.writeAll ins (inputDefs ins s.built.current) (writeStorages ins)
    (s.built, s.capsHit)
  leaveBlock (blockFor task.cfg ins.address) { s with built := written.1, capsHit := written.2 }

/-- The cap is looked at before every instruction and after the joins before it. -/
def processInstructions : List IrInstruction → SliceState → SliceState
  | [], s => s
  | ins :: rest, s =>
    if task.perFunctionCap ≤ s.built.emitted then { s with capsHit := true }
    else
      let entered := task.enterBlock (blockFor task.cfg ins.address) s
      if task.perFunctionCap ≤ entered.built.emitted then { entered with capsHit := true }
      else processInstructions rest (task.processInstruction ins entered)

def startState : SliceState :=
  { built := { values := [], edges := [], versions := .empty, current := .empty, emitted := 0 }
    outDefs := .empty
    emittedJoinPhis := []
    capsHit := false }

def processFunctionSlice : List SsaValueRecord × List DataflowEdgeRecord × Bool :=
  let s := task.processInstructions task.ir startState
  (s.built.values, s.built.edges, s.capsHit)

end SsaTask
end Axe.Static
