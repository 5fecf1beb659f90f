import Mathlib.Logic.Basic

/-!
# Events of a dynamic trace

The fields of an event that its consumers read: the detectors of behaviour, the entity graph and
the map of loaded modules.
-/
namespace Axe.Trace

inductive EventType
  | processStart | processExit | threadStart | threadExit
  | imageLoad | imageUnload
  | fileOpen | fileRead | fileWrite | fileDelete | fileRename
  | registryRead | registryWrite | registryDelete
  | networkConnect | networkAccept | networkSend | networkRecv | networkDisconnect
  | dnsQuery | dnsResponse
  deriving DecidableEq

inductive EntityKind
  | process | thread | module | file | registry | socket | dns
  deriving DecidableEq

/-- The name of a kind in lower case. -/
def EntityKind.name : EntityKind → String
  | .process => "process"
  | .thread => "thread"
  | .module => "module"
  | .file => "file"
  | .registry => "registry"
  | .socket => "socket"
  | .dns => "dns"

structure EntityRef where
  kind : EntityKind
  id : String
  name : Option String
  deriving DecidableEq

/-- An argument of an event, as far as it is read. -/
inductive ArgValue
  | text (s : String)
  | number (n : BitVec 64)
  | other
  deriving DecidableEq

namespace ArgValue

def asStr : ArgValue → Option String
  | .text s => some s
  | .number _ | .other => none

def asU64 : ArgValue → Option (BitVec 64)
  | .number n => some n
  | .text _ | .other => none

end ArgValue

structure TraceEvent where
  eventId : String
  tsNs : BitVec 64
  pid : BitVec 32
  processImage : Option String
  eventType : EventType
  operation : String
  subject : EntityRef
  object : Option EntityRef
  args : List (String × ArgValue)
  deriving DecidableEq

/-- The value of an argument. -/
def TraceEvent.arg (event : TraceEvent) (name : String) : Option ArgValue := event.args.lookup name

end Axe.Trace
