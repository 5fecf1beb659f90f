import Axe.Vuln.Graph

/-!
# The catalogs and the templates

A catalog matches an API by a substring in lower case. How the standard library lowers
a text is a parameter of the lookups.
-/
namespace Axe.Vuln

inductive TrustBoundary where
  | remoteUnauth | remoteAuth | localUnprivileged | localPrivileged | configFile
  | pluginInput | internalOnly
  deriving DecidableEq

/-- The weight in hundredths. -/
def TrustBoundary.weight : TrustBoundary → Nat
  | remoteUnauth => 100
  | remoteAuth => 80
  | localUnprivileged => 60
  | pluginInput => 55
  | localPrivileged => 40
  | configFile => 30
  | internalOnly => 0

structure Source where
  kind : String
  trust : TrustBoundary
  apis : List String

inductive ArgRole where
  | destination | source | byteCount | size | pointer | flags | formatString | path
  | handle | other
  deriving DecidableEq

structure Sink where
  api : String
  args : List ArgRole

def contains (text pattern : String) : Bool := pattern.toList <:+: text.toList

section Lookups
variable (toLowercase : String → String)

/-- The most trusted of the sources that match, and the first of these. -/
def matchApi (sources : List Source) (api : String) : Option Source :=
  sources.foldl (fun best s =>
    if s.apis.any fun name => contains (toLowercase api) (toLowercase name) then
      match best with
      | some b => if b.trust.weight < s.trust.weight then some s else some b
      | none => some s
    else best) none

/-- The last of the longest sinks that match. -/
def lookupSink (sinks : List Sink) (name : String) : Option Sink :=
  (sinks.filter fun s => contains (toLowercase name) (toLowercase s.api)).foldl (fun best s =>
    match best with
    | some b => if s.api.utf8ByteSize < b.api.utf8ByteSize then some b else some s
    | none => some s) none

end Lookups

inductive SinkArgRequirement where
  | taintedArgRole (role : ArgRole)
  | destSizeKnownByteCountUnbounded
  | precedingTaintedWrite
  | anyCall
  deriving DecidableEq

inductive GuardRequirement where
  | dominatingGuardPresent | noDominatingGuard | dontCare
  deriving DecidableEq

inductive IntegerPatternRequirement where
  | overflowPossible | signedUnsignedCast | dontCare
  deriving DecidableEq

structure BugClass where
  id : String
  sourceKinds : List String
  sinkApis : List String
  sinkRequirement : SinkArgRequirement
  guardRequirement : GuardRequirement
  integerPattern : IntegerPatternRequirement
  deriving DecidableEq

end Axe.Vuln
