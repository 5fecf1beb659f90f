import Axe.Concolic.Smt2Emit
import Axe.Concolic.ModelText

/-!
# Reading the reply of an external solver

`parse_z3_response` goes through the lines of the reply for the first verdict and for errors. A
verdict `unsat` counts when one line lists the names of a core and no line is an error. Texts are
lists of characters, an elapsed time is a number of nanoseconds.
-/
namespace Axe.Concolic

def backendName : String := "z3_external_smt2"

def statusWords : List (List Char) :=
  ["sat".toList, "unsat".toList, "unknown".toList, "timeout".toList]

def isErrorLine (line : List Char) : Bool := ("(error".toList.isPrefixOf? line).isSome

/-- The first verdict so far, and whether an error was seen. -/
structure ReplyScan where
  statusLine : Option (List Char)
  errorSeen : Bool
  deriving DecidableEq

/-- One line, with the white space around it gone. -/
def scanLine (scan : ReplyScan) (line : List Char) : ReplyScan :=
  if line = [] ∨ line.head? = some ';' then scan
  else if isErrorLine line then { scan with errorSeen := true }
  else if scan.statusLine = none ∧ line ∈ statusWords then { scan with statusLine := some line }
  else scan

/-- `str::split_whitespace`. -/
def splitWhitespace (s : List Char) : List (List Char) :=
  (splitBreaks isWhiteSpace s).filter (· ≠ [])

/-- The names on a line in parentheses, all of which start with `c_`. -/
def coreNames (line : List Char) : Option (List (List Char)) :=
  match line with
  | '(' :: rest =>
    if rest.getLast? = some ')' then
      let tokens := splitWhitespace rest.dropLast
      if tokens ≠ [] ∧ tokens.all fun t => ("c_".toList.isPrefixOf? t).isSome then some tokens
      else none
    else none
  | _ => none

/-- The first line of names in a text. -/
def firstCore (s : List Char) : Option (List (List Char)) :=
  (strLines s).findSome? fun raw => coreNames (trim raw)

def parseUnsatCore (stdout : List Char) : List (List Char) := (firstCore stdout).getD []

/-- The node that a name stands for. -/
def lookupName (nameMap : List (String × NodeId)) (name : List Char) : Option NodeId :=
  (nameMap.find? fun p => p.1.toList = name).map Prod.snd

def undecided (status : SolveStatus) (timeMs : Nat) (smt2 reason : String) : SolveReport :=
  ⟨status, timeMs, none, smt2, some reason, [], false, backendName⟩

def parseZ3Response (stdout : List Char) (elapsed : Nat) (emitted : EmittedQuery)
    (query : BranchQuery) : SolveReport :=
  let timeMs := elapsed / 10 ^ 6 % 2 ^ 64
  let scan := (strLines stdout).foldl (fun scan raw => scanLine scan (trim raw)) ⟨none, false⟩
  match scan.statusLine with
  | none => undecided .unknown timeMs emitted.smt2 "z3_external_no_status_line"
  | some word =>
    match String.ofList word with
    | "sat" =>
      ⟨.sat, timeMs, some (parseModelInputBytes stdout query.inputBytes), emitted.smt2, none, [],
        false, backendName⟩
    | "unsat" =>
      let names := parseUnsatCore stdout
      let unsatCore := names.filterMap (lookupName emitted.nameMap)
      let coreWasReturned := !names.isEmpty && !scan.errorSeen
      if coreWasReturned then
        ⟨.unsat, timeMs, none, emitted.smt2, none, unsatCore, true, backendName⟩
      else undecided .unknown timeMs emitted.smt2 "external_unsat_without_core"
    | "unknown" => undecided .unknown timeMs emitted.smt2 "z3_external_unknown"
    | "timeout" => undecided .timeout timeMs emitted.smt2 "z3_external_timeout"
    | other =>
      undecided .unknown timeMs emitted.smt2 ("z3_external_unexpected_status: " ++ other)

/-- A list of names in parentheses, each with the white space in front of it. -/
structure CoreAnswer (nameMap : List (String × NodeId)) where
  entries : List (List Blank × String)
  closing : List Blank
  nonempty : entries ≠ []
  known : ∀ e ∈ entries, e.2 ∈ nameMap.map Prod.fst
  separated : ∀ e ∈ entries.tail, e.1 ≠ []

variable {nameMap : List (String × NodeId)}

def CoreAnswer.names (core : CoreAnswer nameMap) : List String := core.entries.map Prod.snd

def blanks (bs : List Blank) : List Char := bs.map Subtype.val

def CoreAnswer.text (core : CoreAnswer nameMap) : List Char :=
  '(' :: core.entries.flatMap (fun e => blanks e.1 ++ e.2.toList) ++ blanks core.closing ++ [')']

/-- The verdict, an answer to `get-model` and the core, each on lines of their own. -/
def unsatReply (answer : List Char) (core : CoreAnswer nameMap) : List Char :=
  "unsat".toList ++ '\n' :: (answer ++ '\n' :: (core.text ++ ['\n']))

/-- The report is `unsat` with the nodes that the names of the core stand for. -/
def ReadsCore (nameMap : List (String × NodeId)) (names : List String) (report : SolveReport) :
    Prop :=
  report.status = .unsat ∧ report.unsatAssumptionsReturned = true ∧
    List.Forall₂ (fun name id => (name, id) ∈ nameMap) names report.unsatCore

/-- No line of the answer is taken for an error, and the first line that is taken for a core has
the nodes of this one. -/
def Undisturbed (answer : List Char) (core : CoreAnswer nameMap) : Prop :=
  (∀ line ∈ strLines answer, isErrorLine (trim line) = false) ∧
    match firstCore answer with
    | some names => names.filterMap (lookupName nameMap) =
        core.names.filterMap fun name => lookupName nameMap name.toList
    | none => '\n' ∉ core.text

end Axe.Concolic
