import Axe.Concolic.Backend
import Axe.Concolic.ByteComparisons
import Axe.Concolic.ConcolicSession
import Axe.Concolic.ConcolicSessionRuns
import Axe.Concolic.Digits
import Axe.Concolic.Expr
import Axe.Concolic.InputReads
import Axe.Concolic.Interning
import Axe.Concolic.Ladder
import Axe.Concolic.LadderModels
import Axe.Concolic.Lowering
import Axe.Concolic.LoweringMeaning
import Axe.Concolic.LoweringText
import Axe.Concolic.ModelText
import Axe.Concolic.ModelTextReads
import Axe.Concolic.OperandGrammar
import Axe.Concolic.OperandParser
import Axe.Concolic.PureRust
import Axe.Concolic.Scheduler
import Axe.Concolic.SchedulerRuns
import Axe.Concolic.Semantics
import Axe.Concolic.ShadowArith
import Axe.Concolic.ShadowEffects
import Axe.Concolic.ShadowEmulator
import Axe.Concolic.ShadowFlags
import Axe.Concolic.ShadowRuns
import Axe.Concolic.ShadowSorts
import Axe.Concolic.ShadowState
import Axe.Concolic.ShadowTerms
import Axe.Concolic.ShadowValues
import Axe.Concolic.Sharing
import Axe.Concolic.Slicer
import Axe.Concolic.Smt2Backend
import Axe.Concolic.Smt2Emit
import Axe.Concolic.Smt2Meaning
import Axe.Concolic.SortedRuns
import Axe.Concolic.StoreLoad
import Axe.Concolic.UnknownOperands
import Axe.Concolic.UnsatCore
import Axe.Concolic.Validate
import Axe.Cpp.ClassMerge
import Axe.Cpp.Thunks
import Axe.Cpp.VirtualCalls
import Axe.Cpp.VtableScan
import Axe.Decompiler.Substitution
import Axe.Decompiler.TypeRecovery
import Axe.Disk.ArchiveExtract
import Axe.Disk.AtomicWriter
import Axe.Disk.ExtractionRuns
import Axe.Eh.Fh3
import Axe.Eh.Seh
import Axe.Facts.Confidence
import Axe.Fuzzer.Bridge
import Axe.Fuzzer.Corpus
import Axe.Fuzzer.Coverage
import Axe.Fuzzer.FindingWriter
import Axe.Fuzzer.Interleaving
import Axe.Fuzzer.MutatorRuns
import Axe.Fuzzer.Mutators
import Axe.Fuzzer.PowerSchedule
import Axe.Fuzzer.Reachability
import Axe.Fuzzer.Session
import Axe.Fuzzer.SessionRuns
import Axe.Fuzzer.StagingRuns
import Axe.Fuzzer.Symbols
import Axe.Lib.BitFields
import Axe.Lib.Checked
import Axe.Lib.Conditions
import Axe.Lib.DagFold
import Axe.Lib.Dijkstra
import Axe.Lib.Dominance
import Axe.Lib.DominatorSets
import Axe.Lib.Exact
import Axe.Lib.FileTree
import Axe.Lib.Journal
import Axe.Lib.LastPosition
import Axe.Lib.Loops
import Axe.Lib.MaximalRuns
import Axe.Lib.OrderedMap
import Axe.Lib.Relaxation
import Axe.Lib.Runs
import Axe.Lib.Saturation
import Axe.Lib.Separators
import Axe.Lib.Smt
import Axe.Lib.SmtScript
import Axe.Lib.SortedMap
import Axe.Lib.SortedSlices
import Axe.Lib.StableSort
import Axe.Lib.Stateful
import Axe.Lib.Sweep
import Axe.Lib.Tables
import Axe.Lib.Tiling
import Axe.Lib.Traversal
import Axe.Lib.X86
import Axe.Native.Emulator
import Axe.Native.Solver
import Axe.Native.SolverModels
import Axe.Native.SolverRuns
import Axe.Pe.AddressMaps
import Axe.Pe.Bytes
import Axe.Pe.Image
import Axe.Pe.Parse
import Axe.Pe.Rtti
import Axe.Pe.RttiReads
import Axe.Pe.Snapshot
import Axe.Pe.Totality
import Axe.Scan.FolderScan
import Axe.Scan.ScanRuns
import Axe.Static.AbstractValues
import Axe.Static.ApiHashes
import Axe.Static.Blocks
import Axe.Static.BranchRanges
import Axe.Static.BuildId
import Axe.Static.Cfg
import Axe.Static.CompareTrees
import Axe.Static.ControlFlow
import Axe.Static.Diff
import Axe.Static.DisasmRanges
import Axe.Static.Disassembly
import Axe.Static.EdgeRefinement
import Axe.Static.FileSections
import Axe.Static.Fingerprints
import Axe.Static.Functions
import Axe.Static.Idoms
import Axe.Static.Image
import Axe.Static.ImportCalls
import Axe.Static.IndirectTargets
import Axe.Static.Ir
import Axe.Static.JumpTables
import Axe.Static.Lifting
import Axe.Static.RangeGuards
import Axe.Static.SecondPass
import Axe.Static.SemanticIndex
import Axe.Static.Ssa
import Axe.Static.SsaForm
import Axe.Static.Structured
import Axe.Static.Switches
import Axe.Static.ValueJoins
import Axe.Static.Vsa
import Axe.Static.VsaRuns
import Axe.Static.Wrappers
import Axe.Strings.Extraction
import Axe.Strings.StackStrings
import Axe.Trace.BehaviorFacts
import Axe.Trace.Edges
import Axe.Trace.Event
import Axe.Trace.Session
import Axe.Trace.SessionRuns
import Axe.Trace.Symbolicate
import Axe.Unpack.Breakpoints
import Axe.Unpack.EventOrder
import Axe.Unpack.OepDetector
import Axe.Unpack.Spawn
import Axe.Vuln.Alias
import Axe.Vuln.CallDistance
import Axe.Vuln.Catalog
import Axe.Vuln.Chains
import Axe.Vuln.Confirmation
import Axe.Vuln.ConfirmationRuns
import Axe.Vuln.Dominators
import Axe.Vuln.FindingStore
import Axe.Vuln.Graph
import Axe.Vuln.GraphBuilder
import Axe.Vuln.GraphControlFlow
import Axe.Vuln.Locality
import Axe.Vuln.Query
import Axe.Vuln.Summaries
import Axe.Vuln.SummaryClosure
import Axe.Vuln.Taint
import Axe.Vuln.TaintFixpoint
import Axe.Vuln.TaintRuns
