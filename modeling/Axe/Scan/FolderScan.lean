import Axe.Lib.Runs
import Axe.Pe.Bytes

/-!
# Scanning a folder for binaries

The files of a folder are put into a queue, the largest is taken first, an archive is unpacked and
its files are put into the queue as well, and a binary becomes a sample or another path of the
sample of its hash. No call of the system fails. An archive is unpacked into a directory of its
own, which stands here under the bytes of the archive; what the archive crates put there is a
parameter. Left out are the analysis of the samples and the files the scan writes.
-/
namespace Axe.Scan

open Runs Axe.Pe

abbrev Name := List Char

abbrev Bytes := List UInt8

inductive Tree where
  | file (bytes : Bytes)
  | dir (names : List Name) (child : Name → Tree)
  /-- A link or a device. -/
  | other

/-- The files that a walk of bounded depth comes to. -/
def Tree.walk : Nat → Tree → List (List Name)
  | _, .file _ => [[]]
  | _, .other => []
  | 0, .dir _ _ => []
  | depth + 1, .dir names child =>
    names.flatMap fun name => ((child name).walk depth).map (name :: ·)

def Tree.read : Tree → List Name → Bytes
  | .file bytes, [] => bytes
  | .dir _ child, name :: rest => (child name).read rest
  | _, _ => []

inductive ScanPath where
  | root (path : List Name)
  | extracted (archive : Bytes) (path : List Name)
  deriving DecidableEq

inductive ArchiveFormat where
  | zip | sevenZ | rar | tar | tarGz
  deriving DecidableEq

inductive Classification where
  | pe | elf | machO | archive | other
  deriving DecidableEq

def Classification.IsBinary (c : Classification) : Prop := c = .pe ∨ c = .elf ∨ c = .machO

/-- The folder, the name of its root, and what the archive crates do: the files they unpack, and
what is in each; an archive they skip has none. -/
structure Folder where
  rootName : Name
  tree : Tree
  unpack : ArchiveFormat → Bytes → Option (List (List Name))
  unpacked : Bytes → List Name → Bytes

structure ScanOptions where
  maxDepth : Nat
  maxFiles : Nat
  maxBytes : Nat
  singleFileByteLimit : Nat
  noExtractArchives : Bool
  archiveDepth : Nat

/-- What follows the last dot of a name, unless that dot is its first character. -/
def extension (name : Name) : Option Name :=
  if name = ['.', '.'] then none
  else
    let after := (name.reverse.takeWhile (· ≠ '.')).reverse
    if name.length ≤ after.length + 1 then none else some after

def peExtensions : List String :=
  [".exe", ".dll", ".sys", ".ocx", ".cpl", ".scr", ".drv", ".efi", ".mui"]

def detectFormat (bytes : Bytes) : Option Classification :=
  if [0x4D, 0x5A] <+: bytes then some .pe
  else if [0x7F, 0x45, 0x4C, 0x46] <+: bytes then some .elf
  else if 4 ≤ bytes.length ∧ fromLeBytes (bytes.take 4) ∈
      [0xFEEDFACE, 0xFEEDFACF, 0xCEFAEDFE, 0xCFFAEDFE, 0xCAFEBABE, 0xBEBAFECA] then some .machO
  else none

def detectFromMagic (bytes : Bytes) : Option ArchiveFormat :=
  if [0x50, 0x4B, 0x03, 0x04] <+: bytes ∨ [0x50, 0x4B, 0x05, 0x06] <+: bytes then some .zip
  else if [0x37, 0x7A, 0xBC, 0xAF, 0x27, 0x1C] <+: bytes then some .sevenZ
  else if [0x52, 0x61, 0x72, 0x21, 0x1A, 0x07] <+: bytes then some .rar
  else if [0x1F, 0x8B] <+: bytes then some .tarGz
  else none

namespace Folder

variable (folder : Folder)

def read : ScanPath → Bytes
  | .root path => folder.tree.read path
  | .extracted archive path => folder.unpacked archive path

def fileName : ScanPath → Name
  | .root path => path.getLastD folder.rootName
  | .extracted _ path => path.getLastD []

/-- The extension of a path in lower case. -/
def lowerExtension (path : ScanPath) : Option String :=
  (extension (folder.fileName path)).map fun ext => String.ofList (ext.map Char.toLower)

def detectArchiveFormat (path : ScanPath) : Option ArchiveFormat :=
  match folder.lowerExtension path with
  | some "zip" | some "jar" | some "apk" => some .zip
  | some "7z" => some .sevenZ
  | some "rar" => some .rar
  | some "tar" => some .tar
  | some "gz" | some "tgz" => some .tarGz
  | _ => detectFromMagic (folder.read path)

def classify (path : ScanPath) : Classification :=
  match detectFormat (folder.read path) with
  | some format => format
  | none =>
    if (folder.detectArchiveFormat path).isSome then .archive
    else
      match folder.lowerExtension path with
      | some ext => if "." ++ ext ∈ peExtensions then .pe else .other
      | none => .other

/-- The files of an archive, or none where it is skipped. -/
def extractArchive (path : ScanPath) : Option (List (List Name)) :=
  match folder.detectArchiveFormat path with
  | none | some .rar => none
  | some format => folder.unpack format (folder.read path)

end Folder

structure QueueItem (Hash : Type) where
  path : ScanPath
  size : Nat
  extractedFrom : Option Hash
  archiveDepthRemaining : Nat
  deriving DecidableEq

structure SampleEntry (Hash : Type) where
  sha256 : Hash
  paths : List ScanPath
  format : Classification
  sizeBytes : Nat
  extractedFrom : Option Hash

structure SkippedEntry where
  path : ScanPath
  reason : String

/-- The files that a loop still has to look at, those of the folder or of one archive. -/
structure Batch (Hash : Type) where
  files : List ScanPath
  extractedFrom : Option Hash
  depth : Nat

/-- `limitHit` records that `maxFiles` or `maxBytes` kept a file out. -/
structure ScanState (Hash : Type) where
  batch : Batch Hash
  queue : List (QueueItem Hash)
  enqueuedPaths : List ScanPath
  totalBytesEnqueued : Nat
  skipped : List SkippedEntry
  samples : List (SampleEntry Hash)
  archiveCount : Nat
  scheduled : Nat
  limitHit : Bool

inductive Action (Hash : Type) where
  /-- The loop at hand looks at its next file. -/
  | consider
  | pop (item : QueueItem Hash)

section Steps
variable {Hash : Type} (folder : Folder) (opts : ScanOptions) (sha256Hex : Bytes → Hash)

/-- The walk of the folder is begun. -/
def ScanState.start : ScanState Hash where
  batch :=
    { files := (folder.tree.walk opts.maxDepth).map .root
      extractedFrom := none
      depth := opts.archiveDepth }
  queue := []
  enqueuedPaths := []
  totalBytesEnqueued := 0
  skipped := []
  samples := []
  archiveCount := 0
  scheduled := 0
  limitHit := false

variable [DecidableEq Hash] (s : ScanState Hash)

def ScanState.skip (path : ScanPath) (reason : String) : ScanState Hash :=
  { s with skipped := s.skipped ++ [⟨path, reason⟩] }

/-- Ends the loop at hand; only the walk says why. -/
def ScanState.leave (path : ScanPath) (reason : String) : ScanState Hash :=
  { s with
    batch := { s.batch with files := [] }
    skipped := if s.batch.extractedFrom.isNone then s.skipped ++ [⟨path, reason⟩] else s.skipped
    limitHit := s.limitHit || path ∉ s.enqueuedPaths }

/-- The bytes enqueued with a file, in 64 bits. -/
def ScanState.bytesWith (path : ScanPath) : Nat :=
  (s.totalBytesEnqueued + (folder.read path).length) % 2 ^ 64

/-- A limit of the scan ends the loop at this file. -/
def ScanState.limitFires (path : ScanPath) : Prop :=
  opts.maxFiles ≤ s.queue.length ∨
    (folder.read path).length ≤ opts.singleFileByteLimit ∧ opts.maxBytes < s.bytesWith folder path

/-- One round of the loop in `walk_into_queue` and in `handle_archive`. -/
def ScanState.considerFile (path : ScanPath) (rest : List ScanPath) : ScanState Hash :=
  let size := (folder.read path).length
  let next := { s with batch := { s.batch with files := rest } }
  if opts.maxFiles ≤ s.queue.length then s.leave path "max_files_reached"
  else if opts.singleFileByteLimit < size then
    next.skip path ("over_single_file_byte_limit: " ++ toString size)
  else if opts.maxBytes < s.bytesWith folder path then s.leave path "max_bytes_reached"
  else if path ∈ s.enqueuedPaths then next
  else
    { next with
      queue := s.queue ++ [⟨path, size, s.batch.extractedFrom, s.batch.depth⟩]
      enqueuedPaths := s.enqueuedPaths ++ [path]
      totalBytesEnqueued := s.bytesWith folder path }

def ScanState.handleArchive (item : QueueItem Hash) : ScanState Hash :=
  match folder.extractArchive item.path with
  | none => s.skip item.path "archive_skipped"
  | some files =>
    let bytes := folder.read item.path
    { s with
      batch :=
        { files := files.map (.extracted bytes)
          extractedFrom := some (sha256Hex bytes)
          depth := item.archiveDepthRemaining - 1 } }

/-- Puts a binary under the sample of its hash. -/
def putSample (samples : List (SampleEntry Hash)) (sha : Hash) (item : QueueItem Hash)
    (format : Classification) : List (SampleEntry Hash) :=
  if samples.any (·.sha256 = sha) then
    samples.map fun e =>
      if e.sha256 = sha then { e with paths := e.paths ++ [item.path] } else e
  else samples ++ [⟨sha, [item.path], format, item.size, item.extractedFrom⟩]

def refusesArchive (item : QueueItem Hash) : Bool :=
  opts.noExtractArchives || item.archiveDepthRemaining = 0

/-- One round of the queue loop, with the item taken out. -/
def ScanState.process (item : QueueItem Hash) : ScanState Hash :=
  match folder.classify item.path with
  | .archive =>
    let counted := { s with archiveCount := s.archiveCount + 1 }
    if refusesArchive opts item then
      counted.skip item.path "archive_extraction_disabled_or_depth_exhausted"
    else counted.handleArchive folder sha256Hex item
  | .other => s.skip item.path "not_a_supported_binary"
  | format =>
    { s with samples := putSample s.samples (sha256Hex (folder.read item.path)) item format }

/-- Of the largest items the queue may give any first. -/
def ScanState.step : Action Hash → Option (ScanState Hash)
  | .consider =>
    match s.batch.files with
    | [] => none
    | path :: rest => some (s.considerFile folder opts path rest)
  | .pop item =>
    if s.batch.files = [] ∧ item ∈ s.queue ∧ ∀ other ∈ s.queue, other.size ≤ item.size then
      some (ScanState.process folder opts sha256Hex
        { s with queue := s.queue.erase item, scheduled := s.scheduled + 1 } item)
    else none

end Steps

end Axe.Scan
