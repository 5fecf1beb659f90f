import Axe.Lib.FileTree

/-!
# Extracting archives

The entries of a zip or tar archive are written one after the other below a destination. What
the archive crates read is a list of items. Creating a link or a file where something stands
already may replace it; whether the tar crate does that is left open.
-/
namespace Axe.Extract

open FileTree

abbrev Name := List Char

def component (part : Name) : Option (Component Name) :=
  if part = [] ∨ part = ['.'] then none
  else if part = ['.', '.'] then some .parentDir
  else some (.normal part)

/-- The components of a path; `.` counts only at its start. -/
def components (path : List Char) : List (Component Name) :=
  let parts := path.splitOn '/'
  let first : List (Component Name) :=
    if path.head? = some '/' then [.rootDir]
    else if parts.head? = some ['.'] then [.curDir]
    else []
  first ++ parts.filterMap component

/-- Adds the components to a path, which has its last name first. -/
def pushComponents (joined : List Name) : List (Component Name) → Option (List Name)
  | [] => some joined
  | .normal part :: rest => pushComponents (part :: joined) rest
  | .curDir :: rest => pushComponents joined rest
  | .parentDir :: _ | .rootDir :: _ => none

def parentOf : List Name → Option (List Name)
  | [] => none
  | _ :: parent => some parent

inductive EntryKind
  | regular
  | directory
  | symlink (target : List (Component Name))
  | hardLink (target : List (Component Name))
  deriving DecidableEq

structure TarEntry where
  name : List Char
  kind : EntryKind

inductive TarItem
  | iterFailed (err : String)
  | pathFailed (err : String)
  | entry (e : TarEntry)

inductive ZipItem
  | needsPassword
  | openFailed (err : String)
  | entry (name : List Char) (isDir : Bool) (readError : Option String)

/-- A zip archive is opened again for each password. -/
inductive Archive
  | zip (listing : String → Except String (List ZipItem))
  | tar (listing : Except String (List TarItem))

/-- How the platform behaves: how many links a path may follow, where relative link targets
start, whether unpacking first removes what stands at a path, and the texts of errors. -/
structure Platform where
  limit : Nat
  cwd : List Name
  replaces : FsTree Name → List Name → Bool
  describe : Errno → String

structure ExtractionResult where
  world : World Name
  files : List (List Name)
  errors : List String

def ExtractionResult.fail (out : ExtractionResult) (error : String) : ExtractionResult :=
  { out with errors := out.errors ++ [error] }

namespace Platform

variable (pf : Platform)

def canonicalize (t : FsTree Name) (path : List Name) : Option (List Name) :=
  match t.resolve pf.limit path with
  | .found real _ => some real
  | _ => none

/-- The check of the parent is left out where the parent does not exist. -/
def safeJoin (t : FsTree Name) (dest : List Name) (name : List Char) : Option (List Name) := do
  let joined ← pushComponents dest (components name)
  let canonDest ← pf.canonicalize t dest
  match (parentOf joined).bind (pf.canonicalize t) with
  | some parent => if canonDest <:+ parent then some joined else none
  | none => some joined

/-- Puts a link, or a new file, at a path; the last name is not followed. -/
def place (w : World Name) (n : Node Name) : List Name → Except Errno (World Name)
  | [] => .error .alreadyExists
  | name :: parent =>
    match w.tree.resolve pf.limit parent with
    | .found dir _ =>
      if w.tree.node dir ≠ some .dir then .error .notADirectory
      else if w.tree.node (name :: dir) = some .dir then .error .isADirectory
      else if w.tree.node (name :: dir) = none ∨ pf.replaces w.tree (name :: parent) = true then
        .ok (w.make dir name n)
      else .error .alreadyExists
    | .missing _ _ => .error .notFound
    | .error e => .error e

/-- What a hard link shares: a file, or a link that stands at the end of the target. -/
def hardLinked (t : FsTree Name) (target : List (Component Name)) : Except Errno (Node Name) :=
  match target.getLast? with
  | some (.normal name) =>
    match t.walk pf.limit pf.cwd target.dropLast with
    | .found dir _ =>
      match t.node (name :: dir) with
      | none => .error .notFound
      | some .dir => .error .notPermitted
      | some n => .ok n
    | .missing _ _ => .error .notFound
    | .error e => .error e
  | _ => .error .notPermitted

/-- A regular file is written through a link that stands at its path, unless the link is
replaced. -/
def unpack (w : World Name) (kind : EntryKind) (path : List Name) : Except Errno (World Name) :=
  match kind with
  | .regular | .directory =>
    if pf.replaces w.tree path = true then pf.place w .file path else w.create pf.limit path
  | .symlink target => pf.place w (.link target) path
  | .hardLink target => do
    let n ← pf.hardLinked w.tree target
    pf.place w n path

def createParents (w : World Name) (target : List Name) : World Name :=
  match parentOf target with
  | some parent => (w.createDirAll pf.limit parent).1
  | none => w

def extractTarEntry (out : ExtractionResult) (name : List Char) (kind : EntryKind)
    (target : List Name) : ExtractionResult :=
  if kind = .directory then { out with world := (out.world.createDirAll pf.limit target).1 }
  else
    let made := pf.createParents out.world target
    match pf.unpack made kind target with
    | .ok world => { out with world, files := out.files ++ [target] }
    | .error e =>
      { out with
        world := made
        errors := out.errors ++
          ["entry_unpack_failed_" ++ String.ofList name ++ ": " ++ pf.describe e] }

def rejected (name : List Char) : String := "rejected_path_traversal: " ++ String.ofList name

def extractTarItem (dest : List Name) (out : ExtractionResult) : TarItem → ExtractionResult
  | .iterFailed err => out.fail ("entry_iter_failed: " ++ err)
  | .pathFailed err => out.fail ("entry_path_failed: " ++ err)
  | .entry e =>
    match pf.safeJoin out.world.tree dest e.name with
    | none => out.fail (rejected e.name)
    | some target => pf.extractTarEntry out e.name e.kind target

def extractTar (dest : List Name) (listing : Except String (List TarItem)) (w : World Name) :
    ExtractionResult :=
  match listing with
  | .error err => ⟨w, [], [err]⟩
  | .ok items => items.foldl (pf.extractTarItem dest) ⟨w, [], []⟩

/-- An entry whose contents cannot be read leaves the directories that were made for it. -/
def extractZipEntry (dest : List Name) (index : Nat) (out : ExtractionResult) (name : List Char)
    (readError : Option String) : ExtractionResult :=
  match pf.safeJoin out.world.tree dest name with
  | none => out.fail (rejected name)
  | some target =>
    let made := pf.createParents out.world target
    match readError with
    | some err =>
      ExtractionResult.fail { out with world := made }
        ("entry_" ++ toString index ++ "_read_failed: " ++ err)
    | none =>
      match made.create pf.limit target with
      | .ok world => { out with world, files := out.files ++ [target] }
      | .error e =>
        ExtractionResult.fail { out with world := made }
          ("entry_" ++ toString index ++ "_create_failed: " ++ pf.describe e)

def extractZipItem (dest : List Name) (index : Nat) (out : ExtractionResult) :
    ZipItem → ExtractionResult
  | .needsPassword => out
  | .openFailed err => out.fail ("entry_" ++ toString index ++ "_open_failed: " ++ err)
  | .entry name isDir readError =>
    if isDir then out else pf.extractZipEntry dest index out name readError

/-- The entries up to the first that needs another password. -/
def extractZipItems (dest : List Name) :
    (index : Nat) → ExtractionResult → List ZipItem → ExtractionResult × Bool
  | _, out, [] => (out, false)
  | _, out, .needsPassword :: _ => (out, true)
  | index, out, item :: rest =>
    extractZipItems dest (index + 1) (pf.extractZipItem dest index out item) rest

def passwordList : List String := ["", "infected", "malware", "virus", "password"]

/-- What one password extracted stays on the disk when the next one is tried. -/
def extractZip (dest : List Name) (listing : String → Except String (List ZipItem)) :
    (passwords : List String) → World Name → ExtractionResult
  | [], w => ⟨w, [], ["all_passwords_failed_or_archive_encrypted"]⟩
  | password :: rest, w =>
    match listing password with
    | .error err => ⟨w, [], [err]⟩
    | .ok items =>
      let produced := pf.extractZipItems dest 0 ⟨w, [], []⟩ items
      if produced.2 then extractZip dest listing rest produced.1.world else produced.1

def extractArchive (dest : List Name) (archive : Archive) (w : World Name) : ExtractionResult :=
  match w.createDirAll pf.limit dest with
  | (w, some e) => ⟨w, [], ["create_dest_failed: " ++ pf.describe e]⟩
  | (w, none) =>
    match archive with
    | .zip listing => pf.extractZip dest listing passwordList w
    | .tar listing => pf.extractTar dest listing w

end Platform

end Axe.Extract
