import Mathlib.Order.Basic

/-!
# A file tree with symbolic links

Paths are resolved name by name, links are followed up to a limit, and directories and files are
made where a path leads. The world logs every real path at which something is made or written.
The contents of files are left out.
-/
namespace FileTree

variable {ν : Type}

inductive Component (ν : Type)
  | rootDir
  | curDir
  | parentDir
  | normal (name : ν)
  deriving DecidableEq

inductive Node (ν : Type)
  | dir
  | file
  | link (target : List (Component ν))
  deriving DecidableEq

/-- A real path has its last name first; what is there lies in a directory. -/
structure FsTree (ν : Type) where
  node : List ν → Option (Node ν)
  root : node [] = some .dir
  parent : ∀ name p, node (name :: p) ≠ none → node p = some .dir

inductive Errno
  | notFound
  | alreadyExists
  | notADirectory
  | isADirectory
  | notPermitted
  | tooManyLinks
  deriving DecidableEq

/-- Where a path leads: to what is there, with the number of links that may still be followed,
or to a name that a directory does not have. -/
inductive Lookup (ν : Type)
  | found (real : List ν) (links : Nat)
  | missing (dir : List ν) (name : ν)
  | error (e : Errno)
  deriving DecidableEq

/-- Follows the components up to the first link, whose target it puts before the rest. -/
def FsTree.walkWith (t : FsTree ν) (links : Nat) (jump : List ν → List (Component ν) → Lookup ν) :
    List ν → List (Component ν) → Lookup ν
  | real, [] => .found real links
  | _, .rootDir :: rest => t.walkWith links jump [] rest
  | real, .curDir :: rest => t.walkWith links jump real rest
  | real, .parentDir :: rest => t.walkWith links jump real.tail rest
  | real, .normal name :: rest =>
    match t.node (name :: real) with
    | none => if rest = [] then .missing real name else .error .notFound
    | some .dir => t.walkWith links jump (name :: real) rest
    | some .file => if rest = [] then .found (name :: real) links else .error .notADirectory
    | some (.link target) => jump real (target ++ rest)

/-- Follows the components from a directory, and at most so many links. -/
def FsTree.walk (t : FsTree ν) : (links : Nat) → List ν → List (Component ν) → Lookup ν
  | 0 => t.walkWith 0 fun _ _ => .error .tooManyLinks
  | links + 1 => t.walkWith (links + 1) (t.walk links)

/-- The place of a path from the root, its last name first. -/
def FsTree.resolve (t : FsTree ν) (limit : Nat) (path : List ν) : Lookup ν :=
  t.walk limit [] (path.reverse.map .normal)

variable {t t' : FsTree ν} {links limit : Nat} {real dir path p : List ν} {name : ν}
  {todo : List (Component ν)}

theorem FsTree.walk_nil : t.walk links real [] = .found real links := by
  cases links <;> rfl

theorem FsTree.walk_dir (h : t.node (name :: real) = some .dir) :
    t.walk links real (.normal name :: todo) = t.walk links (name :: real) todo := by
  cases links <;> rw [walk, walkWith, h]

theorem FsTree.node_tail (h : t.node real = some .dir) : t.node real.tail = some .dir := by
  cases real with
  | nil => exact h
  | cons name p => exact t.parent name p (by rw [h]; exact Option.some_ne_none _)

/-- What a lookup from a directory tells about the tree. -/
def FsTree.Sound (t : FsTree ν) : Lookup ν → Prop
  | .found real _ => t.node real = some .dir ∨ t.node real = some .file
  | .missing dir name => t.node dir = some .dir ∧ t.node (name :: dir) = none
  | .error _ => True

theorem FsTree.walkWith_sound {jump : List ν → List (Component ν) → Lookup ν}
    (hjump : ∀ real todo, t.node real = some .dir → t.Sound (jump real todo))
    (hreal : t.node real = some .dir) : t.Sound (t.walkWith links jump real todo) := by
  induction todo generalizing real with
  | nil => exact Or.inl hreal
  | cons c rest ih =>
    cases c with
    | rootDir => exact ih t.root
    | curDir => exact ih hreal
    | parentDir => exact ih (t.node_tail hreal)
    | normal name =>
      rw [walkWith]
      cases hnode : t.node (name :: real) with
      | none =>
        simp only
        split
        · exact ⟨hreal, hnode⟩
        · trivial
      | some n =>
        cases n with
        | dir => exact ih hnode
        | file =>
          simp only
          split
          · exact Or.inr hnode
          · trivial
        | link target => exact hjump real _ hreal

theorem FsTree.walk_sound (hreal : t.node real = some .dir) : t.Sound (t.walk links real todo) := by
  induction links generalizing real todo with
  | zero => exact walkWith_sound (fun _ _ _ => trivial) hreal
  | succ links ih => exact walkWith_sound (fun _ _ h => ih h) hreal

theorem FsTree.resolve_sound : t.Sound (t.resolve limit path) := walk_sound t.root

theorem FsTree.resolve_nil : t.resolve limit [] = .found [] limit := walk_nil

/-- Everything is still there. -/
def FsTree.Extends (t t' : FsTree ν) : Prop := ∀ p n, t.node p = some n → t'.node p = some n

theorem FsTree.walkWith_mono {jump jump' : List ν → List (Component ν) → Lookup ν} {l : Nat}
    (h : t.Extends t') (hjump : ∀ real todo p l, jump real todo = .found p l →
      jump' real todo = .found p l)
    (hfound : t.walkWith links jump real todo = .found p l) :
    t'.walkWith links jump' real todo = .found p l := by
  induction todo generalizing real with
  | nil => exact hfound
  | cons c rest ih =>
    cases c with
    | rootDir => exact ih hfound
    | curDir => exact ih hfound
    | parentDir => exact ih hfound
    | normal name =>
      rw [walkWith] at hfound ⊢
      cases hnode : t.node (name :: real) with
      | none =>
        rw [hnode] at hfound
        simp only at hfound
        split at hfound <;> cases hfound
      | some n =>
        rw [hnode] at hfound
        rw [h _ _ hnode]
        cases n with
        | dir => exact ih hfound
        | file => exact hfound
        | link target => exact hjump _ _ _ _ hfound

theorem FsTree.walk_mono {l : Nat} (h : t.Extends t') (hfound : t.walk links real todo = .found p l) :
    t'.walk links real todo = .found p l := by
  induction links generalizing real todo p l with
  | zero => exact walkWith_mono h (fun _ _ _ _ hloop => by cases hloop) hfound
  | succ links ih => exact walkWith_mono h (fun _ _ _ _ hjump => ih hjump) hfound

/-- The names can be made below a directory, one in the other. -/
structure FsTree.Free (t : FsTree ν) (dir names : List ν) : Prop where
  isDir : t.node dir = some .dir
  absent : ∀ above, above ≠ [] → above <:+ names → t.node (above ++ dir) = none

/-- A tree that lacks a directory lacks what would lie in it. -/
theorem FsTree.Free.cons {names : List ν} (h : t.Free dir names) (hne : names ≠ []) :
    t.Free dir (name :: names) := by
  refine ⟨h.isDir, fun above habove hsuffix => ?_⟩
  rcases List.suffix_cons_iff.mp hsuffix with heq | hsuffix
  · rw [heq, List.cons_append]
    by_contra hsome
    have hparent := t.parent name (names ++ dir) hsome
    rw [h.absent names hne List.suffix_rfl] at hparent
    cases hparent
  · exact h.absent above habove hsuffix

variable [DecidableEq ν]

def FsTree.isDir (t : FsTree ν) (limit : Nat) (path : List ν) : Bool :=
  match t.resolve limit path with
  | .found real _ => t.node real = some .dir
  | _ => false

def FsTree.put (t : FsTree ν) (dir : List ν) (name : ν) (n : Node ν) (hdir : t.node dir = some .dir)
    (hold : t.node (name :: dir) ≠ some .dir) : FsTree ν where
  node p := if p = name :: dir then some n else t.node p
  root := by rw [if_neg (List.cons_ne_nil name dir).symm, t.root]
  parent name' p hp := by
    by_cases heq : name' :: p = name :: dir
    · cases heq
      rw [if_neg (List.cons_ne_self name dir).symm, hdir]
    · rw [if_neg heq] at hp
      have hparent := t.parent name' p hp
      rw [if_neg, hparent]
      rintro rfl
      exact hold hparent

structure World (ν : Type) where
  tree : FsTree ν
  log : List (List ν)

/-- Puts a node into a directory, in place of anything but a directory. -/
def World.make (w : World ν) (dir : List ν) (name : ν) (n : Node ν) : World ν :=
  if h : w.tree.node dir = some .dir ∧ w.tree.node (name :: dir) ≠ some .dir then
    ⟨w.tree.put dir name n h.1 h.2, w.log ++ [name :: dir]⟩
  else w

/-- Writes the file at a real path. -/
def World.write (w : World ν) (real : List ν) : World ν := { w with log := w.log ++ [real] }

/-- The last name is not followed: a link that stands there is in the way. -/
def World.mkdir (w : World ν) (limit : Nat) : List ν → Except Errno (World ν)
  | [] => .error .alreadyExists
  | name :: parent =>
    match w.tree.resolve limit parent with
    | .found dir _ =>
      if w.tree.node dir ≠ some .dir then .error .notADirectory
      else if w.tree.node (name :: dir) ≠ none then .error .alreadyExists
      else .ok (w.make dir name .dir)
    | .missing _ _ => .error .notFound
    | .error e => .error e

/-- Makes the directory, and first its parents where it finds none. -/
def World.createDirAll (w : World ν) (limit : Nat) : List ν → World ν × Option Errno
  | [] => (w, none)
  | name :: parent =>
    match w.mkdir limit (name :: parent) with
    | .ok made => (made, none)
    | .error .notFound =>
      let above := w.createDirAll limit parent
      if above.2 ≠ none then above
      else
        match above.1.mkdir limit (name :: parent) with
        | .ok made => (made, none)
        | .error e => (above.1, if above.1.tree.isDir limit (name :: parent) then none else some e)
    | .error e => (w, if w.tree.isDir limit (name :: parent) then none else some e)

/-- Opens the file for writing, and makes it where there is none; links are followed. -/
def World.create (w : World ν) (limit : Nat) (path : List ν) : Except Errno (World ν) :=
  match w.tree.resolve limit path with
  | .found real _ =>
    if w.tree.node real = some .dir then .error .isADirectory else .ok (w.write real)
  | .missing dir name => .ok (w.make dir name .file)
  | .error e => .error e

/-- The real path that `create` would write. -/
def FsTree.opened (t : FsTree ν) (limit : Nat) (path : List ν) : Option (List ν) :=
  match t.resolve limit path with
  | .found real _ => if t.node real = some .dir then none else some real
  | .missing dir name => some (name :: dir)
  | .error _ => none

/-- Where `createDirAll` starts to make directories, and the names that it makes. -/
def FsTree.needed (t : FsTree ν) (limit : Nat) : List ν → Option (List ν × List ν)
  | [] => none
  | name :: parent =>
    match t.resolve limit parent with
    | .found dir _ =>
      if t.node dir = some .dir ∧ t.node (name :: dir) = none then some (dir, [name]) else none
    | .missing _ _ | .error .notFound =>
      (t.needed limit parent).map fun made => (made.1, name :: made.2)
    | .error _ => none

/-- Makes a chain of directories, each in the one before. -/
def World.makeDirs (w : World ν) (dir : List ν) : List ν → World ν
  | [] => w
  | name :: above => (w.makeDirs dir above).make (above ++ dir) name .dir

/-- One more name after the others. -/
def FsTree.continueWith (t : FsTree ν) (name : ν) : Lookup ν → Lookup ν
  | .found real links =>
    if t.node real = some .dir then t.walk links real [.normal name] else .error .notADirectory
  | .missing _ _ => .error .notFound
  | .error e => .error e

theorem FsTree.walkWith_append {jump : List ν → List (Component ν) → Lookup ν}
    (hwalk : t.walk links = t.walkWith links jump)
    (hjump : ∀ real todo, t.node real = some .dir →
      jump real (todo ++ [.normal name]) = t.continueWith name (jump real todo))
    (hreal : t.node real = some .dir) :
    t.walkWith links jump real (todo ++ [.normal name]) =
      t.continueWith name (t.walkWith links jump real todo) := by
  induction todo generalizing real with
  | nil =>
    rw [List.nil_append, walkWith.eq_1, continueWith, if_pos hreal, hwalk]
  | cons c rest ih =>
    cases c with
    | rootDir => exact ih t.root
    | curDir => exact ih hreal
    | parentDir => exact ih (t.node_tail hreal)
    | normal name' =>
      have hne : rest ++ [Component.normal name] ≠ [] := by simp
      rw [List.cons_append, walkWith, walkWith]
      cases hnode : t.node (name' :: real) with
      | none =>
        simp only [if_neg hne]
        split <;> rfl
      | some n =>
        cases n with
        | dir => exact ih hnode
        | file =>
          simp only [if_neg hne]
          split
          · rw [continueWith, if_neg (by rw [hnode]; exact nofun)]
          · rfl
        | link target =>
          simp only
          rw [← List.append_assoc]
          exact hjump real _ hreal

theorem FsTree.walk_append (hreal : t.node real = some .dir) :
    t.walk links real (todo ++ [.normal name]) = t.continueWith name (t.walk links real todo) := by
  induction links generalizing real todo with
  | zero => exact walkWith_append rfl (fun _ _ _ => rfl) hreal
  | succ links ih => exact walkWith_append rfl (fun _ _ h => ih h) hreal

/-- A path is resolved after its parent. -/
theorem FsTree.resolve_cons :
    t.resolve limit (name :: path) = t.continueWith name (t.resolve limit path) := by
  rw [resolve, List.reverse_cons, List.map_append, List.map_singleton, walk_append t.root]
  rfl

/-- A real directory is found where it is. -/
theorem FsTree.resolve_real (h : t.node p = some .dir) : t.resolve limit p = .found p limit := by
  induction p with
  | nil => exact resolve_nil
  | cons name p ih =>
    have hp := t.parent name p (by rw [h]; exact Option.some_ne_none _)
    rw [resolve_cons, ih hp, continueWith, if_pos hp, walk_dir h, walk_nil]

variable {w w' : World ν} {n : Node ν}

theorem World.make_eq (hdir : w.tree.node dir = some .dir)
    (hold : w.tree.node (name :: dir) ≠ some .dir) :
    w.make dir name n = ⟨w.tree.put dir name n hdir hold, w.log ++ [name :: dir]⟩ :=
  dif_pos ⟨hdir, hold⟩

theorem World.make_node (hdir : w.tree.node dir = some .dir)
    (hold : w.tree.node (name :: dir) ≠ some .dir) :
    (w.make dir name n).tree.node p = if p = name :: dir then some n else w.tree.node p := by
  rw [make_eq hdir hold]
  rfl

theorem World.make_log (hdir : w.tree.node dir = some .dir)
    (hold : w.tree.node (name :: dir) ≠ some .dir) :
    (w.make dir name n).log = w.log ++ [name :: dir] := by
  rw [make_eq hdir hold]

/-- What making a chain of directories changes. -/
structure World.Made (w w' : World ν) (dir names : List ν) : Prop where
  keeps : w.tree.Extends w'.tree
  isDir : w'.tree.node (names ++ dir) = some .dir
  frame : ∀ p, w'.tree.node p = w.tree.node p ∨
    (w'.tree.node p = some .dir ∧ ∃ above, above ≠ [] ∧ above <:+ names ∧ p = above ++ dir)
  log : ∃ made, w'.log = w.log ++ made ∧ (names ≠ [] → made ≠ []) ∧
    ∀ p ∈ made, ∃ above, above ≠ [] ∧ above <:+ names ∧ p = above ++ dir

theorem World.makeDirs_made {names : List ν} (h : w.tree.Free dir names) :
    w.Made (w.makeDirs dir names) dir names := by
  induction names with
  | nil => exact ⟨fun _ _ hn => hn, h.isDir, fun _ => Or.inl rfl,
      [], (List.append_nil _).symm, fun hne => absurd rfl hne, fun _ hp => absurd hp List.not_mem_nil⟩
  | cons name above ih =>
    have habove := ih ⟨h.isDir, fun a hne ha => h.absent a hne (ha.trans (List.suffix_cons _ _))⟩
    have hname : w.tree.node (name :: (above ++ dir)) = none :=
      h.absent (name :: above) (List.cons_ne_nil _ _) List.suffix_rfl
    have hnew : (w.makeDirs dir above).tree.node (name :: (above ++ dir)) ≠ some .dir := by
      rcases habove.frame (name :: (above ++ dir)) with heq | ⟨_, a, _, ha, heq⟩
      · rw [heq, hname]
        exact (Option.some_ne_none _).symm
      · have hlen := congrArg List.length heq
        have hle := ha.length_le
        simp only [List.length_cons, List.length_append] at hlen
        omega
    have hnode {p : List ν} : (w.makeDirs dir (name :: above)).tree.node p =
        if p = name :: (above ++ dir) then some .dir else (w.makeDirs dir above).tree.node p :=
      make_node habove.isDir hnew
    refine ⟨fun p n hn => ?_, ?_, fun p => ?_, ?_⟩
    · rw [hnode, if_neg, habove.keeps p n hn]
      rintro rfl
      rw [hname] at hn
      cases hn
    · rw [List.cons_append, hnode, if_pos rfl]
    · rw [hnode]
      by_cases hp : p = name :: (above ++ dir)
      · rw [if_pos hp]
        exact Or.inr ⟨rfl, name :: above, List.cons_ne_nil _ _, List.suffix_rfl, hp⟩
      · rw [if_neg hp]
        rcases habove.frame p with heq | ⟨hdir, a, hne, ha, heq⟩
        · exact Or.inl heq
        · exact Or.inr ⟨hdir, a, hne, ha.trans (List.suffix_cons _ _), heq⟩
    · obtain ⟨made, hlog, _, hmade⟩ := habove.log
      refine ⟨made ++ [name :: (above ++ dir)], ?_, fun _ => by simp, fun p hp => ?_⟩
      · rw [makeDirs, make_log habove.isDir hnew, hlog, List.append_assoc]
      · rcases List.mem_append.mp hp with hp | hp
        · obtain ⟨a, hne, ha, heq⟩ := hmade p hp
          exact ⟨a, hne, ha.trans (List.suffix_cons _ _), heq⟩
        · exact ⟨name :: above, List.cons_ne_nil _ _, List.suffix_rfl, List.mem_singleton.mp hp⟩

omit [DecidableEq ν] in
/-- Below a directory that was made nothing is there. -/
theorem World.Made.absent_below {names : List ν} (h : w.Made w' dir names)
    (hfree : w.tree.Free dir names) (hne : names ≠ []) :
    w'.tree.node (name :: (names ++ dir)) = none := by
  rcases h.frame (name :: (names ++ dir)) with heq | ⟨_, a, _, ha, heq⟩
  · rw [heq]
    exact (hfree.cons hne).absent (name :: names) (List.cons_ne_nil _ _) List.suffix_rfl
  · have hlen := congrArg List.length heq
    have hle := ha.length_le
    simp only [List.length_cons, List.length_append] at hlen
    omega

/-- What `createDirAll` does where something is needed. -/
structure World.Creates (w : World ν) (limit : Nat) (path dir names : List ν) : Prop where
  free : w.tree.Free dir names
  nonempty : names ≠ []
  result : w.createDirAll limit path = (w.makeDirs dir names, none)
  found : ∃ l, (w.makeDirs dir names).tree.resolve limit path = .found (names ++ dir) l

theorem World.createDirAll_error {e : Errno} (h : w.mkdir limit (name :: path) = .error e)
    (he : e ≠ .notFound) : (w.createDirAll limit (name :: path)).1 = w := by
  rw [createDirAll, h]
  cases e <;> first | rfl | exact absurd rfl he

theorem World.createDirAll_ok (h : w.mkdir limit (name :: path) = .ok w') :
    w.createDirAll limit (name :: path) = (w', none) := by
  rw [createDirAll, h]

/-- The parents could not be made, so nothing is. -/
theorem World.createDirAll_absent (h : w.mkdir limit (name :: path) = .error .notFound)
    (habove : (w.createDirAll limit path).1 = w) : (w.createDirAll limit (name :: path)).1 = w := by
  rw [createDirAll, h]
  simp only [habove, h]
  split
  · exact habove
  · rfl

theorem World.createDirAll_above {above : World ν}
    (h : w.mkdir limit (name :: path) = .error .notFound)
    (habove : w.createDirAll limit path = (above, none))
    (hmade : above.mkdir limit (name :: path) = .ok w') :
    w.createDirAll limit (name :: path) = (w', none) := by
  rw [createDirAll, h]
  simp only [habove, hmade, ne_eq, not_true_eq_false, if_false]

theorem World.mkdir_found {l : Nat} (hp : w.tree.resolve limit path = .found dir l)
    (hdir : w.tree.node dir = some .dir) (hnew : w.tree.node (name :: dir) = none) :
    w.mkdir limit (name :: path) = .ok (w.make dir name .dir) := by
  rw [mkdir, hp]
  simp only [hdir, hnew, ne_eq, not_true_eq_false, if_false]

/-- A directory that was made is found where it is. -/
theorem World.Made.found {names : List ν} {l : Nat} (h : w.Made w' dir (name :: names))
    (hp : w'.tree.resolve limit path = .found (names ++ dir) l) :
    w'.tree.resolve limit (name :: path) = .found (name :: names ++ dir) l := by
  have hparent := w'.tree.parent name (names ++ dir) (by
    rw [← List.cons_append, h.isDir]
    exact Option.some_ne_none _)
  have hisDir : w'.tree.node (name :: (names ++ dir)) = some .dir := h.isDir
  rw [FsTree.resolve_cons, hp, FsTree.continueWith, if_pos hparent, FsTree.walk_dir hisDir,
    FsTree.walk_nil]
  rfl

theorem World.Creates.one {l : Nat} (hp : w.tree.resolve limit path = .found dir l)
    (hdir : w.tree.node dir = some .dir) (hnew : w.tree.node (name :: dir) = none) :
    w.Creates limit (name :: path) dir [name] := by
  have hfree : w.tree.Free dir [name] := by
    refine ⟨hdir, fun above hne hsuffix => ?_⟩
    rcases List.suffix_cons_iff.mp hsuffix with heq | hnil
    · rw [heq]
      exact hnew
    · exact absurd (List.suffix_nil.mp hnil) hne
  have hmade := makeDirs_made hfree
  refine ⟨hfree, List.cons_ne_nil _ _, createDirAll_ok (mkdir_found hp hdir hnew), l, ?_⟩
  have hp' := FsTree.walk_mono hmade.keeps hp
  exact hmade.found hp'

theorem World.Creates.cons {names : List ν} (h : w.Creates limit path dir names)
    (habsent : w.mkdir limit (name :: path) = .error .notFound) :
    w.Creates limit (name :: path) dir (name :: names) := by
  have hfree : w.tree.Free dir (name :: names) := h.free.cons h.nonempty
  have hmade := makeDirs_made hfree
  have habove := makeDirs_made h.free
  obtain ⟨l, hl⟩ := h.found
  have hnew : (w.makeDirs dir names).tree.node (name :: (names ++ dir)) = none :=
    habove.absent_below h.free h.nonempty
  have hmkdir := mkdir_found hl habove.isDir hnew
  refine ⟨hfree, List.cons_ne_nil _ _, createDirAll_above habsent h.result hmkdir, l, ?_⟩
  have hkeeps : (w.makeDirs dir names).tree.Extends (w.makeDirs dir (name :: names)).tree := by
    intro p n hn
    have hne : p ≠ name :: (names ++ dir) := by
      rintro rfl
      rw [hnew] at hn
      cases hn
    rw [makeDirs, make_node habove.isDir (by rw [hnew]; exact (Option.some_ne_none _).symm),
      if_neg hne]
    exact hn
  exact hmade.found (FsTree.walk_mono hkeeps hl)

/-- What is needed for a path is not there yet. -/
theorem FsTree.not_found_of_needed {names : List ν} (h : t.needed limit path = some (dir, names))
    (real : List ν) (l : Nat) : t.resolve limit path ≠ .found real l := by
  cases path with
  | nil => cases h
  | cons name parent =>
    intro hfound
    rw [needed] at h
    rw [resolve_cons] at hfound
    cases hp : t.resolve limit parent with
    | found d l' =>
      rw [hp] at h hfound
      simp only at h
      split at h
      · rename_i hnew
        rw [continueWith, if_pos hnew.1] at hfound
        cases l' <;> rw [walk, walkWith, hnew.2] at hfound <;> cases hfound
      · cases h
    | missing d n =>
      rw [hp] at hfound
      cases hfound
    | error e =>
      rw [hp] at hfound
      cases hfound

theorem FsTree.opened_cons {l : Nat} (hp : t.resolve limit path = .found dir l)
    (hdir : t.node dir = some .dir) (hnew : t.node (name :: dir) = none) :
    t.opened limit (name :: path) = some (name :: dir) := by
  have hmissing : t.resolve limit (name :: path) = .missing dir name := by
    rw [resolve_cons, hp, continueWith, if_pos hdir]
    cases l <;> rw [walk, walkWith, hnew] <;> rfl
  rw [opened, hmissing]

/-- A file can be opened only in a parent that is there. -/
theorem FsTree.found_of_opened (h : t.opened limit (name :: path) = some real) :
    ∃ d l, t.resolve limit path = .found d l := by
  rw [opened, resolve_cons] at h
  cases hp : t.resolve limit path with
  | found d l => exact ⟨d, l, rfl⟩
  | missing d n =>
    rw [hp] at h
    cases h
  | error e =>
    rw [hp] at h
    cases h

theorem World.createDirAll_needed (limit : Nat) (path : List ν) :
    (w.tree.needed limit path = none → (w.createDirAll limit path).1 = w) ∧
      ∀ dir names, w.tree.needed limit path = some (dir, names) →
        w.Creates limit path dir names := by
  induction path with
  | nil => exact ⟨fun _ => rfl, fun _ _ h => by cases h⟩
  | cons name parent ih =>
    have habove (habsent : w.mkdir limit (name :: parent) = .error .notFound)
        (hneeded : w.tree.needed limit (name :: parent) =
          (w.tree.needed limit parent).map fun made => (made.1, name :: made.2)) :
        (w.tree.needed limit (name :: parent) = none →
          (w.createDirAll limit (name :: parent)).1 = w) ∧
        ∀ dir names, w.tree.needed limit (name :: parent) = some (dir, names) →
          w.Creates limit (name :: parent) dir names := by
      rw [hneeded]
      refine ⟨fun hnone => ?_, fun dir names hsome => ?_⟩
      · exact createDirAll_absent habsent (ih.1 (Option.map_eq_none_iff.mp hnone))
      · obtain ⟨made, hmade, heq⟩ := Option.map_eq_some_iff.mp hsome
        cases heq
        exact (ih.2 _ _ hmade).cons habsent
    cases hp : w.tree.resolve limit parent with
    | found d l =>
      rw [FsTree.needed, hp]
      by_cases h : w.tree.node d = some .dir ∧ w.tree.node (name :: d) = none
      · simp only [if_pos h]
        refine ⟨fun hnone => (Option.some_ne_none _ hnone).elim, fun dir names hsome => ?_⟩
        cases hsome
        exact Creates.one hp h.1 h.2
      · simp only [if_neg h]
        refine ⟨fun _ => ?_, fun _ _ hsome => by cases hsome⟩
        by_cases hdir : w.tree.node d = some .dir
        · have hold : w.tree.node (name :: d) ≠ none := fun hnew => h ⟨hdir, hnew⟩
          have hmkdir : w.mkdir limit (name :: parent) = .error .alreadyExists := by
            rw [mkdir, hp]
            simp only [hdir, ne_eq, not_true_eq_false, if_false, hold, not_false_eq_true, if_true]
          exact createDirAll_error hmkdir (by decide)
        · have hmkdir : w.mkdir limit (name :: parent) = .error .notADirectory := by
            rw [mkdir, hp]
            simp only [ne_eq, hdir, not_false_eq_true, if_true]
          exact createDirAll_error hmkdir (by decide)
    | missing d n => exact habove (by rw [mkdir, hp]) (by rw [FsTree.needed, hp])
    | error e =>
      by_cases he : e = .notFound
      · subst he
        exact habove (by rw [mkdir, hp]) (by rw [FsTree.needed, hp])
      · have hmkdir : w.mkdir limit (name :: parent) = .error e := by rw [mkdir, hp]
        have hneeded : w.tree.needed limit (name :: parent) = none := by
          rw [FsTree.needed, hp]
          cases e <;> first | rfl | exact absurd rfl he
        rw [hneeded]
        exact ⟨fun _ => createDirAll_error hmkdir he, fun _ _ hsome => by cases hsome⟩

/-- A file that is opened is written at its real path, and nothing else changes. -/
theorem World.opened_of_create (h : w.create limit path = .ok w') :
    ∃ real, w.tree.opened limit path = some real ∧ w'.log = w.log ++ [real] ∧
      ∀ p, w'.tree.node p = w.tree.node p ∨
        (w'.tree.node p = some .file ∧ p = real ∧ w.tree.node p = none) := by
  have hsound : w.tree.Sound (w.tree.resolve limit path) := FsTree.resolve_sound
  rw [create] at h
  rw [FsTree.opened]
  cases hp : w.tree.resolve limit path with
  | found real l =>
    rw [hp] at h
    by_cases hdir : w.tree.node real = some .dir
    · simp only [if_pos hdir] at h
      cases h
    · simp only [if_neg hdir] at h ⊢
      cases h
      exact ⟨real, rfl, rfl, fun _ => Or.inl rfl⟩
  | missing dir name =>
    rw [hp] at h hsound
    have hnew : w.tree.node (name :: dir) ≠ some .dir := by
      rw [hsound.2]
      exact (Option.some_ne_none _).symm
    cases h
    refine ⟨name :: dir, rfl, make_log hsound.1 hnew, fun p => ?_⟩
    rw [make_node hsound.1 hnew]
    by_cases hp : p = name :: dir
    · rw [if_pos hp, hp]
      exact Or.inr ⟨rfl, rfl, hsound.2⟩
    · rw [if_neg hp]
      exact Or.inl rfl
  | error e =>
    rw [hp] at h
    cases h

theorem World.create_of_opened (h : w.tree.opened limit path = some real) :
    ∃ w', w.create limit path = .ok w' := by
  rw [FsTree.opened] at h
  rw [create]
  cases hp : w.tree.resolve limit path with
  | found real' l =>
    rw [hp] at h
    by_cases hdir : w.tree.node real' = some .dir
    · simp only [if_pos hdir] at h
      cases h
    · exact ⟨_, if_neg hdir⟩
  | missing dir name => exact ⟨_, rfl⟩
  | error e =>
    rw [hp] at h
    cases h

/-- A directory that is there is not made again. -/
theorem World.createDirAll_real (h : w.tree.node path = some .dir) :
    w.createDirAll limit path = (w, none) := by
  cases path with
  | nil => rfl
  | cons name parent =>
    have hparent := w.tree.parent name parent (by rw [h]; exact Option.some_ne_none _)
    have hmkdir : w.mkdir limit (name :: parent) = .error .alreadyExists := by
      rw [mkdir, FsTree.resolve_real hparent]
      simp only [hparent, h, ne_eq, not_true_eq_false, if_false, reduceCtorEq, not_false_eq_true,
        if_true]
    have hisDir : w.tree.isDir limit (name :: parent) = true := by
      rw [FsTree.isDir, FsTree.resolve_real h]
      exact decide_eq_true h
    rw [createDirAll, hmkdir]
    simp only [hisDir, if_true]

end FileTree
