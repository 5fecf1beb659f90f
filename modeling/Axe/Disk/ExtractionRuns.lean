import Axe.Disk.ArchiveExtract

/-!
# What extraction writes

Every real path at which extraction makes or writes something is logged. A zip archive never
leaves the destination. A tar archive stays inside exactly when no entry makes directories, or
writes a file, through a link that leads outside.
-/
namespace Axe.Extract

open FileTree

variable {pf : Platform} {dest target path : List Name} {w w' : World Name} {t : FsTree Name}
  {n : Node Name} {name : List Char} {kind : EntryKind} {out : ExtractionResult}

def Inside (dest : List Name) (w : World Name) : Prop := ∀ p ∈ w.log, dest <:+ p

/-- What an entry with an accepted path asks of the tree that it meets. -/
structure LeadsInside (pf : Platform) (dest : List Name) (t : FsTree Name) (kind : EntryKind)
    (target : List Name) : Prop where
  /-- The directories that do not exist yet are made inside. -/
  made : ∀ dir names, t.needed pf.limit (if kind = .directory then target else target.tail) =
    some (dir, names) → dest <:+ dir
  /-- A regular file that does not replace what stands at its path is written inside. -/
  written : kind = .regular → pf.replaces t target = false →
    ∀ real, t.opened pf.limit target = some real → dest <:+ real

def ItemLeadsInside (pf : Platform) (dest : List Name) (t : FsTree Name) : TarItem → Prop
  | .iterFailed _ | .pathFailed _ => True
  | .entry e => ∀ target, pf.safeJoin t dest e.name = some target →
      LeadsInside pf dest t e.kind target

/-- Each item meets the tree that the ones before it have left. -/
def AllLeadInside (pf : Platform) (dest : List Name) : ExtractionResult → List TarItem → Prop
  | _, [] => True
  | out, item :: rest => ItemLeadsInside pf dest out.world.tree item ∧
      AllLeadInside pf dest (pf.extractTarItem dest out item) rest

/-- A step logs some real paths and removes no directory. -/
structure Grows (w w' : World Name) (logged : List (List Name)) : Prop where
  log : w'.log = w.log ++ logged
  dirs : ∀ p, w.tree.node p = some .dir → w'.tree.node p = some .dir

theorem Grows.refl (w : World Name) : Grows w w [] := ⟨(List.append_nil _).symm, fun _ h => h⟩

theorem inside_of_grows {logged : List (List Name)} (h : Grows w w' logged) :
    Inside dest w' ↔ Inside dest w ∧ ∀ p ∈ logged, dest <:+ p := by
  rw [Inside, h.log]
  constructor
  · exact fun hin => ⟨fun p hp => hin p (List.mem_append_left _ hp),
      fun p hp => hin p (List.mem_append_right _ hp)⟩
  · rintro ⟨hw, hl⟩ p hp
    rcases List.mem_append.mp hp with hp | hp
    · exact hw p hp
    · exact hl p hp

theorem grows_make {dir : List Name} (hdir : w.tree.node dir = some .dir)
    (hold : w.tree.node (name :: dir) ≠ some .dir) :
    Grows w (w.make dir name n) [name :: dir] := by
  refine ⟨World.make_log hdir hold, fun p hp => ?_⟩
  rw [World.make_node hdir hold, if_neg, hp]
  rintro rfl
  exact hold hp

/-- What does not exist is not an ancestor of the destination. -/
theorem dest_suffix {dir names a : List Name} (hdest : w.tree.node dest = some .dir)
    (hfree : w.tree.Free dir names) (ha : a <:+ names) (hsuffix : dest <:+ a ++ dir) :
    dest <:+ dir := by
  rcases List.suffix_or_suffix_of_suffix hsuffix (List.suffix_append a dir) with h | h
  · exact h
  · obtain ⟨b, rfl⟩ := h
    by_cases hb : b = []
    · rw [hb]
      exact List.suffix_rfl
    · have hba := List.suffix_append_self_iff.mp hsuffix
      rw [hfree.absent b hb (hba.trans ha)] at hdest
      cases hdest

/-- Making the directories of a path stays inside exactly when it starts inside. -/
theorem grows_createDirAll (hdest : w.tree.node dest = some .dir) (limit : Nat)
    (path : List Name) : ∃ logged, Grows w (w.createDirAll limit path).1 logged ∧
      ((∀ p ∈ logged, dest <:+ p) ↔
        ∀ dir names, w.tree.needed limit path = some (dir, names) → dest <:+ dir) := by
  obtain ⟨hnone, hsome⟩ := World.createDirAll_needed limit path (w := w)
  cases hneeded : w.tree.needed limit path with
  | none =>
    rw [hnone hneeded]
    refine ⟨[], Grows.refl w, fun _ dir names h => ?_, fun _ p hp => absurd hp List.not_mem_nil⟩
    cases h
  | some made =>
    obtain ⟨dir, names⟩ := made
    have hcreates := hsome dir names hneeded
    have hmade := World.makeDirs_made hcreates.free
    obtain ⟨logged, hlog, hne, hin⟩ := hmade.log
    rw [hcreates.result]
    refine ⟨logged, ⟨hlog, fun p hp => hmade.keeps p _ hp⟩, fun h d n heq => ?_, fun h p hp => ?_⟩
    · cases heq
      obtain ⟨p, hp⟩ := List.exists_mem_of_ne_nil logged (hne hcreates.nonempty)
      obtain ⟨a, _, ha, rfl⟩ := hin p hp
      exact dest_suffix hdest hcreates.free ha (h _ hp)
    · obtain ⟨a, _, _, rfl⟩ := hin p hp
      exact List.suffix_append_of_suffix (h dir names rfl)

theorem grows_place (h : pf.place w n path = .ok w') : ∃ name parent dir l,
    path = name :: parent ∧ w.tree.resolve pf.limit parent = .found dir l ∧
      Grows w w' [name :: dir] := by
  cases path with
  | nil => cases h
  | cons name parent =>
    rw [Platform.place] at h
    cases hp : w.tree.resolve pf.limit parent with
    | found dir l =>
      rw [hp] at h
      simp only at h
      split at h
      · cases h
      · rename_i hdir
        split at h
        · cases h
        · rename_i hold
          split at h
          · cases h
            exact ⟨name, parent, dir, l, rfl, hp, grows_make (not_not.mp hdir) hold⟩
          · cases h
    | missing dir name =>
      rw [hp] at h
      cases h
    | error e =>
      rw [hp] at h
      cases h

theorem grows_create {limit : Nat} (h : w.create limit path = .ok w') : ∃ real,
    w.tree.opened limit path = some real ∧ Grows w w' [real] := by
  obtain ⟨real, hopened, hlog, hframe⟩ := World.opened_of_create h
  refine ⟨real, hopened, hlog, fun p hp => ?_⟩
  rcases hframe p with heq | ⟨_, _, hnone⟩
  · rw [heq, hp]
  · rw [hnone] at hp
    cases hp

/-- Unpacking puts something into the parent, or opens a file that it does not replace. -/
theorem grows_unpack (hkind : kind ≠ .directory) (h : pf.unpack w kind path = .ok w') :
    (¬ (kind = .regular ∧ pf.replaces w.tree path = false) ∧ ∃ name parent dir l,
      path = name :: parent ∧ w.tree.resolve pf.limit parent = .found dir l ∧
        Grows w w' [name :: dir]) ∨
      ((kind = .regular ∧ pf.replaces w.tree path = false) ∧ ∃ real,
        w.tree.opened pf.limit path = some real ∧ Grows w w' [real]) := by
  cases kind with
  | regular =>
    rw [Platform.unpack] at h
    cases hreplaces : pf.replaces w.tree path with
    | true =>
      rw [hreplaces, if_pos rfl] at h
      exact Or.inl ⟨fun hfalse => Bool.noConfusion hfalse.2, grows_place h⟩
    | false =>
      rw [hreplaces, if_neg Bool.false_ne_true] at h
      exact Or.inr ⟨⟨rfl, rfl⟩, grows_create h⟩
  | directory => exact absurd rfl hkind
  | symlink target => exact Or.inl ⟨fun hfalse => EntryKind.noConfusion hfalse.1, grows_place h⟩
  | hardLink target =>
    rw [Platform.unpack] at h
    cases hnode : pf.hardLinked w.tree target with
    | error e =>
      rw [hnode] at h
      cases h
    | ok n =>
      rw [hnode] at h
      exact Or.inl ⟨fun hfalse => EntryKind.noConfusion hfalse.1, grows_place h⟩

/-- The real parent of an accepted path, where it exists, is inside. -/
theorem inside_of_safeJoin {dir : List Name} {l : Nat} (hdest : t.node dest = some .dir)
    {parent : List Name} {last : Name} (h : pf.safeJoin t dest name = some (last :: parent))
    (hp : t.resolve pf.limit parent = .found dir l) : dest <:+ dir := by
  rw [Platform.safeJoin] at h
  have hcanon : pf.canonicalize t dest = some dest := by
    rw [Platform.canonicalize, FsTree.resolve_real hdest]
  obtain ⟨joined, hjoined, h⟩ := Option.bind_eq_some_iff.mp h
  obtain ⟨canonDest, hdest', h⟩ := Option.bind_eq_some_iff.mp h
  cases hcanon.symm.trans hdest'
  cases hparent : (parentOf joined).bind (pf.canonicalize t) with
  | none =>
    rw [hparent] at h
    cases h
    rw [parentOf, Option.bind_some, Platform.canonicalize, hp] at hparent
    cases hparent
  | some real =>
    rw [hparent] at h
    simp only at h
    split at h
    · rename_i hin
      cases h
      rw [parentOf, Option.bind_some, Platform.canonicalize, hp] at hparent
      cases hparent
      exact hin
    · cases h

theorem createParents_eq (target : List Name) :
    pf.createParents w target = (w.createDirAll pf.limit target.tail).1 := by
  cases target <;> rfl

/-- Where no directory is needed, an entry is unpacked into the tree as it stands. -/
theorem inside_unpack (hdest : w.tree.node dest = some .dir) (hkind : kind ≠ .directory)
    (hjoin : pf.safeJoin w.tree dest name = some target) (h : pf.unpack w kind target = .ok w') :
    Inside dest w' ↔ Inside dest w ∧ (kind = .regular → pf.replaces w.tree target = false →
      ∀ real, w.tree.opened pf.limit target = some real → dest <:+ real) := by
  rcases grows_unpack hkind h with ⟨hplace, last, parent, dir, l, rfl, hp, hgrows⟩ |
    ⟨hopen, real, hopened, hgrows⟩
  · rw [inside_of_grows hgrows]
    have hdir := inside_of_safeJoin hdest hjoin hp
    refine and_congr_right fun _ => ⟨fun _ hr hk => absurd ⟨hr, hk⟩ hplace, fun _ p hp => ?_⟩
    rw [List.mem_singleton.mp hp]
    exact hdir.trans (List.suffix_cons _ _)
  · rw [inside_of_grows hgrows]
    refine and_congr_right fun _ => ⟨fun hreal _ _ real' hopened' => ?_, fun h p hp => ?_⟩
    · cases hopened.symm.trans hopened'
      exact hreal real (List.mem_singleton_self _)
    · rw [List.mem_singleton.mp hp]
      exact h hopen.1 hopen.2 real hopened

theorem exists_unpack (hopened : w.tree.opened pf.limit path = some target)
    (hreplaces : pf.replaces w.tree path = false) : ∃ w', pf.unpack w .regular path = .ok w' := by
  obtain ⟨w', hw'⟩ := World.create_of_opened hopened
  refine ⟨w', ?_⟩
  rw [Platform.unpack, hreplaces, if_neg Bool.false_ne_true]
  exact hw'

/-- An entry unpacked into a directory that was made for it. -/
theorem grows_unpack_made {dir names : List Name} (hkind : kind ≠ .directory)
    (hcreates : w.Creates pf.limit target.tail dir names)
    (h : pf.unpack (w.makeDirs dir names) kind target = .ok w') :
    ∃ last, Grows (w.makeDirs dir names) w' [last :: (names ++ dir)] := by
  obtain ⟨l, hfound⟩ := hcreates.found
  have hmade := World.makeDirs_made hcreates.free
  rcases grows_unpack hkind h with ⟨_, last, parent, dir', l', rfl, hp, hgrows⟩ |
    ⟨_, real, hopened, hgrows⟩
  · cases hfound.symm.trans hp
    exact ⟨last, hgrows⟩
  · cases target with
    | nil =>
      rw [FsTree.opened, FsTree.resolve_nil] at hopened
      simp only [FsTree.root, if_true] at hopened
      cases hopened
    | cons last parent =>
      have hnew : (w.makeDirs dir names).tree.opened pf.limit (last :: parent) =
          some (last :: (names ++ dir)) :=
        FsTree.opened_cons hfound hmade.isDir (hmade.absent_below hcreates.free hcreates.nonempty)
      cases hnew.symm.trans hopened
      exact ⟨last, hgrows⟩

/-- The world after the parents of an entry were made and the entry unpacked. -/
def unpacked (pf : Platform) (made : World Name) (kind : EntryKind) (target : List Name) :
    World Name :=
  match pf.unpack made kind target with
  | .ok world => world
  | .error _ => made

theorem world_extractTarEntry (hkind : kind ≠ .directory) :
    (pf.extractTarEntry out name kind target).world =
      unpacked pf (out.world.createDirAll pf.limit target.tail).1 kind target := by
  rw [Platform.extractTarEntry, if_neg hkind, createParents_eq, unpacked]
  cases hunpack : pf.unpack (out.world.createDirAll pf.limit target.tail).1 kind target with
  | ok world => simp only [hunpack]
  | error e => simp only [hunpack]

theorem leadsInside_iff_of_none (hkind : kind ≠ .directory)
    (hneeded : t.needed pf.limit target.tail = none) :
    LeadsInside pf dest t kind target ↔ (kind = .regular → pf.replaces t target = false →
      ∀ real, t.opened pf.limit target = some real → dest <:+ real) := by
  refine ⟨LeadsInside.written, fun h => ⟨fun dir names hsome => ?_, h⟩⟩
  rw [if_neg hkind, hneeded] at hsome
  cases hsome

theorem leadsInside_iff_of_some {dir names : List Name} (hkind : kind ≠ .directory)
    (hneeded : t.needed pf.limit target.tail = some (dir, names)) :
    LeadsInside pf dest t kind target ↔ dest <:+ dir := by
  constructor
  · intro h
    have hmade := h.made
    rw [if_neg hkind] at hmade
    exact hmade dir names hneeded
  · refine fun hdir => ⟨fun dir' names' hsome => ?_, fun _ _ real hopened => ?_⟩
    · rw [if_neg hkind, hneeded] at hsome
      cases hsome
      exact hdir
    · cases target with
      | nil => cases hneeded
      | cons last parent =>
        obtain ⟨d, l, hfound⟩ := FsTree.found_of_opened hopened
        exact absurd hfound (FsTree.not_found_of_needed hneeded d l)

theorem inside_unpacked_of_none (hdest : w.tree.node dest = some .dir) (hkind : kind ≠ .directory)
    (hjoin : pf.safeJoin w.tree dest name = some target)
    (hneeded : w.tree.needed pf.limit target.tail = none) :
    Inside dest (unpacked pf w kind target) ↔
      Inside dest w ∧ LeadsInside pf dest w.tree kind target := by
  rw [leadsInside_iff_of_none hkind hneeded, unpacked]
  cases hunpack : pf.unpack w kind target with
  | ok w' => exact inside_unpack hdest hkind hjoin hunpack
  | error e =>
    refine (and_iff_left fun hr hk real hopened => ?_).symm
    rw [hr] at hunpack
    obtain ⟨w', hw'⟩ := exists_unpack hopened hk
    cases hunpack.symm.trans hw'

theorem inside_unpacked_of_some {dir names : List Name} (hdest : w.tree.node dest = some .dir)
    (hkind : kind ≠ .directory) (hneeded : w.tree.needed pf.limit target.tail = some (dir, names)) :
    Inside dest (unpacked pf (w.createDirAll pf.limit target.tail).1 kind target) ↔
      Inside dest w ∧ LeadsInside pf dest w.tree kind target := by
  have hcreates := (World.createDirAll_needed pf.limit target.tail).2 dir names hneeded
  obtain ⟨logged, hgrows, hlogged⟩ := grows_createDirAll hdest pf.limit target.tail
  have hdirs : (∀ p ∈ logged, dest <:+ p) ↔ dest <:+ dir := by
    rw [hlogged]
    refine ⟨fun h => h dir names hneeded, fun h d n heq => ?_⟩
    cases hneeded.symm.trans heq
    exact h
  rw [leadsInside_iff_of_some hkind hneeded, ← hdirs, ← inside_of_grows hgrows, unpacked]
  cases hunpack : pf.unpack (w.createDirAll pf.limit target.tail).1 kind target with
  | error e => rfl
  | ok w' =>
    rw [hcreates.result] at hunpack hgrows ⊢
    obtain ⟨last, hlast⟩ := grows_unpack_made hkind hcreates hunpack
    rw [inside_of_grows hlast, inside_of_grows hgrows]
    refine and_iff_left_of_imp fun h p hp => ?_
    rw [List.mem_singleton.mp hp, ← List.cons_append]
    exact List.suffix_append_of_suffix (hdirs.mp h.2)

/-- Unpacking removes no directory. -/
theorem dest_unpacked (hkind : kind ≠ .directory) {made : World Name}
    (hdest : made.tree.node dest = some .dir) :
    (unpacked pf made kind target).tree.node dest = some .dir := by
  rw [unpacked]
  cases hunpack : pf.unpack made kind target with
  | error e => exact hdest
  | ok w' =>
    rcases grows_unpack hkind hunpack with ⟨_, last, parent, dir, l, _, _, hgrows⟩ |
      ⟨_, real, _, hgrows⟩
    · exact hgrows.dirs dest hdest
    · exact hgrows.dirs dest hdest

/-- One accepted entry stays inside exactly when it leads inside. -/
theorem inside_extractTarEntry (hdest : out.world.tree.node dest = some .dir)
    (hjoin : pf.safeJoin out.world.tree dest name = some target) (kind : EntryKind) :
    (Inside dest (pf.extractTarEntry out name kind target).world ↔
      Inside dest out.world ∧ LeadsInside pf dest out.world.tree kind target) ∧
    (pf.extractTarEntry out name kind target).world.tree.node dest = some .dir := by
  by_cases hkind : kind = .directory
  · obtain ⟨logged, hgrows, hlogged⟩ := grows_createDirAll hdest pf.limit target
    rw [Platform.extractTarEntry, if_pos hkind]
    refine ⟨?_, hgrows.dirs dest hdest⟩
    rw [inside_of_grows hgrows, hlogged]
    refine and_congr_right fun _ => ⟨fun h => ⟨?_, fun hr => ?_⟩, fun h => ?_⟩
    · rw [if_pos hkind]
      exact h
    · rw [hkind] at hr
      cases hr
    · have hmade := h.made
      rw [if_pos hkind] at hmade
      exact hmade
  · rw [world_extractTarEntry hkind]
    obtain ⟨logged, hgrows, _⟩ := grows_createDirAll hdest pf.limit target.tail
    refine ⟨?_, dest_unpacked hkind (hgrows.dirs dest hdest)⟩
    cases hneeded : out.world.tree.needed pf.limit target.tail with
    | none =>
      rw [(World.createDirAll_needed pf.limit target.tail).1 hneeded]
      exact inside_unpacked_of_none hdest hkind hjoin hneeded
    | some made => exact inside_unpacked_of_some hdest hkind hneeded

theorem inside_extractTarItem (pf : Platform)
    (hdest : out.world.tree.node dest = some .dir) (item : TarItem) :
    (Inside dest (pf.extractTarItem dest out item).world ↔
      Inside dest out.world ∧ ItemLeadsInside pf dest out.world.tree item) ∧
    (pf.extractTarItem dest out item).world.tree.node dest = some .dir := by
  cases item with
  | iterFailed err => exact ⟨(and_iff_left trivial).symm, hdest⟩
  | pathFailed err => exact ⟨(and_iff_left trivial).symm, hdest⟩
  | entry e =>
    rw [Platform.extractTarItem, ItemLeadsInside]
    cases hjoin : pf.safeJoin out.world.tree dest e.name with
    | none =>
      refine ⟨(and_iff_left fun target htarget => ?_).symm, hdest⟩
      cases htarget
    | some target =>
      obtain ⟨hinside, hdest'⟩ := inside_extractTarEntry hdest hjoin e.kind
      refine ⟨hinside.trans (and_congr_right fun _ => ?_), hdest'⟩
      refine ⟨fun h target' htarget => ?_, fun h => h target rfl⟩
      cases htarget
      exact h

/-- A whole tar archive, by induction on its items. -/
theorem inside_extractTarItems (pf : Platform) (hdest : out.world.tree.node dest = some .dir)
    (items : List TarItem) :
    Inside dest (items.foldl (pf.extractTarItem dest) out).world ↔
      Inside dest out.world ∧ AllLeadInside pf dest out items := by
  induction items generalizing out with
  | nil => exact (and_iff_left trivial).symm
  | cons item rest ih =>
    obtain ⟨hinside, hdest'⟩ := inside_extractTarItem pf hdest item
    rw [List.foldl_cons, ih hdest', hinside, AllLeadInside, and_assoc]

/-- No link stands below the destination, and nothing was written elsewhere. -/
structure Clean (dest : List Name) (w : World Name) : Prop where
  isDir : w.tree.node dest = some .dir
  noLink : ∀ a target, w.tree.node (a ++ dest) ≠ some (.link target)
  inside : Inside dest w

theorem clean_of_empty (hdest : w.tree.node dest = some .dir)
    (hempty : ∀ name, w.tree.node (name :: dest) = none) (hlog : w.log = []) : Clean dest w := by
  have habsent : ∀ a, a ≠ [] → w.tree.node (a ++ dest) = none := by
    intro a
    induction a with
    | nil => exact fun h => absurd rfl h
    | cons name a ih =>
      intro _
      by_cases ha : a = []
      · rw [ha]
        exact hempty name
      · by_contra hsome
        have hparent := w.tree.parent name (a ++ dest) hsome
        rw [ih ha] at hparent
        cases hparent
  refine ⟨hdest, fun a target h => ?_, fun p hp => ?_⟩
  · by_cases ha : a = []
    · rw [ha, List.nil_append, hdest] at h
      cases h
    · rw [habsent a ha] at h
      cases h
  · rw [hlog] at hp
    exact absurd hp List.not_mem_nil

/-- Without links a path below the destination leads where it says. -/
theorem Clean.resolve (h : Clean dest w) (limit : Nat) (a : List Name) :
    (∃ l, w.tree.resolve limit (a ++ dest) = .found (a ++ dest) l) ∨
      (∃ dir last, w.tree.resolve limit (a ++ dest) = .missing dir last ∧
        last :: dir = a ++ dest) ∨
      ∃ e, w.tree.resolve limit (a ++ dest) = .error e := by
  induction a with
  | nil => exact Or.inl ⟨limit, FsTree.resolve_real h.isDir⟩
  | cons name a ih =>
    rw [List.cons_append, FsTree.resolve_cons]
    rcases ih with ⟨l, hl⟩ | ⟨dir, last, hl, _⟩ | ⟨e, hl⟩
    · rw [hl, FsTree.continueWith]
      split
      · cases hnode : w.tree.node (name :: (a ++ dest)) with
        | none =>
          refine Or.inr (Or.inl ⟨a ++ dest, name, ?_, rfl⟩)
          cases l <;> rw [FsTree.walk, FsTree.walkWith, hnode] <;> rfl
        | some n =>
          cases n with
          | dir =>
            rw [FsTree.walk_dir hnode, FsTree.walk_nil]
            exact Or.inl ⟨l, rfl⟩
          | file =>
            refine Or.inl ⟨l, ?_⟩
            cases l <;> rw [FsTree.walk, FsTree.walkWith, hnode] <;> rfl
          | link target => exact absurd hnode (h.noLink (name :: a) target)
      · exact Or.inr (Or.inr ⟨_, rfl⟩)
    · rw [hl]
      exact Or.inr (Or.inr ⟨_, rfl⟩)
    · rw [hl]
      exact Or.inr (Or.inr ⟨_, rfl⟩)

theorem Clean.needed (h : Clean dest w) {limit : Nat} {a dir names : List Name}
    (hneeded : w.tree.needed limit (a ++ dest) = some (dir, names)) : dest <:+ dir := by
  induction a generalizing names with
  | nil => exact absurd (FsTree.resolve_real h.isDir) (FsTree.not_found_of_needed hneeded dest limit)
  | cons name a ih =>
    rw [List.cons_append, FsTree.needed] at hneeded
    rcases h.resolve limit a with ⟨l, hl⟩ | ⟨d, last, hl, _⟩ | ⟨e, hl⟩
    · rw [hl] at hneeded
      simp only at hneeded
      split at hneeded
      · cases hneeded
        exact List.suffix_append a dest
      · cases hneeded
    · rw [hl] at hneeded
      obtain ⟨made, hmade, heq⟩ := Option.map_eq_some_iff.mp hneeded
      cases heq
      exact ih hmade
    · rw [hl] at hneeded
      cases e <;> simp only at hneeded <;> first | cases hneeded | skip
      obtain ⟨made, hmade, heq⟩ := Option.map_eq_some_iff.mp hneeded
      cases heq
      exact ih hmade

theorem Clean.opened (h : Clean dest w) {limit : Nat} {a real : List Name}
    (hopened : w.tree.opened limit (a ++ dest) = some real) : real = a ++ dest := by
  rw [FsTree.opened] at hopened
  rcases h.resolve limit a with ⟨l, hl⟩ | ⟨d, last, hl, heq⟩ | ⟨e, hl⟩
  · rw [hl] at hopened
    simp only at hopened
    split at hopened
    · cases hopened
    · cases hopened
      rfl
  · rw [hl] at hopened
    cases hopened
    exact heq
  · rw [hl] at hopened
    cases hopened

theorem Clean.createParents (pf : Platform) (h : Clean dest w) (htarget : dest <:+ target) :
    Clean dest (pf.createParents w target) := by
  have hinside : ∀ dir names, w.tree.needed pf.limit target.tail = some (dir, names) →
      dest <:+ dir := by
    intro dir names hneeded
    obtain ⟨a, rfl⟩ := htarget
    cases a with
    | nil =>
      have hparent : w.tree.resolve pf.limit dest.tail = .found dest.tail pf.limit :=
        FsTree.resolve_real (FsTree.node_tail h.isDir)
      exact absurd hparent (FsTree.not_found_of_needed hneeded _ _)
    | cons name a => exact h.needed hneeded
  obtain ⟨logged, hgrows, hlogged⟩ := grows_createDirAll h.isDir pf.limit target.tail
  obtain ⟨hnone, hsome⟩ := World.createDirAll_needed pf.limit target.tail (w := w)
  rw [createParents_eq]
  refine ⟨hgrows.dirs dest h.isDir, ?_, (inside_of_grows hgrows).mpr
    ⟨h.inside, hlogged.mpr hinside⟩⟩
  cases hneeded : w.tree.needed pf.limit target.tail with
  | none =>
    rw [hnone hneeded]
    exact h.noLink
  | some made =>
    have hcreates := hsome made.1 made.2 hneeded
    have hmade := World.makeDirs_made hcreates.free
    intro a link hlink
    rw [hcreates.result] at hlink
    rcases hmade.frame (a ++ dest) with heq | ⟨hdir, _⟩
    · exact h.noLink a link (heq ▸ hlink)
    · cases hdir.symm.trans hlink

theorem Clean.create (h : Clean dest w) {limit : Nat} (htarget : dest <:+ target)
    (hcreate : w.create limit target = .ok w') : Clean dest w' := by
  obtain ⟨a, rfl⟩ := htarget
  obtain ⟨real, hopened, hgrows⟩ := grows_create hcreate
  obtain ⟨_, _, _, hframe⟩ := World.opened_of_create hcreate
  refine ⟨hgrows.dirs dest h.isDir, fun b link hlink => ?_, (inside_of_grows hgrows).mpr
    ⟨h.inside, fun p hp => ?_⟩⟩
  · rcases hframe (b ++ dest) with heq | ⟨hfile, _⟩
    · exact h.noLink b link (heq ▸ hlink)
    · cases hfile.symm.trans hlink
  · rw [List.mem_singleton.mp hp, h.opened hopened]
    exact List.suffix_append a dest

theorem suffix_of_pushComponents {joined : List Name} {parts : List (Component Name)}
    (h : pushComponents joined parts = some target) : joined <:+ target := by
  induction parts generalizing joined with
  | nil =>
    cases h
    exact List.suffix_rfl
  | cons c rest ih =>
    cases c with
    | normal part => exact (List.suffix_cons part joined).trans (ih h)
    | curDir => exact ih h
    | parentDir => cases h
    | rootDir => cases h

theorem suffix_of_safeJoin (h : pf.safeJoin t dest name = some target) : dest <:+ target := by
  rw [Platform.safeJoin] at h
  obtain ⟨joined, hjoined, h⟩ := Option.bind_eq_some_iff.mp h
  obtain ⟨canonDest, _, h⟩ := Option.bind_eq_some_iff.mp h
  have heq : joined = target := by
    cases hparent : (parentOf joined).bind (pf.canonicalize t) with
    | none =>
      rw [hparent] at h
      exact Option.some.inj h
    | some real =>
      rw [hparent] at h
      exact (Option.ite_none_right_eq_some.mp h).2 |> Option.some.inj
  exact heq ▸ suffix_of_pushComponents hjoined

theorem Clean.extractZipItem (h : Clean dest out.world) (index : Nat) (item : ZipItem) :
    Clean dest (pf.extractZipItem dest index out item).world := by
  cases item with
  | needsPassword => exact h
  | openFailed err => exact h
  | entry name isDir readError =>
    rw [Platform.extractZipItem]
    split
    · exact h
    · rw [Platform.extractZipEntry]
      cases hjoin : pf.safeJoin out.world.tree dest name with
      | none => exact h
      | some target =>
        have hin := suffix_of_safeJoin hjoin
        have hmade := h.createParents pf hin
        cases readError with
        | some err => exact hmade
        | none =>
          cases hcreate : (pf.createParents out.world target).create pf.limit target with
          | ok world =>
            simp only [hcreate]
            exact hmade.create hin hcreate
          | error e =>
            simp only [hcreate]
            exact hmade

theorem Clean.extractZipItems (h : Clean dest out.world) (index : Nat) (items : List ZipItem) :
    Clean dest (pf.extractZipItems dest index out items).1.world := by
  induction items generalizing index out with
  | nil => exact h
  | cons item rest ih =>
    cases item with
    | needsPassword => exact h
    | openFailed err => exact ih (h.extractZipItem index (.openFailed err)) (index + 1)
    | entry name isDir readError =>
      exact ih (h.extractZipItem index (.entry name isDir readError)) (index + 1)

/-- A zip archive never leaves the destination, whichever passwords are tried. -/
theorem Clean.extractZip (h : Clean dest w) (listing : String → Except String (List ZipItem))
    (passwords : List String) : Clean dest (pf.extractZip dest listing passwords w).world := by
  induction passwords generalizing w with
  | nil => exact h
  | cons password rest ih =>
    rw [Platform.extractZip]
    cases listing password with
    | error err => exact h
    | ok items =>
      have hitems : Clean dest (pf.extractZipItems dest 0 ⟨w, [], []⟩ items).1.world :=
        Clean.extractZipItems h 0 items
      simp only
      split
      · exact ih hitems
      · exact hitems

/-- Into an empty directory a zip archive is extracted inside, and a tar archive exactly when
each of its entries leads inside in the tree that it meets. -/
theorem extraction_inside_iff (pf : Platform) (dest : List Name) (archive : Archive)
    (w : World Name) (hdest : w.tree.node dest = some .dir)
    (hempty : ∀ name, w.tree.node (name :: dest) = none) (hlog : w.log = []) :
    Inside dest (pf.extractArchive dest archive w).world ↔
      ∀ items, archive = .tar (.ok items) → AllLeadInside pf dest ⟨w, [], []⟩ items := by
  have hclean := clean_of_empty hdest hempty hlog
  rw [Platform.extractArchive, World.createDirAll_real hdest]
  cases archive with
  | zip listing =>
    refine ⟨fun _ items heq => ?_, fun _ => (hclean.extractZip listing _).inside⟩
    cases heq
  | tar listing =>
    cases listing with
    | error err =>
      refine ⟨fun _ items heq => ?_, fun _ => hclean.inside⟩
      cases heq
    | ok items =>
      have hstart : (⟨w, [], []⟩ : ExtractionResult).world.tree.node dest = some .dir := hdest
      have hitems := inside_extractTarItems pf hstart items
      refine hitems.trans ((and_iff_right hclean.inside).trans ⟨fun h items' heq => ?_, fun h => ?_⟩)
      · cases heq
        exact h
      · exact h items rfl

def rootOnly : FsTree Name where
  node p := if p = [] then some .dir else none
  root := if_pos rfl
  parent _ _ h := absurd (if_neg (List.cons_ne_nil _ _)) h

/-- A tree with a destination and another directory beside it. -/
def twoDirs : World Name :=
  { ((⟨rootOnly, []⟩ : World Name).make [] "dest".toList .dir).make [] "out".toList .dir with
    log := [] }

def unixPlatform : Platform := ⟨40, [], fun _ _ => false, fun _ => ""⟩

theorem twoDirs_empty (name : Name) : twoDirs.tree.node [name, "dest".toList] = none := by
  have hfirst : rootOnly.node ["dest".toList] ≠ some .dir := by decide
  have hdest := World.make_node (w := ⟨rootOnly, []⟩) (n := .dir) (p := [name, "dest".toList])
    rootOnly.root hfirst
  have hroot : ((⟨rootOnly, []⟩ : World Name).make [] "dest".toList .dir).tree.node [] = some .dir :=
    FsTree.root _
  have hsecond : ((⟨rootOnly, []⟩ : World Name).make [] "dest".toList .dir).tree.node
      ["out".toList] ≠ some .dir := by decide
  have hout := World.make_node (n := .dir) (p := [name, "dest".toList]) hroot hsecond
  have hlen : ∀ last : Name, [name, "dest".toList] ≠ [last] := fun _ h => by
    have := congrArg List.length h
    cases this
  have hboth : twoDirs.tree.node [name, "dest".toList] = rootOnly.node [name, "dest".toList] := by
    rw [if_neg (hlen _)] at hout hdest
    exact hout.trans hdest
  rw [hboth]
  rfl

theorem extraction_inside_oneFile :
    Inside ["dest".toList] (unixPlatform.extractArchive ["dest".toList]
      (.tar (.ok [.entry ⟨"a".toList, .regular⟩])) twoDirs).world := by
  refine (extraction_inside_iff unixPlatform ["dest".toList] _ twoDirs (by decide)
    twoDirs_empty rfl).mpr fun items heq => ?_
  cases heq
  refine ⟨fun target htarget => ?_, trivial⟩
  have hjoin : unixPlatform.safeJoin twoDirs.tree ["dest".toList] "a".toList =
      some ["a".toList, "dest".toList] := by decide
  cases hjoin.symm.trans htarget
  have hneeded : twoDirs.tree.needed 40 ["dest".toList] = none := by decide
  have hopened : twoDirs.tree.opened 40 ["a".toList, "dest".toList] =
      some ["a".toList, "dest".toList] := by decide
  refine (leadsInside_iff_of_none (by decide) hneeded).mpr fun _ _ real hreal => ?_
  cases hopened.symm.trans hreal
  exact List.suffix_cons _ _

/-- A link to the other directory, and a file in a new directory behind the link. -/
def linkThenFile : List TarItem :=
  [.entry ⟨"a".toList, .symlink [.rootDir, .normal "out".toList]⟩,
    .entry ⟨"a/new/b".toList, .regular⟩]

theorem link_leads_outside :
    twoDirs.tree.node ["dest".toList] = some .dir ∧
      (∀ name, twoDirs.tree.node [name, "dest".toList] = none) ∧ twoDirs.log = [] ∧
      ¬ Inside ["dest".toList] (unixPlatform.extractArchive ["dest".toList]
        (.tar (.ok linkThenFile)) twoDirs).world := by
  refine ⟨by decide, twoDirs_empty, rfl, fun h => ?_⟩
  have hmem : ["new".toList, "out".toList] ∈ (unixPlatform.extractArchive ["dest".toList]
      (.tar (.ok linkThenFile)) twoDirs).world.log := by decide
  exact absurd (h _ hmem) (by decide)

end Axe.Extract
