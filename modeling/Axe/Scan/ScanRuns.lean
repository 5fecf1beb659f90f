import Axe.Scan.FolderScan
import Mathlib.Algebra.BigOperators.Group.List.Basic

/-!
# What a scan finds

A file is reachable when the walk comes to it, or when an archive that is reachable with depth
left unpacks it. Every scan ends, since an item costs no more steps than the archives below it
have files. A scan whose steps are safe keeps to its limits, and if it did not come to a limit,
its samples are the binaries that are reachable.
-/
namespace Axe.Scan

open Runs

variable {Hash : Type} {folder : Folder} {opts : ScanOptions} {sha256Hex : Bytes → Hash}

/-- The files that an archive unpacks; another file has none. -/
def Folder.filesOf (folder : Folder) (path : ScanPath) : List ScanPath :=
  if folder.classify path = .archive then
    ((folder.extractArchive path).getD []).map (.extracted (folder.read path))
  else []

/-- The file can be reached with so many archives still to be opened below it. -/
inductive Reachable (folder : Folder) (opts : ScanOptions) : ScanPath → Nat → Prop
  | root {path : List Name} (h : path ∈ folder.tree.walk opts.maxDepth) :
    Reachable folder opts (.root path) opts.archiveDepth
  | unpacked {path inner : ScanPath} {depth : Nat} (h : Reachable folder opts path (depth + 1))
    (hinner : inner ∈ folder.filesOf path) : Reachable folder opts inner depth

def Folder.sizes (folder : Folder) (paths : List ScanPath) : Nat :=
  (paths.map fun path => (folder.read path).length).sum

/-- What was enqueued keeps to the limits. -/
structure Respects (folder : Folder) (opts : ScanOptions) (s : ScanState Hash) : Prop where
  files : s.enqueuedPaths.length ≤ opts.maxFiles
  bytes : folder.sizes s.enqueuedPaths ≤ opts.maxBytes

/-- The samples are the reachable binaries, each under its hash. -/
structure Analyses (folder : Folder) (opts : ScanOptions) (sha256Hex : Bytes → Hash)
    (s : ScanState Hash) : Prop where
  hashes : ∀ sha, sha ∈ s.samples.map (·.sha256) ↔ ∃ path depth, Reachable folder opts path depth ∧
    (folder.classify path).IsBinary ∧ sha256Hex (folder.read path) = sha
  listed : ∀ path depth, Reachable folder opts path depth → (folder.classify path).IsBinary →
    ∃ e ∈ s.samples, e.sha256 = sha256Hex (folder.read path) ∧ path ∈ e.paths

/-- The limits are checked as if against the whole scan: a file that is enqueued is within them,
and a file that is enqueued already ends no loop that still has new files. -/
structure ChecksLimits (folder : Folder) (opts : ScanOptions) (s : ScanState Hash) : Prop where
  fits : ∀ path rest, s.batch.files = path :: rest → path ∉ s.enqueuedPaths →
    ¬ s.limitFires folder opts path → (folder.read path).length ≤ opts.singleFileByteLimit →
    s.enqueuedPaths.length < opts.maxFiles ∧
      s.totalBytesEnqueued + (folder.read path).length < 2 ^ 64
  known : ∀ path rest, s.batch.files = path :: rest → path ∈ s.enqueuedPaths →
    s.limitFires folder opts path → rest ⊆ s.enqueuedPaths

/-- No archive is refused that can be reached with depth left. -/
def OpensReachable (folder : Folder) (opts : ScanOptions) (item : QueueItem Hash) : Prop :=
  folder.classify item.path = .archive → refusesArchive opts item = true →
    ∀ depth, ¬ Reachable folder opts item.path (depth + 1)

/-- A step that keeps to the limits and refuses no archive for the depth of another copy. -/
def SafeStep (folder : Folder) (opts : ScanOptions) (s : ScanState Hash) : Action Hash → Prop
  | .consider => ChecksLimits folder opts s
  | .pop item => OpensReachable folder opts item

/-- Every reachable file that is over the limit for one file is of no kind the scan looks for. -/
def NoneOversized (folder : Folder) (opts : ScanOptions) : Prop :=
  ∀ path depth, Reachable folder opts path depth →
    opts.singleFileByteLimit < (folder.read path).length → folder.classify path = .other

/-- Both loops are over. -/
def ScanState.Ended (s : ScanState Hash) : Prop := s.batch.files = [] ∧ s.queue = []

section Consider
variable {s : ScanState Hash} {path : ScanPath} {rest : List ScanPath}

inductive ConsiderSpec (folder : Folder) (opts : ScanOptions) (s : ScanState Hash)
    (path : ScanPath) (rest : List ScanPath) : ScanState Hash → Prop
  | left (hfires : s.limitFires folder opts path) (reason : String) :
    ConsiderSpec folder opts s path rest (s.leave path reason)
  | oversized (hsize : opts.singleFileByteLimit < (folder.read path).length) (reason : String) :
    ConsiderSpec folder opts s path rest
      ({ s with batch := { s.batch with files := rest } }.skip path reason)
  | known (hmem : path ∈ s.enqueuedPaths) :
    ConsiderSpec folder opts s path rest { s with batch := { s.batch with files := rest } }
  | enqueued (hfires : ¬ s.limitFires folder opts path)
    (hsize : (folder.read path).length ≤ opts.singleFileByteLimit)
    (hmem : path ∉ s.enqueuedPaths) :
    ConsiderSpec folder opts s path rest
      { s with
        batch := { s.batch with files := rest }
        queue := s.queue ++
          [⟨path, (folder.read path).length, s.batch.extractedFrom, s.batch.depth⟩]
        enqueuedPaths := s.enqueuedPaths ++ [path]
        totalBytesEnqueued := s.bytesWith folder path }

theorem consider_spec :
    ConsiderSpec folder opts s path rest (s.considerFile folder opts path rest) := by
  simp only [ScanState.considerFile]
  split
  · next hfull => exact .left (.inl hfull) _
  · next hroom =>
    split
    · next hsize => exact .oversized hsize _
    · next hsize =>
      have hle := Nat.le_of_not_lt hsize
      split
      · next hbytes => exact .left (.inr ⟨hle, hbytes⟩) _
      · next hbytes =>
        split
        · next hmem => exact .known hmem
        · next hmem =>
          exact .enqueued (fun h => h.elim hroom fun h => hbytes h.2) hle hmem

end Consider

section Pop
variable [DecidableEq Hash] {s : ScanState Hash} {item : QueueItem Hash}

inductive ProcessSpec (folder : Folder) (opts : ScanOptions) (sha256Hex : Bytes → Hash)
    (s : ScanState Hash) (item : QueueItem Hash) : ScanState Hash → Prop
  | refused (harchive : folder.classify item.path = .archive)
    (hrefuses : refusesArchive opts item = true ∨ folder.filesOf item.path = []) (count : Nat)
    (skipped : List SkippedEntry) :
    ProcessSpec folder opts sha256Hex s item { s with archiveCount := count, skipped := skipped }
  | opened (harchive : folder.classify item.path = .archive)
    (hrefuses : refusesArchive opts item = false) (count : Nat) (extractedFrom : Option Hash) :
    ProcessSpec folder opts sha256Hex s item
      { s with
        archiveCount := count
        batch :=
          { files := folder.filesOf item.path
            extractedFrom := extractedFrom
            depth := item.archiveDepthRemaining - 1 } }
  | unsupported (hother : folder.classify item.path = .other) (reason : String) :
    ProcessSpec folder opts sha256Hex s item (s.skip item.path reason)
  | sample (hbinary : (folder.classify item.path).IsBinary) (format : Classification) :
    ProcessSpec folder opts sha256Hex s item
      { s with samples := putSample s.samples (sha256Hex (folder.read item.path)) item format }

theorem process_spec :
    ProcessSpec folder opts sha256Hex s item (s.process folder opts sha256Hex item) := by
  unfold ScanState.process
  cases hclass : folder.classify item.path with
  | pe => exact .sample (by rw [hclass]; exact .inl rfl) _
  | elf => exact .sample (by rw [hclass]; exact .inr (.inl rfl)) _
  | machO => exact .sample (by rw [hclass]; exact .inr (.inr rfl)) _
  | other => exact .unsupported hclass _
  | archive =>
    cases hrefuses : refusesArchive opts item with
    | true =>
      simp only [if_true]
      exact .refused hclass (.inl hrefuses) _ _
    | false =>
      simp only [Bool.false_eq_true, if_false, ScanState.handleArchive]
      cases hextract : folder.extractArchive item.path with
      | none =>
        refine .refused hclass (.inr ?_) _ _
        simp [Folder.filesOf, hextract]
      | some files =>
        have hfiles : folder.filesOf item.path =
            files.map (.extracted (folder.read item.path)) := by
          simp [Folder.filesOf, hclass, hextract]
        have hopened : ProcessSpec folder opts sha256Hex s item _ := .opened hclass hrefuses
          (s.archiveCount + 1) (some (sha256Hex (folder.read item.path)))
        rw [hfiles] at hopened
        exact hopened

end Pop

inductive StepSpec (folder : Folder) (opts : ScanOptions) (sha256Hex : Bytes → Hash)
    [DecidableEq Hash] (s : ScanState Hash) : Action Hash → ScanState Hash → Prop
  | consider {path : ScanPath} {rest : List ScanPath} {s' : ScanState Hash}
    (hbatch : s.batch.files = path :: rest) (h : ConsiderSpec folder opts s path rest s') :
    StepSpec folder opts sha256Hex s .consider s'
  | pop {item : QueueItem Hash} {s' : ScanState Hash} (hbatch : s.batch.files = [])
    (hitem : item ∈ s.queue) (h : ProcessSpec folder opts sha256Hex
      { s with queue := s.queue.erase item, scheduled := s.scheduled + 1 } item s') :
    StepSpec folder opts sha256Hex s (.pop item) s'

variable [DecidableEq Hash] {s s' : ScanState Hash} {a : Action Hash}
  {actions : List (Action Hash)}

theorem step_spec (h : s.step folder opts sha256Hex a = some s') :
    StepSpec folder opts sha256Hex s a s' := by
  cases a with
  | consider =>
    simp only [ScanState.step] at h
    cases hbatch : s.batch.files with
    | nil =>
      rw [hbatch] at h
      cases h
    | cons path rest =>
      simp only [hbatch, Option.some.injEq] at h
      exact .consider hbatch (h ▸ consider_spec)
  | pop item =>
    simp only [ScanState.step, Option.ite_none_right_eq_some, Option.some.injEq] at h
    obtain ⟨⟨hbatch, hitem, -⟩, h⟩ := h
    exact .pop hbatch hitem (h ▸ process_spec)

section Samples
variable {samples : List (SampleEntry Hash)} {sha sha' : Hash} {item : QueueItem Hash}
  {format : Classification} {path : ScanPath}

/-- A path stands under the sample of its hash. -/
def Lists (samples : List (SampleEntry Hash)) (sha : Hash) (path : ScanPath) : Prop :=
  ∃ e ∈ samples, e.sha256 = sha ∧ path ∈ e.paths

theorem putSample_lists : Lists (putSample samples sha item format) sha item.path := by
  unfold putSample
  split
  · next hany =>
    obtain ⟨e, he, hsha⟩ := List.any_eq_true.mp hany
    have heq : e.sha256 = sha := of_decide_eq_true hsha
    refine ⟨_, List.mem_map_of_mem he, ?_⟩
    rw [if_pos heq]
    exact ⟨heq, List.mem_append_right _ (List.mem_singleton_self _)⟩
  · exact ⟨_, List.mem_append_right _ (List.mem_singleton_self _), rfl, List.mem_singleton_self _⟩

theorem putSample_keeps (h : Lists samples sha' path) :
    Lists (putSample samples sha item format) sha' path := by
  obtain ⟨e, he, hsha, hpath⟩ := h
  unfold putSample
  split
  · refine ⟨_, List.mem_map_of_mem he, ?_⟩
    split
    · exact ⟨hsha, List.mem_append_left _ hpath⟩
    · exact ⟨hsha, hpath⟩
  · exact ⟨e, List.mem_append_left _ he, hsha, hpath⟩

/-- A sample has the hash of one that was there, or of the item. -/
theorem mem_putSample {e : SampleEntry Hash} (he : e ∈ putSample samples sha item format) :
    (∃ old ∈ samples, e.sha256 = old.sha256) ∨ e.sha256 = sha := by
  unfold putSample at he
  split at he
  · obtain ⟨old, hold, rfl⟩ := List.mem_map.mp he
    refine .inl ⟨old, hold, ?_⟩
    split <;> rfl
  · rcases List.mem_append.mp he with he | he
    · exact .inl ⟨e, he, rfl⟩
    · exact .inr (by rw [List.mem_singleton.mp he])

end Samples

/-- The steps that an item can cause, itself counted. -/
def Folder.cost (folder : Folder) : Nat → ScanPath → Nat
  | 0, _ => 1
  | depth + 1, path =>
    1 + ((folder.filesOf path).map fun inner => 1 + Folder.cost folder depth inner).sum

def Folder.batchCost (folder : Folder) (depth : Nat) (files : List ScanPath) : Nat :=
  (files.map fun path => 1 + folder.cost depth path).sum

def ScanState.cost (folder : Folder) (s : ScanState Hash) : Nat :=
  folder.batchCost s.batch.depth s.batch.files +
    (s.queue.map fun item => folder.cost item.archiveDepthRemaining item.path).sum

theorem one_le_cost (folder : Folder) (depth : Nat) (path : ScanPath) :
    1 ≤ folder.cost depth path := by
  cases depth with
  | zero => exact Nat.le_refl 1
  | succ depth => exact Nat.le_add_right 1 _

theorem cost_step (h : s.step folder opts sha256Hex a = some s') : s'.cost folder < s.cost folder := by
  cases step_spec h with
  | @consider path rest _ hbatch h =>
    have hcost : folder.batchCost s.batch.depth s.batch.files =
        1 + folder.cost s.batch.depth path + folder.batchCost s.batch.depth rest := by
      rw [hbatch]
      rfl
    cases h with
    | left _ _ =>
      have hempty : folder.batchCost s.batch.depth [] = 0 := rfl
      simp only [ScanState.cost, ScanState.leave, hcost, hempty]
      omega
    | oversized _ _ =>
      simp only [ScanState.cost, ScanState.skip, hcost]
      omega
    | known _ =>
      simp only [ScanState.cost, hcost]
      omega
    | enqueued _ _ _ =>
      simp only [ScanState.cost, hcost, List.map_append, List.sum_append, List.map_cons,
        List.map_nil, List.sum_cons, List.sum_nil]
      omega
  | @pop item _ hbatch hitem h =>
    have hqueue := List.sum_map_erase
      (fun item : QueueItem Hash => folder.cost item.archiveDepthRemaining item.path) hitem
    have hone := one_le_cost folder item.archiveDepthRemaining item.path
    have hempty : folder.batchCost s.batch.depth s.batch.files = 0 := by
      rw [hbatch]
      rfl
    cases h with
    | refused _ _ _ _ | unsupported _ _ | sample _ _ =>
      simp only [ScanState.cost, ScanState.skip]
      omega
    | opened _ hrefuses _ _ =>
      simp only [refusesArchive, Bool.or_eq_false_iff, decide_eq_false_iff_not] at hrefuses
      obtain ⟨depth, hdepth⟩ := Nat.exists_eq_succ_of_ne_zero hrefuses.2
      have hcost : folder.cost item.archiveDepthRemaining item.path =
          1 + folder.batchCost (item.archiveDepthRemaining - 1) (folder.filesOf item.path) := by
        rw [hdepth]
        rfl
      simp only [ScanState.cost]
      omega

omit [DecidableEq Hash] in
/-- The queue has a largest item. -/
theorem exists_largest {queue : List (QueueItem Hash)} (h : queue ≠ []) :
    ∃ item ∈ queue, ∀ other ∈ queue, other.size ≤ item.size := by
  induction queue with
  | nil => exact (h rfl).elim
  | cons head rest ih =>
    by_cases hrest : rest = []
    · subst hrest
      exact ⟨head, List.mem_singleton_self _, fun other hother => by
        rw [List.mem_singleton.mp hother]⟩
    · obtain ⟨item, hitem, hmax⟩ := ih hrest
      by_cases hle : head.size ≤ item.size
      · refine ⟨item, List.mem_cons_of_mem _ hitem, fun other hother => ?_⟩
        rcases List.mem_cons.mp hother with rfl | hother
        · exact hle
        · exact hmax other hother
      · refine ⟨head, List.mem_cons_self, fun other hother => ?_⟩
        rcases List.mem_cons.mp hother with rfl | hother
        · exact Nat.le_refl _
        · have := hmax other hother
          omega

theorem step_enabled : s.Ended ∨ ∃ a s', s.step folder opts sha256Hex a = some s' := by
  cases hbatch : s.batch.files with
  | cons path rest =>
    refine .inr ⟨.consider, s.considerFile folder opts path rest, ?_⟩
    simp only [ScanState.step, hbatch]
  | nil =>
    by_cases hqueue : s.queue = []
    · exact .inl ⟨hbatch, hqueue⟩
    · obtain ⟨item, hitem, hmax⟩ := exists_largest hqueue
      exact .inr ⟨.pop item, _, if_pos ⟨hbatch, hitem, hmax⟩⟩

/-- Everything the scan holds can be reached. -/
structure Sound (folder : Folder) (opts : ScanOptions) (sha256Hex : Bytes → Hash)
    (s : ScanState Hash) : Prop where
  batch : ∀ path ∈ s.batch.files, Reachable folder opts path s.batch.depth
  queue : ∀ item ∈ s.queue, Reachable folder opts item.path item.archiveDepthRemaining
  samples : ∀ e ∈ s.samples, ∃ path depth, Reachable folder opts path depth ∧
    (folder.classify path).IsBinary ∧ sha256Hex (folder.read path) = e.sha256

omit [DecidableEq Hash] in
theorem sound_start : Sound folder opts sha256Hex (.start folder opts) where
  batch := fun path hpath => by
    obtain ⟨walked, hwalked, rfl⟩ := List.mem_map.mp hpath
    exact .root hwalked
  queue := nofun
  samples := nofun

theorem sound_step (h : s.step folder opts sha256Hex a = some s')
    (hs : Sound folder opts sha256Hex s) : Sound folder opts sha256Hex s' := by
  cases step_spec h with
  | @consider path rest _ hbatch h =>
    have hpath : Reachable folder opts path s.batch.depth :=
      hs.batch path (by rw [hbatch]; exact List.mem_cons_self)
    have hrest : ∀ inner ∈ rest, Reachable folder opts inner s.batch.depth := fun inner hinner =>
      hs.batch inner (by rw [hbatch]; exact List.mem_cons_of_mem _ hinner)
    cases h with
    | left _ _ => exact ⟨nofun, hs.queue, hs.samples⟩
    | oversized _ _ | known _ => exact ⟨hrest, hs.queue, hs.samples⟩
    | enqueued _ _ _ =>
      refine ⟨hrest, fun item hitem => ?_, hs.samples⟩
      rcases List.mem_append.mp hitem with hitem | hitem
      · exact hs.queue item hitem
      · rw [List.mem_singleton.mp hitem]
        exact hpath
  | @pop item _ hbatch hitem h =>
    have hreach := hs.queue item hitem
    have hqueue : ∀ other ∈ s.queue.erase item,
        Reachable folder opts other.path other.archiveDepthRemaining := fun other hother =>
      hs.queue other (List.mem_of_mem_erase hother)
    cases h with
    | refused _ _ _ _ | unsupported _ _ => exact ⟨hs.batch, hqueue, hs.samples⟩
    | opened _ hrefuses _ _ =>
      simp only [refusesArchive, Bool.or_eq_false_iff, decide_eq_false_iff_not] at hrefuses
      obtain ⟨depth, hdepth⟩ := Nat.exists_eq_succ_of_ne_zero hrefuses.2
      refine ⟨fun inner hinner => ?_, hqueue, hs.samples⟩
      rw [hdepth] at hreach ⊢
      exact .unpacked hreach hinner
    | sample hbinary _ =>
      refine ⟨hs.batch, hqueue, fun e he => ?_⟩
      rcases mem_putSample he with ⟨old, hold, hsha⟩ | hsha
      · rw [hsha]
        exact hs.samples old hold
      · exact ⟨item.path, _, hreach, hbinary, hsha.symm⟩

/-- What is enqueued is within the limits and counted in full. -/
structure Within (folder : Folder) (opts : ScanOptions) (s : ScanState Hash) : Prop where
  respects : Respects folder opts s
  total : folder.sizes s.enqueuedPaths = s.totalBytesEnqueued

omit [DecidableEq Hash] in
theorem within_start : Within folder opts (.start folder opts : ScanState Hash) :=
  ⟨⟨Nat.zero_le _, Nat.zero_le _⟩, rfl⟩

theorem within_step (h : s.step folder opts sha256Hex a = some s')
    (hsafe : SafeStep folder opts s a) (hs : Within folder opts s) : Within folder opts s' := by
  cases step_spec h with
  | @consider path rest _ hbatch h =>
    cases h with
    | left _ _ | oversized _ _ | known _ => exact ⟨⟨hs.respects.files, hs.respects.bytes⟩, hs.total⟩
    | enqueued hfires hsize hmem =>
      obtain ⟨hfiles, hbytes⟩ := hsafe.fits path rest hbatch hmem hfires hsize
      have hwith : s.bytesWith folder path = s.totalBytesEnqueued + (folder.read path).length :=
        Nat.mod_eq_of_lt hbytes
      have hsizes : folder.sizes (s.enqueuedPaths ++ [path]) = s.bytesWith folder path := by
        rw [hwith, ← hs.total]
        simp [Folder.sizes]
      refine ⟨⟨?_, ?_⟩, hsizes⟩
      · simp only [List.length_append, List.length_singleton]
        omega
      · exact hsizes.trans_le (Nat.le_of_not_lt fun hover => hfires (.inr ⟨hsize, hover⟩))
  | pop hbatch hitem h =>
    cases h with
    | refused _ _ _ _ | unsupported _ _ | opened _ _ _ _ | sample _ _ =>
      exact ⟨⟨hs.respects.files, hs.respects.bytes⟩, hs.total⟩

/-- The file is enqueued, about to be considered, or over the limit for one file. -/
def Covered (folder : Folder) (opts : ScanOptions) (s : ScanState Hash) (path : ScanPath) : Prop :=
  path ∈ s.enqueuedPaths ∨ path ∈ s.batch.files ∨
    opts.singleFileByteLimit < (folder.read path).length

/-- The file was taken out of the queue and what follows from it is seen to. -/
structure Finished (folder : Folder) (opts : ScanOptions) (sha256Hex : Bytes → Hash)
    (s : ScanState Hash) (path : ScanPath) : Prop where
  listed : (folder.classify path).IsBinary → Lists s.samples (sha256Hex (folder.read path)) path
  covered : ∀ depth, Reachable folder opts path (depth + 1) →
    ∀ inner ∈ folder.filesOf path, Covered folder opts s inner

structure Complete (folder : Folder) (opts : ScanOptions) (sha256Hex : Bytes → Hash)
    (s : ScanState Hash) : Prop where
  roots : ∀ path ∈ folder.tree.walk opts.maxDepth, Covered folder opts s (.root path)
  enqueued : ∀ path ∈ s.enqueuedPaths,
    (∃ item ∈ s.queue, item.path = path) ∨ Finished folder opts sha256Hex s path

omit [DecidableEq Hash] in
theorem complete_start : Complete folder opts sha256Hex (.start folder opts) where
  roots := fun _ hpath => .inr (.inl (List.mem_map_of_mem hpath))
  enqueued := nofun

theorem limitHit_step (h : s.step folder opts sha256Hex a = some s') (hhit : s'.limitHit = false) :
    s.limitHit = false := by
  cases step_spec h with
  | consider _ h =>
    cases h with
    | left _ _ => exact (Bool.or_eq_false_iff.mp hhit).1
    | oversized _ _ | known _ | enqueued _ _ _ => exact hhit
  | pop _ _ h =>
    cases h with
    | refused _ _ _ _ | unsupported _ _ | opened _ _ _ _ | sample _ _ => exact hhit

/-- Covered files stay covered, except that a limit may end the batch. -/
theorem covered_step (h : s.step folder opts sha256Hex a = some s')
    (hsafe : SafeStep folder opts s a) (hhit : s'.limitHit = false) {path : ScanPath}
    (hcovered : Covered folder opts s path) : Covered folder opts s' path := by
  cases step_spec h with
  | @consider next rest _ hbatch h =>
    rw [Covered, hbatch] at hcovered
    cases h with
    | left hfires _ =>
      have hknown : next ∈ s.enqueuedPaths := by
        have hnot := (Bool.or_eq_false_iff.mp hhit).2
        exact Decidable.not_not.mp (of_decide_eq_false hnot)
      have hrest := hsafe.known next rest hbatch hknown hfires
      rcases hcovered with h | h | h
      · exact .inl h
      · rcases List.mem_cons.mp h with rfl | h
        · exact .inl hknown
        · exact .inl (hrest h)
      · exact .inr (.inr h)
    | oversized hsize _ =>
      rcases hcovered with h | h | h
      · exact .inl h
      · rcases List.mem_cons.mp h with rfl | h
        · exact .inr (.inr hsize)
        · exact .inr (.inl h)
      · exact .inr (.inr h)
    | known hmem =>
      rcases hcovered with h | h | h
      · exact .inl h
      · rcases List.mem_cons.mp h with rfl | h
        · exact .inl hmem
        · exact .inr (.inl h)
      · exact .inr (.inr h)
    | enqueued _ _ _ =>
      rcases hcovered with h | h | h
      · exact .inl (List.mem_append_left _ h)
      · rcases List.mem_cons.mp h with rfl | h
        · exact .inl (List.mem_append_right _ (List.mem_singleton_self _))
        · exact .inr (.inl h)
      · exact .inr (.inr h)
  | pop hbatch hitem h =>
    have hold : path ∈ s.enqueuedPaths ∨ opts.singleFileByteLimit < (folder.read path).length := by
      rw [Covered, hbatch] at hcovered
      rcases hcovered with h | h | h
      · exact .inl h
      · cases h
      · exact .inr h
    cases h with
    | refused _ _ _ _ | unsupported _ _ | opened _ _ _ _ | sample _ _ =>
      exact hold.elim .inl fun h => .inr (.inr h)

omit [DecidableEq Hash] in
theorem Finished.mono {path : ScanPath} (h : Finished folder opts sha256Hex s path)
    (hlists : ∀ sha path, Lists s.samples sha path → Lists s'.samples sha path)
    (hcovered : ∀ path, Covered folder opts s path → Covered folder opts s' path) :
    Finished folder opts sha256Hex s' path where
  listed := fun hbinary => hlists _ _ (h.listed hbinary)
  covered := fun depth hreach inner hinner => hcovered inner (h.covered depth hreach inner hinner)

omit [DecidableEq Hash] in
theorem filesOf_eq_nil {path : ScanPath} (h : folder.classify path ≠ .archive) :
    folder.filesOf path = [] := if_neg h

theorem Classification.IsBinary.ne_archive {c : Classification} (h : c.IsBinary) : c ≠ .archive := by
  rintro rfl
  rcases h with h | h | h <;> cases h

theorem Classification.IsBinary.ne_other {c : Classification} (h : c.IsBinary) : c ≠ .other := by
  rintro rfl
  rcases h with h | h | h <;> cases h

/-- An item that is taken out of the queue is finished, except that an archive may have been
refused. -/
theorem process_finished {item : QueueItem Hash}
    (h : ProcessSpec folder opts sha256Hex s item s') (hsafe : OpensReachable folder opts item) :
    Finished folder opts sha256Hex s' item.path := by
  cases h with
  | refused harchive hrefuses _ _ =>
    refine ⟨fun hbinary => (hbinary.ne_archive harchive).elim, fun depth hreach inner hinner => ?_⟩
    rcases hrefuses with hrefuses | hfiles
    · exact (hsafe harchive hrefuses depth hreach).elim
    · rw [hfiles] at hinner
      cases hinner
  | opened harchive _ _ _ =>
    exact ⟨fun hbinary => (hbinary.ne_archive harchive).elim,
      fun _ _ inner hinner => .inr (.inl hinner)⟩
  | unsupported hother _ =>
    refine ⟨fun hbinary => (hbinary.ne_other hother).elim, fun _ _ inner hinner => ?_⟩
    rw [filesOf_eq_nil (by rw [hother]; nofun)] at hinner
    cases hinner
  | sample hbinary format =>
    refine ⟨fun _ => putSample_lists, fun _ _ inner hinner => ?_⟩
    rw [filesOf_eq_nil hbinary.ne_archive] at hinner
    cases hinner

theorem complete_step (h : s.step folder opts sha256Hex a = some s')
    (hsafe : SafeStep folder opts s a) (hhit : s'.limitHit = false)
    (hs : Complete folder opts sha256Hex s) : Complete folder opts sha256Hex s' := by
  have hcovered : ∀ path, Covered folder opts s path → Covered folder opts s' path :=
    fun _ => covered_step h hsafe hhit
  refine ⟨fun path hpath => hcovered _ (hs.roots path hpath), fun path hpath => ?_⟩
  cases step_spec h with
  | @consider next rest _ hbatch h =>
    cases h with
    | left _ _ | oversized _ _ | known _ =>
      exact (hs.enqueued path hpath).imp_right fun h => h.mono (fun _ _ => id) hcovered
    | enqueued _ _ _ =>
      rcases List.mem_append.mp hpath with hpath | hpath
      · rcases hs.enqueued path hpath with ⟨item, hitem, heq⟩ | h
        · exact .inl ⟨item, List.mem_append_left _ hitem, heq⟩
        · exact .inr (h.mono (fun _ _ => id) hcovered)
      · exact .inl ⟨_, List.mem_append_right _ (List.mem_singleton_self _),
          (List.mem_singleton.mp hpath).symm⟩
  | @pop item _ hbatch hitem h =>
    by_cases heq : path = item.path
    · rw [heq]
      exact .inr (process_finished h hsafe)
    · have hother : ∀ other ∈ s.queue, other.path = path → other ∈ s.queue.erase item :=
        fun other hother hpath => (List.mem_erase_of_ne fun h => heq (by rw [← hpath, h])).mpr hother
      have hold : path ∈ s.enqueuedPaths := by
        cases h <;> exact hpath
      rcases hs.enqueued path hold with ⟨other, hmem, hpath'⟩ | hfinished
      · refine .inl ⟨other, ?_, hpath'⟩
        cases h <;> exact hother other hmem hpath'
      · refine .inr (hfinished.mono (fun sha path hlists => ?_) hcovered)
        cases h with
        | refused _ _ _ _ | unsupported _ _ | opened _ _ _ _ => exact hlists
        | sample _ _ => exact putSample_keeps hlists

omit [DecidableEq Hash] in
theorem Complete.enqueued_of_reachable (hs : Complete folder opts sha256Hex s) (hend : s.Ended)
    (hsize : NoneOversized folder opts) {path : ScanPath} {depth : Nat}
    (hreach : Reachable folder opts path depth) (hkind : folder.classify path ≠ .other) :
    path ∈ s.enqueuedPaths := by
  have hmem : ∀ {path : ScanPath} {depth : Nat}, Reachable folder opts path depth →
      folder.classify path ≠ .other → Covered folder opts s path → path ∈ s.enqueuedPaths := by
    rintro path depth hreach hkind (h | h | h)
    · exact h
    · rw [hend.1] at h
      cases h
    · exact (hkind (hsize path depth hreach h)).elim
  induction hreach with
  | root hwalked => exact hmem (.root hwalked) hkind (hs.roots _ hwalked)
  | @unpacked path inner depth hreach hinner ih =>
    have harchive : folder.classify path = .archive := by
      by_contra hne
      rw [filesOf_eq_nil hne] at hinner
      cases hinner
    rcases hs.enqueued path (ih (by rw [harchive]; nofun)) with ⟨item, hitem, -⟩ | hfinished
    · rw [hend.2] at hitem
      cases hitem
    · exact hmem (.unpacked hreach hinner) hkind (hfinished.covered depth hreach inner hinner)

omit [DecidableEq Hash] in
theorem analyses_of_complete (hsound : Sound folder opts sha256Hex s)
    (hs : Complete folder opts sha256Hex s) (hend : s.Ended) (hsize : NoneOversized folder opts) :
    Analyses folder opts sha256Hex s := by
  have hlisted : ∀ path depth, Reachable folder opts path depth →
      (folder.classify path).IsBinary → Lists s.samples (sha256Hex (folder.read path)) path := by
    intro path depth hreach hbinary
    rcases hs.enqueued path (hs.enqueued_of_reachable hend hsize hreach hbinary.ne_other) with
      ⟨item, hitem, -⟩ | hfinished
    · rw [hend.2] at hitem
      cases hitem
    · exact hfinished.listed hbinary
  refine ⟨fun sha => ⟨fun hsha => ?_, ?_⟩, hlisted⟩
  · obtain ⟨e, he, rfl⟩ := List.mem_map.mp hsha
    exact hsound.samples e he
  · rintro ⟨path, depth, hreach, hbinary, rfl⟩
    obtain ⟨e, he, hsha, -⟩ := hlisted path depth hreach hbinary
    exact List.mem_map.mpr ⟨e, he, hsha⟩

/-- Every scan ends; one whose steps are safe keeps to its limits, and unless a limit kept a file
out or a reachable file is too large, its samples are the reachable binaries. -/
theorem scan_meets :
    (∃ n, ∀ actions s, run (ScanState.step folder opts sha256Hex) (ScanState.start folder opts) actions =
      some s → actions.length ≤ n) ∧
    ∀ actions s, run (ScanState.step folder opts sha256Hex) (ScanState.start folder opts) actions = some s →
      (s.Ended ∨ ∃ a s', s.step folder opts sha256Hex a = some s') ∧
      (Every (ScanState.step folder opts sha256Hex) (SafeStep folder opts) (ScanState.start folder opts)
          actions →
        Respects folder opts s ∧
        (s.Ended → s.limitHit = false → NoneOversized folder opts →
          Analyses folder opts sha256Hex s)) := by
  refine ⟨⟨_, fun _ _ hrun => length_le (fun _ _ _ => cost_step) hrun⟩, fun actions s hrun =>
    ⟨step_enabled, fun hsafe => ⟨?_, fun hend hhit hsize => ?_⟩⟩⟩
  · exact (keeps_of_every (fun _ _ _ _ _ => trivial) (fun _ _ _ h hsafe _ => within_step h hsafe)
      hrun hsafe trivial within_start).respects
  · have hsound := run_keeps (fun _ _ _ _ _ => trivial) (fun _ _ _ h _ => sound_step h) hrun trivial
      sound_start
    have hcomplete := keeps_of_every (fun _ _ _ => limitHit_step) (fun _ _ _ => complete_step) hrun
      hsafe hhit complete_start
    exact analyses_of_complete hsound hcomplete hend hsize

omit [DecidableEq Hash] in
/-- A new file is within the limits when neither its number nor its bytes overflow. -/
theorem checksLimits_of_new {path : ScanPath} {rest : List ScanPath}
    (hbatch : s.batch.files = path :: rest) (hnew : path ∉ s.enqueuedPaths)
    (hfiles : s.enqueuedPaths.length < opts.maxFiles)
    (hbytes : s.totalBytesEnqueued + (folder.read path).length < 2 ^ 64) :
    ChecksLimits folder opts s where
  fits next others hnext _ _ _ := by
    rw [hbatch] at hnext
    cases hnext
    exact ⟨hfiles, hbytes⟩
  known next others hnext hknown := by
    rw [hbatch] at hnext
    cases hnext
    exact (hnew hknown).elim

/-- A binary, and an archive around an archive with another. -/
def layeredFolder : Folder where
  rootName := []
  tree := .dir [['a'], ['b']] fun name =>
    .file (if name = ['a'] then [0x4D, 0x5A] else [0x50, 0x4B, 3, 4, 2, 2])
  unpack := fun _ _ => some [[['c']]]
  unpacked := fun archive _ =>
    if archive = [0x50, 0x4B, 3, 4, 2, 2] then [0x50, 0x4B, 3, 4, 1] else [0x4D, 0x5A, 7]

/-- The four files and their sixteen bytes are just within the limits. -/
def layeredOptions : ScanOptions := ⟨1, 4, 16, 6, false, 2⟩

def layeredFiles : List (ScanPath × Nat) :=
  [(.root [['a']], 2), (.root [['b']], 2), (.extracted [0x50, 0x4B, 3, 4, 2, 2] [['c']], 1),
    (.extracted [0x50, 0x4B, 3, 4, 1] [['c']], 0)]

def layeredRun : List (Action Bytes) :=
  let outer := [0x50, 0x4B, 3, 4, 2, 2]
  let inner := [0x50, 0x4B, 3, 4, 1]
  [.consider, .consider, .pop ⟨.root [['b']], 6, none, 2⟩,
    .consider, .pop ⟨.extracted outer [['c']], 5, some outer, 1⟩,
    .consider, .pop ⟨.extracted inner [['c']], 3, some inner, 0⟩, .pop ⟨.root [['a']], 2, none, 2⟩]

theorem layered_reachable {path : ScanPath} {depth : Nat}
    (h : Reachable layeredFolder layeredOptions path depth) : (path, depth) ∈ layeredFiles := by
  induction h with
  | root hwalked =>
    have hwalk : layeredFolder.tree.walk layeredOptions.maxDepth = [[['a']], [['b']]] := rfl
    rw [hwalk] at hwalked
    rcases List.mem_cons.mp hwalked with rfl | hwalked
    · exact List.mem_cons_self
    · rw [List.mem_singleton.mp hwalked]
      exact List.mem_cons_of_mem _ List.mem_cons_self
  | @unpacked path inner depth _ hinner ih =>
    have hfiles : ∀ e ∈ layeredFiles, ∀ inner ∈ layeredFolder.filesOf e.1,
        (inner, e.2 - 1) ∈ layeredFiles := by decide
    exact hfiles _ ih inner hinner

/-- Every archive is opened while there is depth left. -/
theorem layered_opens : Every (ScanState.step layeredFolder layeredOptions id)
    (SafeStep layeredFolder layeredOptions) (ScanState.start layeredFolder layeredOptions)
    layeredRun := by
  have hopens : ∀ item : QueueItem Bytes, refusesArchive layeredOptions item = false →
      OpensReachable layeredFolder layeredOptions item := fun item hopen _ hrefuses => by
    rw [hopen] at hrefuses
    cases hrefuses
  refine (every_cons rfl).mpr ⟨checksLimits_of_new rfl (by decide) (by decide) (by decide), ?_⟩
  refine (every_cons rfl).mpr ⟨checksLimits_of_new rfl (by decide) (by decide) (by decide), ?_⟩
  refine (every_cons rfl).mpr ⟨hopens _ rfl, ?_⟩
  refine (every_cons rfl).mpr ⟨checksLimits_of_new rfl (by decide) (by decide) (by decide), ?_⟩
  refine (every_cons rfl).mpr ⟨hopens _ rfl, ?_⟩
  refine (every_cons rfl).mpr ⟨checksLimits_of_new rfl (by decide) (by decide) (by decide), ?_⟩
  refine (every_cons rfl).mpr ⟨fun harchive _ => absurd harchive (by decide), ?_⟩
  exact (every_cons rfl).mpr ⟨hopens _ rfl, trivial⟩

theorem scan_meets_layered : ∃ s, run (ScanState.step layeredFolder layeredOptions id)
    (ScanState.start layeredFolder layeredOptions) layeredRun = some s ∧
    s.enqueuedPaths = layeredFiles.map Prod.fst ∧ Respects layeredFolder layeredOptions s ∧
    Analyses layeredFolder layeredOptions id s := by
  have hsize : NoneOversized layeredFolder layeredOptions := fun path depth hreach hsize => by
    have hsmall : ∀ e ∈ layeredFiles, (layeredFolder.read e.1).length ≤ 6 := by decide
    exact absurd (hsmall _ (layered_reachable hreach)) (Nat.not_le_of_lt hsize)
  obtain ⟨hrespects, hanalyses⟩ := (scan_meets.2 layeredRun _ rfl).2 layered_opens
  exact ⟨_, rfl, rfl, hrespects, hanalyses ⟨rfl, rfl⟩ rfl hsize⟩

/-- An archive and one that holds a copy of it, each around an archive with a binary. -/
def nestedFolder : Folder where
  rootName := []
  tree := .dir [['b'], ['a']] fun name =>
    .file (if name = ['b'] then [0x50, 0x4B, 3, 4, 2, 2] else [0x50, 0x4B, 3, 4, 1])
  unpack := fun _ _ => some [[['c']]]
  unpacked := fun archive _ =>
    if archive = [0x50, 0x4B, 3, 4, 2, 2] then [0x50, 0x4B, 3, 4, 1]
    else if archive = [0x50, 0x4B, 3, 4, 1] then [0x50, 0x4B, 3, 4]
    else [0x4D, 0x5A]

def nestedOptions (maxFiles : Nat) : ScanOptions := ⟨1, maxFiles, 99, 99, false, 2⟩

/-- The outer archive is the largest, and the copy in it is opened before the other. -/
def nestedRun : List (Action Bytes) :=
  let outer := [0x50, 0x4B, 3, 4, 2, 2]
  let copy := [0x50, 0x4B, 3, 4, 1]
  [.consider, .consider, .pop ⟨.root [['b']], 6, none, 2⟩,
    .consider, .pop ⟨.extracted outer [['c']], 5, some outer, 1⟩,
    .consider, .pop ⟨.root [['a']], 5, none, 2⟩,
    .consider, .pop ⟨.extracted copy [['c']], 4, some copy, 0⟩]

theorem nested_binary_reachable : Reachable nestedFolder (nestedOptions 9)
    (.extracted [0x50, 0x4B, 3, 4] [['c']]) 0 := by
  have hroot : Reachable nestedFolder (nestedOptions 9) (.root [['a']]) 2 :=
    .root (List.mem_cons_of_mem _ (List.mem_singleton_self _))
  have hinner : Reachable nestedFolder (nestedOptions 9)
      (.extracted [0x50, 0x4B, 3, 4, 1] [['c']]) 1 := .unpacked hroot (by decide)
  exact .unpacked hinner (by decide)

/-- The scan may enqueue more files than its limit, and miss a binary without coming to one. -/
theorem nested_copy_missed :
    (¬ ∀ actions s, run (ScanState.step nestedFolder (nestedOptions 2) id)
      (ScanState.start nestedFolder (nestedOptions 2)) actions = some s →
      Respects nestedFolder (nestedOptions 2) s) ∧
    (¬ ∀ actions s, run (ScanState.step nestedFolder (nestedOptions 9) id)
      (ScanState.start nestedFolder (nestedOptions 9)) actions = some s → s.Ended →
      s.limitHit = false → Analyses nestedFolder (nestedOptions 9) id s) := by
  constructor
  · intro h
    have hfiles := (h (nestedRun.take 4) _ rfl).files
    exact absurd hfiles (by decide)
  · intro h
    have hanalyses := h nestedRun _ rfl ⟨rfl, rfl⟩ rfl
    obtain ⟨e, he, -⟩ := hanalyses.listed _ 0 nested_binary_reachable (.inl (by decide))
    cases he

end Axe.Scan
