import Axe.Lib.CommandLine
import Axe.Lib.Separators

/-!
# Spawning the target

The command line of the target is its path and its arguments with a space between them. What the
target receives is what the system reads from that line.
-/
namespace Axe.Unpack.Spawn

open CommandLine (CodeUnit space quote isBlank Word)

/-- A path of a file of Windows. -/
structure ExePath where
  chars : List Char
  nonempty : chars ≠ []
  unquoted : '"' ∉ chars
  terminated : '\x00' ∉ chars

structure Argument where
  chars : List Char
  terminated : '\x00' ∉ chars

def utf16 (c : Char) : List CodeUnit :=
  if c.toNat < 0x10000 then [c.toNat]
  else [0xD800 + (c.toNat - 0x10000) / 0x400, 0xDC00 + (c.toNat - 0x10000) % 0x400]

def encodeUtf16 (s : List Char) : List CodeUnit := s.flatMap utf16

/-- The buffer that the process is created with. -/
def commandLine (exe : ExePath) (args : List Argument) : List CodeUnit :=
  encodeUtf16 ([' '].intercalate (exe.chars :: args.map Argument.chars)) ++ [0]

/-- The arguments that the target reads from the buffer, which ends with the first zero. -/
def received (stays : Bool) (buffer : List CodeUnit) : List (List CodeUnit) :=
  CommandLine.split stays (buffer.takeWhile (· ≠ 0))

def Delivers (stays : Bool) (exe : ExePath) (args : List Argument) : Prop :=
  received stays (commandLine exe args) =
    encodeUtf16 exe.chars :: args.map fun arg => encodeUtf16 arg.chars

/-- A path without blanks, and arguments that are not empty and have no blanks and no quotes. -/
structure Simple (exe : ExePath) (args : List Argument) : Prop where
  path : ' ' ∉ exe.chars ∧ '\t' ∉ exe.chars
  args : ∀ arg ∈ args, arg.chars ≠ [] ∧ ' ' ∉ arg.chars ∧ '\t' ∉ arg.chars ∧ '"' ∉ arg.chars

variable {stays : Bool} {exe : ExePath} {args : List Argument} {c d : Char} {s t : List Char}
  {u : CodeUnit}

theorem mem_utf16 (hu : u < 0xD800) : u ∈ utf16 c ↔ c.toNat = u := by
  rw [utf16]
  split
  · rw [List.mem_singleton, eq_comm]
  · rw [List.mem_cons, List.mem_singleton]
    have hnat : ∀ n : Nat, n < 0xD800 → ¬ c.toNat < 0x10000 →
        (n = 0xD800 + (c.toNat - 0x10000) / 0x400 ∨ n = 0xDC00 + (c.toNat - 0x10000) % 0x400 ↔
          c.toNat = n) := by omega
    exact hnat u hu (by assumption)

/-- The units of the basic characters are found where these are. -/
theorem mem_encodeUtf16 (hd : d.toNat < 0xD800) : d.toNat ∈ encodeUtf16 s ↔ d ∈ s := by
  rw [encodeUtf16, List.mem_flatMap]
  constructor
  · rintro ⟨c, hc, hmem⟩
    rwa [Char.toNat_inj.mp ((mem_utf16 hd).mp hmem)] at hc
  · exact fun h => ⟨d, h, (mem_utf16 hd).mpr rfl⟩

theorem utf16_ne_nil : utf16 c ≠ [] := by
  rw [utf16]
  split
  · exact List.cons_ne_nil _ _
  · exact List.cons_ne_nil _ _

theorem encodeUtf16_eq_nil : encodeUtf16 s = [] ↔ s = [] := by
  rw [encodeUtf16, List.flatMap_eq_nil_iff]
  refine ⟨fun h => List.eq_nil_iff_forall_not_mem.mpr fun c hc => utf16_ne_nil (h c hc), ?_⟩
  rintro rfl c hc
  exact absurd hc List.not_mem_nil

/-- A character is not a surrogate. -/
theorem toNat_range (c : Char) :
    c.toNat < 0xD800 ∨ 0xDFFF < c.toNat ∧ c.toNat < 0x110000 := c.valid

theorem utf16_append_inj {l m : List CodeUnit} (h : utf16 c ++ l = utf16 d ++ m) :
    c = d ∧ l = m := by
  have hc := toNat_range c
  have hd := toNat_range d
  have hnat : c.toNat = d.toNat ∧ l = m := by
    rw [utf16, utf16] at h
    split at h
    · split at h
      · exact ⟨(List.cons.inj h).1, (List.cons.inj h).2⟩
      · have hhead : (c.toNat : Nat) = 0xD800 + (d.toNat - 0x10000) / 0x400 := (List.cons.inj h).1
        omega
    · split at h
      · have hhead : 0xD800 + (c.toNat - 0x10000) / 0x400 = (d.toNat : Nat) := (List.cons.inj h).1
        omega
      · have hhigh : 0xD800 + (c.toNat - 0x10000) / 0x400 =
            0xD800 + (d.toNat - 0x10000) / 0x400 := (List.cons.inj h).1
        have htail := (List.cons.inj h).2
        have hlow : 0xDC00 + (c.toNat - 0x10000) % 0x400 =
            0xDC00 + (d.toNat - 0x10000) % 0x400 := (List.cons.inj htail).1
        exact ⟨by omega, (List.cons.inj htail).2⟩
  exact ⟨Char.toNat_inj.mp hnat.1, hnat.2⟩

theorem encodeUtf16_inj (h : encodeUtf16 s = encodeUtf16 t) : s = t := by
  induction s generalizing t with
  | nil => exact (encodeUtf16_eq_nil.mp h.symm).symm
  | cons c s ih =>
    cases t with
    | nil => exact absurd (encodeUtf16_eq_nil.mp h) (List.cons_ne_nil c s)
    | cons d t =>
      obtain ⟨rfl, hrest⟩ := utf16_append_inj h
      rw [ih hrest]

theorem not_blank_iff : isBlank u = false ↔ u ≠ ' '.toNat ∧ u ≠ '\t'.toNat := by
  rw [isBlank, Bool.or_eq_false_iff, decide_eq_false_iff_not, decide_eq_false_iff_not]
  exact Iff.rfl

theorem encodeUtf16_unblank :
    (∀ u ∈ encodeUtf16 s, isBlank u = false) ↔ ' ' ∉ s ∧ '\t' ∉ s := by
  rw [← @mem_encodeUtf16 ' ' s (by decide), ← @mem_encodeUtf16 '\t' s (by decide)]
  constructor
  · exact fun h => ⟨fun hmem => (not_blank_iff.mp (h _ hmem)).1 rfl,
      fun hmem => (not_blank_iff.mp (h _ hmem)).2 rfl⟩
  · rintro ⟨hspace, htab⟩ u hu
    exact not_blank_iff.mpr ⟨fun h => hspace (h ▸ hu), fun h => htab (h ▸ hu)⟩

theorem word_encodeUtf16 :
    Word (encodeUtf16 s) ↔ s ≠ [] ∧ ' ' ∉ s ∧ '\t' ∉ s ∧ '"' ∉ s := by
  have hquote : '"' ∉ s ↔ ∀ u ∈ encodeUtf16 s, u ≠ quote := by
    rw [← @mem_encodeUtf16 '"' s (by decide)]
    refine ⟨fun h u hu heq => h ?_, fun h hmem => h _ hmem rfl⟩
    rw [heq] at hu
    exact hu
  rw [Word, Ne, encodeUtf16_eq_nil, ← and_assoc (a := ' ' ∉ s), ← encodeUtf16_unblank, hquote,
    ← forall₂_and]
  exact and_congr_right fun _ => ⟨fun h u hu => ⟨(h u hu).2, (h u hu).1⟩,
    fun h u hu => ⟨(h u hu).2, (h u hu).1⟩⟩

theorem encodeUtf16_join (program : List Char) (args : List (List Char)) :
    encodeUtf16 ([' '].intercalate (program :: args)) =
      encodeUtf16 program ++ (args.map encodeUtf16).flatMap (space :: ·) := by
  induction args generalizing program with
  | nil => rw [List.intercalate_singleton, List.map_nil, List.flatMap_nil, List.append_nil]
  | cons arg args ih =>
    rw [List.intercalate_cons_of_ne_nil (List.cons_ne_nil arg args), encodeUtf16,
      List.flatMap_append, List.flatMap_append, List.append_assoc]
    exact congrArg (encodeUtf16 program ++ space :: ·) (ih arg)

/-- The system reads the line up to the zero behind it. -/
theorem received_commandLine : received stays (commandLine exe args) =
    CommandLine.split stays (encodeUtf16 exe.chars ++
      (args.map fun arg => encodeUtf16 arg.chars).flatMap (space :: ·)) := by
  have hzero : 0 ∉ encodeUtf16 ([' '].intercalate (exe.chars :: args.map Argument.chars)) := by
    rw [show (0 : CodeUnit) = '\x00'.toNat from rfl, mem_encodeUtf16 (by decide)]
    intro hmem
    rcases mem_of_mem_intercalate hmem with hmem | ⟨y, hy, hmem⟩
    · exact absurd hmem (by decide)
    · rcases List.mem_cons.mp hy with rfl | hy
      · exact exe.terminated hmem
      · obtain ⟨arg, -, rfl⟩ := List.mem_map.mp hy
        exact arg.terminated hmem
  rw [received, commandLine, List.takeWhile_append_of_pos, encodeUtf16_join, List.map_map]
  · exact congrArg (CommandLine.split stays) (List.append_nil _)
  · intro u hu
    exact decide_eq_true fun heq => hzero (heq ▸ hu)

/-- The target receives what was requested exactly when nothing in it needs quotes, and then
other arguments of that kind give another command line. -/
theorem commandLine_delivers_iff (stays : Bool) (exe : ExePath) (args : List Argument) :
    (Delivers stays exe args ↔ Simple exe args) ∧
      ∀ args', Simple exe args → Simple exe args' →
        commandLine exe args = commandLine exe args' →
          args.map Argument.chars = args'.map Argument.chars := by
  have hiff : ∀ args, Delivers stays exe args ↔ Simple exe args := by
    intro args
    have hquote : quote ∉ encodeUtf16 exe.chars :=
      fun h => exe.unquoted ((@mem_encodeUtf16 '"' _ (by decide)).mp h)
    rw [Delivers, received_commandLine, CommandLine.split_eq_iff
      (mt encodeUtf16_eq_nil.mp exe.nonempty) hquote, encodeUtf16_unblank, List.forall_mem_map]
    exact ⟨fun h => ⟨h.1, fun arg harg => word_encodeUtf16.mp (h.2 arg harg)⟩,
      fun h => ⟨h.path, fun arg harg => word_encodeUtf16.mpr (h.args arg harg)⟩⟩
  refine ⟨hiff args, fun args' hsimple hsimple' heq => ?_⟩
  have hreceived := ((hiff args).mpr hsimple).symm.trans
    ((congrArg (received stays) heq).trans ((hiff args').mpr hsimple'))
  have hmap : (args.map Argument.chars).map encodeUtf16 =
      (args'.map Argument.chars).map encodeUtf16 := by
    rw [List.map_map, List.map_map]
    exact (List.cons.inj hreceived).2
  exact List.map_injective_iff.mpr (fun _ _ => encodeUtf16_inj) hmap

def sampleExe : ExePath := ⟨"C:\\t.exe".toList, by decide, by decide, by decide⟩

def sampleArg : Argument := ⟨"--log=1".toList, by decide⟩

theorem commandLine_delivers_sample : Delivers true sampleExe [sampleArg] ∧
    [sampleArg].map Argument.chars = [sampleArg].map Argument.chars := by
  have hsimple : Simple sampleExe [sampleArg] :=
    ⟨by decide, List.forall_mem_singleton.mpr (by decide)⟩
  obtain ⟨hiff, hinj⟩ := commandLine_delivers_iff true sampleExe [sampleArg]
  exact ⟨hiff.mpr hsimple, hinj [sampleArg] hsimple hsimple rfl⟩

/-- An argument with a space is received as two. -/
theorem space_splits_argument : ¬ ∀ stays exe args, Delivers stays exe args := by
  intro h
  have hreceived := h true sampleExe [⟨"a b".toList, by decide⟩]
  rw [Delivers] at hreceived
  exact absurd hreceived (by decide)

end Axe.Unpack.Spawn
