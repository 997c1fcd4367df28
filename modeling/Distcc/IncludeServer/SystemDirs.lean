import Distcc.Base.Path

/-!
# Which files are in system directories

Model of `SystemdirPrefixCache` and of what `CompilerDefaults` tells it. A compiler that is
used for the first time, with its `--sysroot` and language, is asked for its directories, and
these are system directories from then on. `FillCache` computes for each real path that has no
entry yet if a system directory is a prefix of it, and this entry stays.

It should say if the path is a system directory or below one
(`Systemdirs.Classified`). This goes wrong in two ways: a directory
`/usr/include` is a prefix of `/usr/include2/a.h`, and the directory in which a file is may
become a system directory when the file has its entry already. Runs without such steps are
classified, and the first such step shows after the next `FillCache`
(`Systemdirs.classified_of_careful`).
-/

namespace Distcc.IncludeServer

open CString List

/-- The names in a path. -/
def namesOf (path : CString) : List CString := (comps path).filter (· ≠ [])

/-- **A path is a directory or below it**, name by name. -/
def isBelow (dir path : CString) : Bool :=
  decide (dir.head? = some 47 ↔ path.head? = some 47) && (namesOf dir).isPrefixOf (namesOf path)

/-- The path is one of these directories, or below one. -/
def isSystem (systemdirs : List CString) (path : CString) : Bool :=
  systemdirs.any fun dir => isBelow dir path

/-- What the include server knows of system directories. -/
structure Systemdirs where
  /-- The compilers that were asked, with `sysroot` and language. -/
  known : List (CString × CString × CString) := []
  /-- `system_dirs_default_all` -/
  systemdirs : List CString := []
  /-- `realpath_map` -/
  realpaths : List CString := []
  /-- The entries for the first of the real paths. -/
  cache : List Bool := []

namespace Systemdirs

/-- Something that happens to the include server. -/
inductive Event
  /-- `SetSystemDirsDefaults`, with what the compiler would say if it is asked. It may fail to
  say something. -/
  | command (compiler sysroot language : CString) (searched : Option (List CString))
  /-- `realpath_map.Index` -/
  | realpath (path : CString)
  /-- `FillCache` -/
  | fill

variable (s : Systemdirs)

/-- The directories that become known by a command. -/
def added (compiler sysroot language : CString) (searched : Option (List CString)) :
    List CString :=
  if (compiler, sysroot, language) ∈ s.known then [] else searched.getD []

/-- `SetSystemDirsDefaults`. A compiler that says nothing is asked again. -/
def setSystemDirsDefaults (compiler sysroot language : CString)
    (searched : Option (List CString)) : Systemdirs :=
  { s with
    known := if searched = none ∨ (compiler, sysroot, language) ∈ s.known then s.known
      else (compiler, sysroot, language) :: s.known
    systemdirs := s.systemdirs ++ s.added compiler sysroot language searched }

/-- `MapToIndex.Index` -/
def index (path : CString) : Systemdirs :=
  if path ∈ s.realpaths then s else { s with realpaths := s.realpaths ++ [path] }

/-- The test of `FillCache`. -/
def startsWithSystemdir (realpath : CString) : Bool :=
  s.systemdirs.any fun systemdir => startsWith systemdir realpath

/-- `FillCache` -/
def fillCache : Systemdirs :=
  if s.cache.length ≥ s.realpaths.length then s
  else { s with
    cache := s.cache ++ (s.realpaths.drop s.cache.length).map s.startsWithSystemdir }

/-- A step. -/
def step : Event → Systemdirs
  | .command compiler sysroot language searched =>
    s.setSystemDirsDefaults compiler sysroot language searched
  | .realpath path => s.index path
  | .fill => s.fillCache

/-- **All real paths are classified.** -/
def Classified : Prop := s.cache = s.realpaths.map (isSystem s.systemdirs)

/-- The entries that there are, are right. -/
def Right : Prop := s.cache <+: s.realpaths.map (isSystem s.systemdirs)

/-- **A step with which nothing goes wrong**: no real path that has an entry is only below a
directory that becomes known, and of those that get one, exactly the ones below a system
directory have the text of a system directory in front. -/
def Careful : Event → Prop
  | .command compiler sysroot language searched =>
    ∀ path ∈ s.realpaths.take s.cache.length,
      ∀ dir ∈ s.added compiler sysroot language searched,
        isBelow dir path = true → isSystem s.systemdirs path = true
  | .realpath _ => True
  | .fill => ∀ path ∈ s.realpaths.drop s.cache.length,
      (∃ dir ∈ s.systemdirs, dir <+: path) ↔ ∃ dir ∈ s.systemdirs, isBelow dir path = true

/-- All steps are so. -/
def CarefulRun : Systemdirs → List Event → Prop
  | _, [] => True
  | s, e :: events => s.Careful e ∧ CarefulRun (s.step e) events

variable {s}

theorem Right.length_le (h : s.Right) : s.cache.length ≤ s.realpaths.length := by
  simpa using IsPrefix.length_le h

theorem right_iff : s.Right ↔ s.cache.length ≤ s.realpaths.length ∧
    s.cache = (s.realpaths.take s.cache.length).map (isSystem s.systemdirs) := by
  constructor
  · intro h
    exact ⟨h.length_le, (prefix_iff_eq_take.mp h).trans map_take.symm⟩
  · rintro ⟨-, heq⟩
    exact prefix_iff_eq_take.mpr (heq.trans map_take)

/-- What `FillCache` computes is right if the same can be said of the texts. -/
theorem startsWithSystemdir_eq_iff (path : CString) :
    s.startsWithSystemdir path = isSystem s.systemdirs path ↔
      ((∃ dir ∈ s.systemdirs, dir <+: path) ↔ ∃ dir ∈ s.systemdirs, isBelow dir path = true) := by
  rw [Bool.eq_iff_iff, startsWithSystemdir, isSystem, any_eq_true, any_eq_true]
  simp only [startsWith, isPrefixOf_iff_prefix]

/-- **One step**: the entries stay right if it is careful, and only then. -/
theorem Right.step_iff (h : s.Right) (e : Event) : (s.step e).Right ↔ s.Careful e := by
  obtain ⟨hle, hcache⟩ := right_iff.mp h
  cases e with
  | command compiler sysroot language searched =>
    -- the entries are those of before, for more directories
    have hmore : (s.step (.command compiler sysroot language searched)).Right ↔
        s.cache = (s.realpaths.take s.cache.length).map
          (isSystem (s.systemdirs ++ s.added compiler sysroot language searched)) :=
      right_iff.trans (and_iff_right hle)
    rw [hmore, Eq.congr_left hcache, map_inj_left, Careful]
    refine forall₂_congr fun path _ => ?_
    rw [isSystem, isSystem, any_append]
    cases s.systemdirs.any fun dir => isBelow dir path with
    | true => simp
    | false => simp
  | realpath path =>
    rw [Careful, iff_true, step, index]
    split
    · exact h
    · rw [Right, map_append]
      exact IsPrefix.trans h (prefix_append ..)
  | fill =>
    rw [step, fillCache, Careful]
    split
    · case isTrue hge => simpa [drop_eq_nil_of_le hge] using h
    · have hmap : s.realpaths.map (isSystem s.systemdirs) =
          s.cache ++ (s.realpaths.drop s.cache.length).map (isSystem s.systemdirs) :=
        (congrArg (map _) (take_append_drop s.cache.length _).symm).trans
          (map_append.trans (congrArg (· ++ _) hcache.symm))
      simp only [← startsWithSystemdir_eq_iff]
      rw [Right, hmap, prefix_append_right_inj, ← map_inj_left]
      exact ⟨fun hpre => hpre.eq_of_length (by simp), fun heq => heq ▸ prefix_rfl⟩

theorem Right.run (h : s.Right) {events : List Event} (hrun : CarefulRun s events) :
    (events.foldl step s).Right := by
  induction events generalizing s with
  | nil => exact h
  | cons e events ih => exact ih ((h.step_iff e).mpr hrun.1) hrun.2

/-- After `FillCache`, there is an entry for each real path. -/
theorem Right.classified (h : s.fillCache.Right) : s.fillCache.Classified := by
  refine IsPrefix.eq_of_length h (Nat.le_antisymm (IsPrefix.length_le h) ?_)
  rw [length_map, fillCache]
  split
  · assumption
  · simp only [length_append, length_map, length_drop]
    omega

/-- `FillCache` changes no entry. -/
theorem right_of_classified (h : s.fillCache.Classified) : s.Right := by
  have hcache : s.cache <+: s.fillCache.cache ∧
      s.fillCache.realpaths.map (isSystem s.fillCache.systemdirs) =
        s.realpaths.map (isSystem s.systemdirs) := by
    rw [fillCache]
    split
    · exact ⟨prefix_rfl, rfl⟩
    · exact ⟨prefix_append .., rfl⟩
  rw [Right, ← hcache.2, ← h]
  exact hcache.1

/-- **Careful runs are classified**: from right entries on, `FillCache` classifies everything
after a careful run exactly if it is careful too. And a step that is not careful makes an entry
wrong, which the next `FillCache` does not mend. -/
theorem classified_of_careful (h : s.Right) {events : List Event} (hrun : CarefulRun s events) :
    (((events ++ [Event.fill]).foldl step s).Classified ↔ (events.foldl step s).Careful .fill) ∧
      ∀ e, ((events ++ [e, .fill]).foldl step s).Classified → (events.foldl step s).Careful e := by
  have hright := h.run hrun
  simp only [foldl_append, foldl_cons, foldl_nil]
  refine ⟨⟨fun hclass => ?_, fun hfill => ?_⟩, fun e hclass => ?_⟩
  · exact (hright.step_iff .fill).mp ⟨[], (append_nil _).trans hclass⟩
  · exact Right.classified ((hright.step_iff .fill).mpr hfill)
  · exact (hright.step_iff e).mp (right_of_classified hclass)

/-- One directory, and a file. -/
def fileRun (path : CString) : List Event :=
  [.command (lit "gcc") [] (lit "c") (some [lit "/usr/include"]), .realpath path, .fill]

/-- Another command makes the directory known that is above the first one. -/
def stdioRun : List Event :=
  fileRun (lit "/usr/include/stdio.h") ++
    [.command (lit "g++") [] (lit "c++") (some [lit "/usr"]), .realpath (lit "/usr/lib/a.h")]

theorem classified_of_careful_stdio :
    CarefulRun {} stdioRun ∧ ((stdioRun ++ [Event.fill]).foldl step {}).Classified := by
  have hrun : CarefulRun {} stdioRun := by
    refine ⟨forall_mem_nil _, trivial, ?_, ?_, trivial, trivial⟩
    · rw [Careful]
      decide
    · rw [Careful]
      decide
  have hfill : (stdioRun.foldl step {}).Careful .fill := by
    rw [Careful]
    decide
  have hright : Right {} := nil_prefix
  exact ⟨hrun, (classified_of_careful hright hrun).1.mpr hfill⟩

/-- A file in another directory with a longer name. -/
def nearRun : List Event := fileRun (lit "/usr/include2/a.h")

/-- **The text is a prefix**, but the file is not in the directory. -/
theorem nearRun_not_classified : (nearRun.foldl step {}).cache = [true] ∧
    isSystem [lit "/usr/include"] (lit "/usr/include2/a.h") = false ∧
      ¬ (nearRun.foldl step {}).Classified := by
  have hcache : (nearRun.foldl step {}).cache = [true] := by decide
  refine ⟨hcache, by decide, fun h => ?_⟩
  rw [Classified, hcache] at h
  exact absurd h (by decide)

end Systemdirs

end Distcc.IncludeServer
