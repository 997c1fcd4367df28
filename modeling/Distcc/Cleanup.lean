import Distcc.Base.Tree
import Distcc.Tempfile

/-!
# Cleaning up

The model of `src/cleanup.c`, and of the functions of `src/tempfile.c` that make directories,
over a tree of directories, files and links. Under what name something is made, it is
registered in a list (`Disk.dccAddCleanup`), and at the end all of them are removed,
from the last to the first one (`Disk.dccCleanupTempfiles`). The calls find in the tree
what they need to succeed; those that make or look at something may fail for other reasons as
well.

The names may go through links and dots, and through what was made before. Since a name leads
at the end where it led when something was made under it, what is left then is the tree that
there was in the beginning (`Disk.cleanup_restores`).
-/

namespace Distcc

open CString Prog

/-- The tree, the list of names to clean up with the room there is for it, and what the next
calls are told: whether nothing else is in their way. -/
structure Disk where
  tree : FileSystem
  cleanups : List CString
  cleanupsSize : ℕ
  replies : List Bool

/-- A computation on it. -/
abbrev DiskIo := Prog Disk Failure

namespace Disk

/-! ### The calls -/

/-- Is nothing in the way of the call? -/
def reply : DiskIo Bool := do
  let d ← Prog.get
  match d.replies with
  | [] => pure true
  | r :: replies => do
    Prog.modify fun d => { d with replies := replies }
    pure r

/-- `malloc`, or `strdup` -/
def alloc : DiskIo Bool := reply

/-- `stat` -/
def stat (path : CString) : DiskIo Stat := do
  if ← reply then do
    let d ← Prog.get
    match (d.tree.locate path).bind d.tree.entry with
    | none => pure .nothing
    | some .directory => pure .directory
    | some _ => pure .other
  else pure .nothing

/-- To make something under a name: whether it was made. -/
def make (path : CString) (e : FsEntry) : DiskIo Bool := do
  if ← reply then do
    let d ← Prog.get
    match d.tree.create path e with
    | none => pure false
    | some tree => do
      Prog.modify fun d => { d with tree := tree }
      pure true
  else pure false

/-- `mkdir` -/
def mkdir (path : CString) : DiskIo Bool := make path .directory

/-- `open` with `O_CREAT` where there is nothing, or `symlink`: no name for a file ends in a
slash. -/
def makeFile (path : CString) (e : FsEntry) : DiskIo Bool :=
  if path.getLast? = some 47 then pure false else make path e

/-! ### The functions -/

/-- Room for one more name: the array grows when it is full. -/
def growCleanups : DiskIo Bool := do
  let d ← Prog.get
  if d.cleanups.length + 1 > d.cleanupsSize then do
    if ← alloc then do
      Prog.modify fun d =>
        { d with cleanupsSize := if d.cleanupsSize = 0 then 10 else d.cleanupsSize * 3 }
      pure true
    else pure false
  else pure true

/-- `dcc_add_cleanup` -/
def dccAddCleanup (filename : CString) : DiskIo Unit := do
  if ← growCleanups then do
    if ← alloc then Prog.modify fun d => { d with cleanups := d.cleanups ++ [filename] }
    else Prog.fail ExitCode.outOfMemory.failure
  else Prog.fail ExitCode.outOfMemory.failure

/-- `dcc_add_cleanup` of something that was just made, and is removed if that fails. -/
def addCleanupOr (undo : FileSystem → CString → Option FileSystem) (path : CString) :
    DiskIo Unit := do
  match ← (dccAddCleanup path).attempt with
  | .ok () => pure ()
  | .error ret => do
    Prog.modify fun d => { d with tree := (undo d.tree path).getD d.tree }
    Prog.fail ret

/-- `dcc_mk_tmpdir` -/
def dccMkTmpdir (path : CString) : DiskIo Unit := do
  match ← stat path with
  | .nothing => do
    if ← mkdir path then addCleanupOr FileSystem.rmdir path
    else Prog.fail ExitCode.ioError.failure
  | .directory => pure ()
  | .other => Prog.fail ExitCode.ioError.failure

/-- `dcc_mk_tmp_ancestor_dirs` -/
def dccMkTmpAncestorDirs (path : CString) : DiskIo Unit := do
  if ← alloc then do
    let copy := dccTruncateToDirname path
    if copy = [] then pure ()
    else do
      match ← (dccMkTmpdir copy).attempt with
      | .ok () => pure ()
      | .error _ => do
        Prog.forEach dccMkTmpdir (ancestors [] copy)
        dccMkTmpdir copy
  else Prog.fail ExitCode.outOfMemory.failure

/-- A new file or link, which is registered as `dcc_r_many_files` and `dcc_make_tmpnam` do. -/
def newEntry (path : CString) (e : FsEntry) : DiskIo Unit := do
  if ← makeFile path e then addCleanupOr FileSystem.unlink path
  else Prog.fail ExitCode.ioError.failure

/-- What is done on the way. -/
inductive Op where
  | mkTmpdir (path : CString)
  | mkTmpAncestorDirs (path : CString)
  | newFile (path : CString)
  | newLink (path target : CString)

/-- One of them. -/
def Op.run : Op → DiskIo Unit
  | .mkTmpdir path => dccMkTmpdir path
  | .mkTmpAncestorDirs path => dccMkTmpAncestorDirs path
  | .newFile path => newEntry path .file
  | .newLink path target => newEntry path (.link target)

/-- `dcc_cleanup_tempfiles`: from the last name to the first one, each is removed as a directory
and, if that fails, as a file. With `DISTCC_SAVE_TEMPS`, the list is emptied all the same. -/
def dccCleanupTempfiles (save : Bool) (d : Disk) : Disk :=
  { d with
    tree := if save then d.tree else d.cleanups.foldr (fun path tree => tree.remove path) d.tree
    cleanups := [] }

/-! ### What is registered -/

/-- **All that is new is registered**: the tree comes from the one in the beginning by making
something under each of the names, the last one first in the list. -/
inductive Built (fs : FileSystem) : FileSystem → List CString → Prop where
  | start {tree : FileSystem} (h : fs.SameTree tree) : Built fs tree []
  | made {tree tree' : FileSystem} {names : List CString} {path : CString} {e : FsEntry}
      (h : Built fs tree names) (hadds : tree.Adds path e tree') : Built fs tree' (path :: names)

section Building

variable {fs tree tree' : FileSystem} {names : List CString}

theorem Built.congr (h : Built fs tree names) (hsame : tree.SameTree tree') :
    Built fs tree' names := by
  cases h with
  | start hstart => exact .start (hstart.trans hsame)
  | made h hadds => exact .made h (hadds.congr hsame)

/-- **To remove one after the other** leads back to the beginning. -/
theorem Built.restored (h : Built fs tree names) :
    fs.SameTree (names.foldl (fun tree path => tree.remove path) tree) := by
  induction names generalizing tree with
  | nil =>
    cases h with
    | start hstart => exact hstart
  | cons path names ih =>
    cases h with
    | made h hadds => exact ih (h.congr hadds.removed)

end Building

/-! ### What the functions register -/

/-- The tree and the list are as before. -/
def Untouched (d d' : Disk) : Prop := d'.tree = d.tree ∧ d'.cleanups = d.cleanups

instance : IsPreorder Disk Untouched where
  refl _ := ⟨rfl, rfl⟩
  trans _ _ _ h h' := ⟨h'.1.trans h.1, h'.2.trans h.2⟩

/-- If all that is new was registered, it still is. -/
def Maintains (fs : FileSystem) (d d' : Disk) : Prop :=
  Built fs d.tree d.cleanups.reverse → Built fs d'.tree d'.cleanups.reverse

instance (fs : FileSystem) : IsPreorder Disk (Maintains fs) where
  refl _ h := h
  trans _ _ _ h h' hbuilt := h' (h hbuilt)

section Specs

variable {fs : FileSystem} {d d' : Disk} {path : CString}

theorem Untouched.maintains ⦃d d' : Disk⦄ (h : Untouched d d') : Maintains fs d d' := by
  intro hbuilt
  rwa [h.1, h.2]

theorem reply_keeps : reply.Keeps Untouched := by
  refine keeps_get.bind fun d => ?_
  split
  · exact keeps_pure _
  · exact (keeps_modify fun _ => ⟨rfl, rfl⟩).bind fun _ => keeps_pure _

theorem stat_keeps (path : CString) : (stat path).Keeps Untouched := by
  refine reply_keeps.bind fun r => ?_
  split
  · refine keeps_get.bind fun d => ?_
    split
    · exact keeps_pure _
    · exact keeps_pure _
    · exact keeps_pure _
  · exact keeps_pure _

theorem growCleanups_keeps : growCleanups.Keeps Untouched := by
  refine keeps_get.bind fun d => ?_
  split
  · refine reply_keeps.bind fun room => ?_
    split
    · exact (keeps_modify fun _ => ⟨rfl, rfl⟩).bind fun _ => keeps_pure _
    · exact keeps_pure _
  · exact keeps_pure _

/-- A name is registered, or nothing has happened. -/
theorem dccAddCleanup_spec {r : Except Failure Unit} (h : dccAddCleanup path d = some (r, d')) :
    r = .ok () ∧ d'.tree = d.tree ∧ d'.cleanups = d.cleanups ++ [path] ∨
      (∃ e, r = .error e) ∧ Untouched d d' := by
  rcases bind_cases h with ⟨e, rfl, hgrow⟩ | ⟨room, d₁, hgrow, h⟩
  · exact .inr ⟨⟨e, rfl⟩, growCleanups_keeps hgrow⟩
  have h1 := growCleanups_keeps hgrow
  split at h
  · rcases bind_cases h with ⟨e, rfl, halloc⟩ | ⟨copied, d₂, halloc, h⟩
    · exact .inr ⟨⟨e, rfl⟩, IsTrans.trans _ _ _ h1 (reply_keeps halloc)⟩
    have h2 := IsTrans.trans _ _ _ h1 (reply_keeps halloc)
    split at h
    · obtain ⟨rfl, rfl⟩ := modify_eq_some_iff.mp h
      exact .inl ⟨rfl, h2.1, congrArg (· ++ [path]) h2.2⟩
    · obtain ⟨rfl, rfl⟩ := fail_eq_some_iff.mp h
      exact .inr ⟨⟨_, rfl⟩, h2⟩
  · obtain ⟨rfl, rfl⟩ := fail_eq_some_iff.mp h
    exact .inr ⟨⟨_, rfl⟩, h1⟩

/-- Something new was made, or nothing has happened. -/
def Makes (path : CString) (e : FsEntry) (made : DiskIo Bool) : Prop :=
  ∀ ⦃d r d'⦄, made d = some (r, d') →
    r = .ok true ∧ d.tree.Adds path e d'.tree ∧ d'.cleanups = d.cleanups ∨
      r ≠ .ok true ∧ Untouched d d'

theorem make_makes {e : FsEntry} (he : e ≠ .directory → path.getLast? ≠ some 47) :
    Makes path e (make path e) := by
  intro d r d' h
  rcases bind_cases h with ⟨e, rfl, hreply⟩ | ⟨ok, d₁, hreply, h⟩
  · exact .inr ⟨nofun, reply_keeps hreply⟩
  have h1 := reply_keeps hreply
  split at h
  · rw [get_bind] at h
    split at h
    · obtain ⟨rfl, rfl⟩ := pure_eq_some_iff.mp h
      exact .inr ⟨nofun, h1⟩
    · case h_2 tree htree =>
      rw [modify_bind] at h
      obtain ⟨rfl, rfl⟩ := pure_eq_some_iff.mp h
      refine .inl ⟨rfl, ?_, h1.2⟩
      rw [← h1.1]
      exact FileSystem.adds_of_create htree he
  · obtain ⟨rfl, rfl⟩ := pure_eq_some_iff.mp h
    exact .inr ⟨nofun, h1⟩

theorem makeFile_makes (e : FsEntry) : Makes path e (makeFile path e) := by
  unfold makeFile
  split
  · intro d r d' h
    obtain ⟨rfl, rfl⟩ := pure_eq_some_iff.mp h
    exact .inr ⟨nofun, rfl, rfl⟩
  · case isFalse hslash => exact make_makes fun _ => hslash

section Registering

variable {e : FsEntry} {undo : FileSystem → CString → Option FileSystem}
  (hundo : ∀ ⦃tree tree' : FileSystem⦄, tree.Adds path e tree' →
    ∃ tree'', undo tree' path = some tree'' ∧ tree.SameTree tree'')
include hundo

/-- What was just made is registered, or it is removed. -/
theorem addCleanupOr_built {tree : FileSystem} (hbuilt : Built fs tree d.cleanups.reverse)
    (hadds : tree.Adds path e d.tree) {r : Except Failure Unit}
    (h : addCleanupOr undo path d = some (r, d')) : Built fs d'.tree d'.cleanups.reverse := by
  obtain ⟨ret, d₁, hadd, h⟩ := attempt_bind_cases h
  rcases dccAddCleanup_spec hadd with ⟨rfl, htree, hlist⟩ | ⟨⟨e, rfl⟩, htree, hlist⟩
  · obtain ⟨-, rfl⟩ := pure_eq_some_iff.mp h
    rw [htree, hlist, List.reverse_append]
    exact .made hbuilt hadds
  · dsimp only at h
    rw [modify_bind] at h
    obtain ⟨-, rfl⟩ := fail_eq_some_iff.mp h
    obtain ⟨tree'', hrun, hsame⟩ := hundo hadds
    dsimp only
    rw [htree, hlist, hrun]
    exact hbuilt.congr hsame

/-- **What is made is registered.** -/
theorem register_keeps {made : DiskIo Bool} (hmade : Makes path e made) :
    (do
      if ← made then addCleanupOr undo path
      else Prog.fail ExitCode.ioError.failure : DiskIo Unit).Keeps (Maintains fs) := by
  intro d r d' h hbuilt
  rcases bind_cases h with ⟨e, -, hrun⟩ | ⟨ok, d₁, hrun, h⟩
  · rcases hmade hrun with ⟨hok, -⟩ | ⟨-, hsame⟩
    · cases hok
    · exact hsame.maintains hbuilt
  · rcases hmade hrun with ⟨hok, hadds, hlist⟩ | ⟨hok, hsame⟩
    · rw [if_pos (Except.ok.inj hok)] at h
      exact addCleanupOr_built hundo (hlist ▸ hbuilt) hadds h
    · rw [if_neg fun htrue => hok (congrArg Except.ok htrue)] at h
      obtain ⟨-, rfl⟩ := fail_eq_some_iff.mp h
      exact hsame.maintains hbuilt

end Registering

theorem dccMkTmpdir_keeps (path : CString) : (dccMkTmpdir path).Keeps (Maintains fs) := by
  refine ((stat_keeps path).mono Untouched.maintains).bind fun stat => ?_
  cases stat with
  | nothing =>
    exact register_keeps (fun _ _ hadds => hadds.rmdir_eq) (make_makes fun he => absurd rfl he)
  | directory => exact keeps_pure _
  | other => exact keeps_fail _

theorem dccMkTmpAncestorDirs_keeps (path : CString) :
    (dccMkTmpAncestorDirs path).Keeps (Maintains fs) := by
  refine (reply_keeps.mono Untouched.maintains).bind fun room => ?_
  split
  · dsimp only
    split
    · exact keeps_pure _
    · refine (dccMkTmpdir_keeps _).attempt.bind fun ret => ?_
      rcases ret with e | _
      · exact (Prog.Keeps.forEach fun p _ => dccMkTmpdir_keeps p).bind fun _ =>
          dccMkTmpdir_keeps _
      · exact keeps_pure _
  · exact keeps_fail _

theorem newEntry_keeps (path : CString) {e : FsEntry} (he : e ≠ .directory) :
    (newEntry path e).Keeps (Maintains fs) :=
  register_keeps (fun _ _ hadds => (hadds.unlink_eq he).2) (makeFile_makes e)

/-- **Nothing that is made is forgotten**, even if something fails. -/
theorem Op.run_keeps (op : Op) : op.run.Keeps (Maintains fs) := by
  rcases op with path | path | path | ⟨path, target⟩
  · exact dccMkTmpdir_keeps path
  · exact dccMkTmpAncestorDirs_keeps path
  · exact newEntry_keeps path nofun
  · exact newEntry_keeps path nofun

end Specs

/-- **Cleaning up restores the file system**: after any operations, what is left is the tree
that there was in the beginning. -/
theorem cleanup_restores {fs : FileSystem} {size : ℕ} {replies : List Bool} {ops : List Op}
    {d : Disk} (h : Prog.forEach Op.run ops ⟨fs, [], size, replies⟩ = some (.ok (), d)) :
    (dccCleanupTempfiles false d).tree.entry = fs.entry ∧
      (dccCleanupTempfiles false d).cleanups = [] := by
  have hbuilt : Built fs d.tree d.cleanups.reverse :=
    Prog.Keeps.forEach (fun op _ => op.run_keeps) h (.start (.refl fs))
  have hrestored := hbuilt.restored
  rw [List.foldl_reverse] at hrestored
  exact ⟨hrestored.entry, rfl⟩

/-- `/t` and `/d`, which are empty. -/
def twoDirs : FileSystem :=
  .ofTable [([lit "t"], .directory), ([lit "d"], .directory)] (by decide)

/-- A link from one to the other, and through it directories with dots on the way. -/
def throughLink : List Op :=
  [.newLink (lit "/t/l") (lit "/d"), .mkTmpdir (lit "/t/l/x/"),
    .mkTmpAncestorDirs (lit "/t/l/x/../y/z/f"), .newFile (lit "/d/y/z/f")]

theorem cleanup_restores_twoDirs :
    ∃ d, Prog.forEach Op.run throughLink ⟨twoDirs, [], 0, []⟩ = some (.ok (), d) ∧
      d.cleanups = ["/t/l", "/t/l/x/", "/t/l/x/../y", "/t/l/x/../y/z", "/d/y/z/f"].map lit ∧
      (dccCleanupTempfiles false d).tree.entry = twoDirs.entry := by
  have hyields : (Prog.forEach Op.run throughLink).yields ⟨twoDirs, [], 0, []⟩ (fun _ d =>
      d.cleanups = ["/t/l", "/t/l/x/", "/t/l/x/../y", "/t/l/x/../y/z", "/d/y/z/f"].map lit) =
        true := by decide +kernel
  obtain ⟨⟨⟩, d, hrun, hlist⟩ := exists_of_yields hyields
  exact ⟨d, hrun, of_decide_eq_true hlist, (cleanup_restores hrun).1⟩

end Disk

end Distcc
