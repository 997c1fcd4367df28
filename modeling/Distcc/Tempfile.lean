import Distcc.Base.Numeral
import Distcc.Filename
import Distcc.Io

/-!
# Files and directories

The calls that change the file system, and on top of them the model of `src/tempfile.c`:
names for new files, and the directories on the way to a file.

Of the list of files to clean up, only whether there is room for one more is modelled.
A directory that is there is known by the name it was made under; the system may know
more of them, and its answer to `stat` has the last word.
-/

namespace Distcc

open CString Prog

/-! ### The calls -/

/-- A file is there, and empty. -/
def World.created (w : World) (name : CString) : World :=
  { w with
    files := Function.update w.files name (some [])
    calls := w.calls ++ [.create name] }

/-- There is nothing under this name. -/
def World.removed (w : World) (name : CString) : World :=
  { w with
    files := Function.update w.files name none
    links := Function.update w.links name none
    calls := w.calls ++ [.unlink name] }

/-- There is a directory of this name. -/
def World.madeDir (w : World) (path : CString) : World :=
  { w with
    dirs := Function.update w.dirs path true
    calls := w.calls ++ [.mkdir path] }

/-- There is no directory of this name. -/
def World.removedDir (w : World) (path : CString) : World :=
  { w with
    dirs := Function.update w.dirs path false
    calls := w.calls ++ [.rmdir path] }

/-- `unlink` -/
def unlink (name : CString) : Io (Except Errno Unit) := change (·.removed name)

/-- `open`, with `O_TRUNC` and `O_CREAT`. -/
def openWrite (name : CString) : Io (Except Errno Unit) := change (·.created name)

/-- `open`, with `O_CREAT` and `O_EXCL`: there must be nothing of this name. -/
def openNew (name : CString) : Io (Except Errno Unit) := do
  let w ← Prog.get
  if (w.files name).isSome ∨ (w.links name).isSome ∨ w.dirs name then pure (.error .other)
  else change (·.created name)

/-- `mkdir`: there must be no directory of this name. -/
def mkdir (path : CString) : Io (Except Errno Unit) := do
  let w ← Prog.get
  if w.dirs path then pure (.error .other) else change (·.madeDir path)

/-- `rmdir` -/
def rmdir (path : CString) : Io (Except Errno Unit) := change (·.removedDir path)

/-- What `stat` finds. -/
inductive Stat where
  /-- Nothing, or nothing it could tell. -/
  | nothing
  /-- A directory. -/
  | directory
  /-- Something that is no directory. -/
  | other
  deriving DecidableEq, Repr

/-- `stat`, of what should be a directory. -/
def statDir (path : CString) : Io Stat := do
  match ← nextReply with
  | .full => do
    let w ← Prog.get
    pure (if w.dirs path then .directory else .nothing)
  | .short _ => pure .directory
  | .zero => pure .other
  | .error _ => pure .nothing

/-! ### The functions -/

/-- `dcc_add_cleanup` -/
def dccAddCleanup (_filename : CString) : Io Unit := do
  if ← alloc then pure () else Prog.fail ExitCode.outOfMemory.failure

/-- `dcc_add_cleanup`, for what is of no use without it and is taken back. -/
def addCleanupOr (undo : CString → Io (Except Errno Unit)) (path : CString) : Io Unit := do
  match ← (dccAddCleanup path).attempt with
  | .ok () => pure ()
  | .error ret => do
    let _ ← undo path
    Prog.fail ret

/-- `dcc_mk_tmpdir` -/
def dccMkTmpdir (path : CString) : Io Unit := do
  match ← statDir path with
  | .nothing => do
    match ← mkdir path with
    | .error _ => Prog.fail ExitCode.ioError.failure
    | .ok () => addCleanupOr rmdir path
  | .directory => pure ()
  | .other => Prog.fail ExitCode.ioError.failure

/-- What stands before the slashes of a path, other than one in front. -/
def ancestors : CString → CString → List CString
  | _, [] => []
  | before, b :: s =>
    if b = '/'.toUInt8 ∧ before ≠ [] then before :: ancestors (before ++ [b]) s
    else ancestors (before ++ [b]) s

/-- `dcc_mk_tmp_ancestor_dirs` -/
def dccMkTmpAncestorDirs (path : CString) : Io Unit := do
  if ← alloc then do
    let copy := dccTruncateToDirname path
    if copy = [] then pure ()
    else do
      match ← (dccMkTmpdir copy).attempt with
      | .ok () => pure ()
      | .error _ => do
        Prog.forEach dccMkTmpdir (ancestors [] copy)
        dccMkTmpdir copy
  else Prog.fail ExitCode.outOfMemory.failure

/-- `dcc_get_tmp_top` -/
def dccGetTmpTop (proc : Proc) : CString :=
  match proc.env (lit "TMPDIR") with
  | none | some [] => lit "/tmp"
  | some d => d

/-- The name `dcc_make_tmpnam` tries, from what it takes for random bits. -/
def tmpnam (tempdir pre suffix : CString) (randomBits : ℕ) : CString :=
  tempdir ++ lit "/" ++ pre ++ lit "_" ++ hexWord randomBits ++ suffix

section MakeTmpnam

variable {σ ε β : Type}

/-- A turn of the loop in `dcc_make_tmpnam`, on any machine: `asprintf`, `open` and `close` are
calls of the machine, and `next` is what the next turn is given. -/
def tmpnamTurn (asprintf : Prog σ Failure Bool) (openNew close : Prog σ Failure (Except ε Unit))
    (s : CString) (next : β) : Prog σ Failure (β ⊕ CString) := do
  if ← asprintf then do
    match ← openNew with
    | .error _ => pure (.inl next)
    | .ok () => do
      match ← close with
      | .error _ => Prog.fail ExitCode.ioError.failure
      | .ok () => pure (.inr s)
  else Prog.fail ExitCode.outOfMemory.failure

/-- `dcc_make_tmpnam` on any machine, with what it does about the directory before its loop and
about the file after it. -/
def tmpnamCall (access : Prog σ Failure (Except ε Unit)) (loop : Prog σ Failure CString)
    (register : CString → Prog σ Failure Unit) : Prog σ Failure CString := do
  match ← access with
  | .error _ => Prog.fail ExitCode.ioError.failure
  | .ok () => do
    let s ← loop
    register s
    pure s

end MakeTmpnam

/-- A turn of the loop in `dcc_make_tmpnam`. -/
def makeTmpnamTurn (tempdir pre suffix : CString) (randomBits : ℕ) : Io (ℕ ⊕ CString) :=
  let s := tmpnam tempdir pre suffix randomBits
  tmpnamTurn alloc (openNew s) syscall s (randomBits + 7777)

/-- `dcc_make_tmpnam`, from the process number and the time of day it is called at. -/
def dccMakeTmpnam (pre suffix : CString) (randomBits : ℕ) : Io CString := do
  let w ← Prog.get
  let tempdir := dccGetTmpTop w.proc
  tmpnamCall syscall (loopFor 0 (makeTmpnamTurn tempdir pre suffix) randomBits)
    (addCleanupOr unlink)

/-- `dcc_get_new_tmpdir`, with the six letters that `mkdtemp` comes up with. -/
def dccGetNewTmpdir (letters : CString) : Io CString := do
  let w ← Prog.get
  let s := dccGetTmpTop w.proc ++ lit "/distccd_" ++ letters
  if ← alloc then do
    match ← mkdir s with
    | .error _ => Prog.fail ExitCode.ioError.failure
    | .ok () => do
      addCleanupOr rmdir s
      pure s
  else Prog.fail ExitCode.outOfMemory.failure

/-! ### What they do -/

section Specs

variable {w w' : World} {path : CString}

theorem World.does_removed (w : World) (name : CString) : w.Does 0 (w.removed name) :=
  does_zero rfl rfl rfl rfl rfl rfl

theorem World.does_created (w : World) (name : CString) : w.Does 0 (w.created name) :=
  does_zero rfl rfl rfl rfl rfl rfl

theorem World.silent_madeDir (path : CString) (w : World) : w.Silent (w.madeDir path) :=
  ⟨does_zero rfl rfl rfl rfl rfl rfl, fun _ => rfl, fun _ => rfl⟩

theorem World.silent_removedDir (path : CString) (w : World) : w.Silent (w.removedDir path) :=
  ⟨does_zero rfl rfl rfl rfl rfl rfl, fun _ => rfl, fun _ => rfl⟩

theorem statDir_keeps (path : CString) : (statDir path).Keeps World.Same := by
  refine nextReply_keeps.bind fun reply => ?_
  rcases reply with _ | _ | _ | _
  · exact keeps_get.bind fun _ => keeps_pure _
  · exact keeps_pure _
  · exact keeps_pure _
  · exact keeps_pure _

theorem dccAddCleanup_keeps (name : CString) : (dccAddCleanup name).Keeps World.Same := by
  refine alloc_keeps.bind fun room => ?_
  cases room with
  | true => exact keeps_pure _
  | false => exact keeps_fail _

theorem dccAddCleanup_returns (name : CString) (hw : w.Benign) :
    ∃ w', dccAddCleanup name w = some (.ok (), w') ∧ w.Same w' := by
  obtain ⟨w', hsame, hrun⟩ := alloc_then_of_benign (pure ()) ExitCode.outOfMemory.failure hw
  exact ⟨w', hrun, hsame⟩

/-- A directory that is known is not made. -/
theorem dccMkTmpdir_known (hdir : w.dirs path = true) {r : Except Failure Unit}
    (h : dccMkTmpdir path w = some (r, w')) : w.Same w' := by
  rcases bind_cases h with ⟨_, -, hstat⟩ | ⟨stat, w₁, hstat, hrest⟩
  · exact statDir_keeps path hstat
  have hsame := statDir_keeps path hstat
  cases stat with
  | directory =>
    obtain ⟨-, rfl⟩ := pure_eq_some_iff.mp hrest
    exact hsame
  | other =>
    obtain ⟨-, rfl⟩ := fail_eq_some_iff.mp hrest
    exact hsame
  | nothing =>
    have hdir1 : w₁.dirs path = true := by
      rw [hsame.eq]
      exact hdir
    have hmkdir : mkdir path w₁ = some (.ok (.error .other), w₁) := by
      rw [mkdir, get_bind, if_pos hdir1]
      rfl
    replace hrest := (bind_of_ok hmkdir).symm.trans hrest
    obtain ⟨-, rfl⟩ := fail_eq_some_iff.mp hrest
    exact hsame

end Specs

/-! ### What a bystander sees of them -/

section Keeping

variable {R : World → World → Prop} [IsPreorder World R]

section

variable (hR : ∀ ⦃w w' : World⦄, w.Same w' → R w w') {path : CString}

include hR

theorem mkdir_keeps (hmake : ∀ w : World, R w (w.madeDir path)) : (mkdir path).Keeps R := by
  refine keeps_get.bind fun w => ?_
  split
  · exact keeps_pure _
  · exact change_keeps hR hmake

theorem addCleanupOr_keeps {undo : CString → Io (Except Errno Unit)}
    (hundo : (undo path).Keeps R) : (addCleanupOr undo path).Keeps R := by
  refine ((dccAddCleanup_keeps path).mono hR).attempt.bind fun ret => ?_
  rcases ret with e | _
  · exact hundo.bind fun _ => keeps_fail e
  · exact keeps_pure _

theorem dccMkTmpdir_keeps (hmake : ∀ w : World, R w (w.madeDir path))
    (hremove : ∀ w : World, R w (w.removedDir path)) : (dccMkTmpdir path).Keeps R := by
  refine ((statDir_keeps path).mono hR).bind fun stat => ?_
  cases stat with
  | nothing =>
    refine (mkdir_keeps hR hmake).bind fun res => ?_
    rcases res with e | _
    · exact keeps_fail _
    · exact addCleanupOr_keeps hR (change_keeps hR hremove)
  | directory => exact keeps_pure _
  | other => exact keeps_fail _

/-- What holds of making each directory on the way, holds of making the way. -/
theorem dccMkTmpAncestorDirs_keeps
    (hdirs : ∀ p ∈ dccTruncateToDirname path :: ancestors [] (dccTruncateToDirname path),
      (dccMkTmpdir p).Keeps R) : (dccMkTmpAncestorDirs path).Keeps R := by
  refine (alloc_keeps.mono hR).bind fun room => ?_
  cases room with
  | false => exact keeps_fail _
  | true =>
    dsimp only
    rw [if_pos rfl]
    split
    · exact keeps_pure _
    · have hlast := hdirs _ List.mem_cons_self
      refine hlast.attempt.bind fun ret => ?_
      rcases ret with e | _
      · refine Prog.Keeps.bind (.forEach fun p hp => hdirs p (List.mem_cons_of_mem _ hp)) ?_
        exact fun _ => hlast
      · exact keeps_pure _

end

theorem dccMkTmpAncestorDirs_silent (path : CString) :
    (dccMkTmpAncestorDirs path).Keeps World.Silent :=
  dccMkTmpAncestorDirs_keeps World.Same.silent fun p _ =>
    dccMkTmpdir_keeps World.Same.silent (World.silent_madeDir p) (World.silent_removedDir p)

end Keeping

/-! ### When nothing fails -/

section Returns

variable {w : World}

theorem dccMkTmpdir_returns (path : CString) (hw : w.Benign) :
    ∃ w', dccMkTmpdir path w = some (.ok (), w') := by
  have hmake (w₁ : World) (hw1 : w₁.Benign) (hdir : ¬w₁.dirs path = true) :
      ∃ w', (do
        match ← mkdir path with
        | .error _ => Prog.fail ExitCode.ioError.failure
        | .ok () => addCleanupOr rmdir path : Io Unit) w₁ = some (.ok (), w') := by
    obtain ⟨w₂, hrun, hsame⟩ := change_succeeds (·.madeDir path) hw1
    have hmkdir : mkdir path w₁ = some (.ok (.ok ()), w₂.madeDir path) := by
      rw [mkdir, get_bind, if_neg hdir]
      exact hrun
    have hw2 : (w₂.madeDir path).Benign := hsame.benign hw1
    obtain ⟨w', hadd, -⟩ := dccAddCleanup_returns path hw2
    refine ⟨w', ?_⟩
    rw [bind_of_ok hmkdir]
    exact bind_of_ok (attempt_eq_ok_iff.mpr hadd)
  obtain ⟨reply, w₁, hreply, hsame, hbenign, -⟩ := nextReply_total w
  cases reply with
  | zero => exact (hbenign hw).elim
  | error e => exact (hbenign hw).elim
  | short n =>
    have hstat : statDir path w = some (.ok .directory, w₁) := bind_of_ok hreply
    exact ⟨w₁, bind_of_ok hstat⟩
  | full =>
    by_cases hdir : w₁.dirs path = true
    · have hstat : statDir path w = some (.ok .directory, w₁) := by
        rw [statDir, bind_of_ok hreply]
        dsimp only
        rw [get_bind, if_pos hdir]
        rfl
      exact ⟨w₁, bind_of_ok hstat⟩
    · have hstat : statDir path w = some (.ok .nothing, w₁) := by
        rw [statDir, bind_of_ok hreply]
        dsimp only
        rw [get_bind, if_neg hdir]
        rfl
      obtain ⟨w', hrun⟩ := hmake w₁ (hsame.benign hw) hdir
      exact ⟨w', (bind_of_ok hstat).trans hrun⟩

theorem dccMkTmpAncestorDirs_returns (path : CString) (hw : w.Benign) :
    ∃ w', dccMkTmpAncestorDirs path w = some (.ok (), w') := by
  obtain ⟨room, w₁, halloc, hsame, hok⟩ := alloc_total w
  rw [hok hw] at halloc
  rw [dccMkTmpAncestorDirs, bind_of_ok halloc, if_pos rfl]
  dsimp only
  split
  · exact ⟨w₁, rfl⟩
  · obtain ⟨w', hrun⟩ := dccMkTmpdir_returns (dccTruncateToDirname path) (hsame.benign hw)
    exact ⟨w', bind_of_ok (attempt_eq_ok_iff.mpr hrun)⟩

end Returns

end Distcc
