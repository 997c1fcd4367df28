import Distcc.Client.Run

/-!
# Building somewhere

Model of `dcc_build_somewhere` and `dcc_compile_local` (`src/compile.c`), of
`dcc_compile_remote` (`src/remote.c`), `dcc_cpp_maybe` (`src/cpp.c`) and
`dcc_critique_status` (`src/exec.c`).

`dcc_build_somewhere` is written with `goto`s. Each of its labels is a function
here, that takes the local variables and what is in `ret`, and a `goto` is a call:
`Build.fallback`, `Build.lockLocal`, `Build.runLocal`,
`Build.unlockAndCleanUp`, `Build.cleanUp`. The straight piece of code
between two of them is a function as well.

The program is built without GSSAPI, which no default configuration turns on.
-/

namespace Distcc

open CString Option

/-! ### What a status means -/

/-- `WIFSIGNALED` -/
def wifsignaled (status : ℤ) : Bool := 0 < status % 128 ∧ status % 128 < 127

/-- `WTERMSIG` -/
def wtermsig (status : ℤ) : ℤ := status % 128

/-- `WEXITSTATUS` -/
def wexitstatus (status : ℤ) : ℤ := status / 256 % 256

/-- `dcc_critique_status` -/
def dccCritiqueStatus (status : ℤ) : ℤ :=
  if wifsignaled status then 128 + wtermsig status else wexitstatus status

/-- A compiler that ended with this status succeeded: it was not killed, and said
that all is well. -/
def StatusOk (status : ℤ) : Prop := wifsignaled status = false ∧ wexitstatus status = 0

theorem dccCritiqueStatus_eq_zero_iff {status : ℤ} :
    dccCritiqueStatus status = 0 ↔ StatusOk status := by
  cases h : wifsignaled status with
  | false => simp [dccCritiqueStatus, StatusOk, h]
  | true =>
    have hsig : 128 + wtermsig status ≠ 0 := by
      unfold wtermsig
      omega
    simp [dccCritiqueStatus, StatusOk, h, hsig]

namespace Build

/-! ### The labels at the end -/

/-- `clean_up:` -/
def cleanUp (ret : ℤ) (s : Build) : Option (ℤ × Build) := some (ret, s.store s.argv none)

/-- `dcc_unlock`, if there is a descriptor. -/
def unlockIf (fd : ℤ) (s : Build) : Build := if fd ≠ noFd then s.emit (.unlocked fd) else s

/-- The two descriptors are given up, that of the build host first. -/
def unlockBoth (s : Build) : Build :=
  let s := { s.unlockIf s.cpuLockFd with cpuLockFd := noFd }
  { s.unlockIf s.localCpuLockFd with localCpuLockFd := noFd }

/-- `unlock_and_clean_up:` -/
def unlockAndCleanUp (ret : ℤ) (s : Build) : Option (ℤ × Build) := cleanUp ret s.unlockBoth

/-- `dcc_compile_local` -/
def dccCompileLocal (env : BuildEnv) : ℤ :=
  if env.localSpawn ≠ 0 then env.localSpawn
  else if env.localCollect ≠ 0 then env.localCollect
  else dccCritiqueStatus env.localStatus

/-- `run_local:`, up to whom is mailed or blamed for a difference. -/
def runLocal (env : BuildEnv) (s : Build) : Option (ℤ × Build) := do
  let argv ← s.words s.argv
  unlockAndCleanUp (dccCompileLocal env) (s.emit (.compiledLocally argv (dccCompileLocal env)))

/-- A call of `dcc_lock_one`, and what it leaves in a descriptor. -/
def lockOne (env : BuildEnv) (kind : LockKind) (hosts : List Hostdef)
    (attempts : List LockAttempt) (fd : ℤ) (s : Build) :
    Option (Except ExitCode Hostdef × ℤ × Build) := do
  let r ← dccLockOne env.turns (.start hosts) attempts s.fresh fd
  let s := { s with fresh := r.fresh }
  match r.ret with
  | .ok h => some (.ok h, r.fd, s.emit (.locked kind r.fd))
  | .error e => some (.error e, r.fd, s.emit (.lockFailed r.fd))

/-- `lock_local:`; what `dcc_lock_local` returns is not looked at. -/
def lockLocal (env : BuildEnv) (s : Build) : Option (ℤ × Build) := do
  let (_, fd, s) ←
    s.lockOne env .here [.ofLocalSlots env.localslots] env.localAttempts s.cpuLockFd
  runLocal env { s with cpuLockFd := fd }

/-- `fallback:` -/
def fallback (env : BuildEnv) (ret : ℤ) (s : Build) : Option (ℤ × Build) :=
  if env.fallback then lockLocal env s.unlockBoth
  else cleanUp ret (s.unlockBoth.emit (.copiedStderr env.copyStderrLate))

/-! ### The remote compilation -/

/-- The label `out:` of `dcc_compile_remote`. -/
def remoteOut (ret : ℤ) (localFd : ℤ) (s : Build) : ℤ × Build :=
  (ret, s.unlockIf localFd)

/-- The end of `dcc_compile_remote`, when the request was sent. -/
def remoteRetrieve (env : BuildEnv) (localFd : ℤ) (s : Build) : ℤ × Build :=
  remoteOut env.retrieve localFd { s with status := env.remoteStatus }

/-- `dcc_compile_remote`, once it is connected and preprocessing is the client's:
the header, the end of cpp, the source. -/
def remoteClientCpp (env : BuildEnv) (cppPid : Bool) (localFd : ℤ) (s : Build) : ℤ × Build :=
  if env.sendHeader ≠ 0 then remoteOut env.sendHeader localFd s
  else if cppPid ∧ env.cppCollect ≠ 0 then remoteOut env.cppCollect localFd s
  else
    let s := if cppPid then { s with status := env.cppStatus } else s
    -- the local machine is free for other preprocessors
    let s := s.unlockIf localFd
    if s.status ≠ 0 then remoteOut 0 noFd s
    else if env.sendSource ≠ 0 then remoteOut env.sendSource noFd s
    else remoteRetrieve env noFd s

/-- `dcc_compile_remote`: what it returns, with the status left in `*status`. -/
def dccCompileRemote (env : BuildEnv) (cppWhere : CppWhere) (cppPid : Bool) (s : Build) :
    ℤ × Build :=
  let localFd := s.localCpuLockFd
  let s := { s with status := 0 }
  if env.connect ≠ 0 then remoteOut env.connect localFd s
  else match cppWhere with
  | .onServer =>
    if env.sendHeader ≠ 0 then remoteOut env.sendHeader localFd s
    else if env.manyFiles ≠ 0 then remoteOut env.manyFiles localFd s
    else remoteRetrieve env localFd s
  | .onClient => remoteClientCpp env cppPid localFd s

/-- `dcc_build_somewhere` after a remote compilation that returned 0. -/
def afterRemote (env : BuildEnv) (s : Build) : Option (ℤ × Build) :=
  let s := { s.emit (.unlocked s.cpuLockFd) with cpuLockFd := noFd }
  let ret := dccCritiqueStatus s.status
  if ret = 0 then
    let s := s.emit (.copiedStderr env.copyStderr)
    if env.copyStderr ≠ 0 then fallback env ret s else cleanUp ret s
  else if ret < 128 then
    if env.skipLocalRetry then
      let s := s.emit (.copiedStderr env.copyStderr)
      if env.copyStderr ≠ 0 then fallback env ret s else cleanUp ret s
    else fallback env ret { s with remoteRet := ret }
  else fallback env ret s

/-- The call of `dcc_compile_remote`, which gives up the local lock. -/
def buildRemotely (env : BuildEnv) (cppWhere : CppWhere) (cppPid : Bool) (s : Build) :
    Option (ℤ × Build) :=
  match s.dccCompileRemote env cppWhere cppPid with
  | (ret, s) =>
    let s := { s.emit (.compiledRemotely ret s.status) with localCpuLockFd := noFd }
    if ret ≠ 0 then fallback env ret s else afterRemote env s

/-! ### Preparing it -/

/-- `dcc_cpp_maybe`: what it returns, and whether there is a preprocessor to wait
for. -/
def dccCppMaybe (env : BuildEnv) (inputFname : CString) (s : Build) : Option (ℤ × Bool × Build) :=
  if dccIsPreprocessed inputFname then
    some (if env.cppStrdup then 0 else ExitCode.outOfMemory.toInt, false, s)
  else if env.cppTmpnam ≠ 0 then some (env.cppTmpnam, false, s)
  else if !env.dashoMalloc then some (ExitCode.outOfMemory.toInt, false, s)
  else do
    let cppArgv := s.heap.length
    let s := s.alloc (← dccStripDasho (← s.words s.argv))
    match dccSetActionOpt (lit "-E") (← s.words cppArgv) with
    | none => some (ExitCode.distccFailed.toInt, false, s)
    | some argv => some (env.cppSpawn, env.cppSpawn = 0, s.store cppArgv argv)

/-- `dcc_build_somewhere` when the client preprocesses, once it does. -/
def buildStripped (env : BuildEnv) (cppPid : Bool) (s : Build) : Option (ℤ × Build) :=
  let ret := if env.stripMalloc then 0 else ExitCode.outOfMemory.toInt
  let s := s.emit (.stripped ret)
  if ret ≠ 0 then fallback env ret s
  else do
    let argv ← s.words s.argv
    buildRemotely env .onClient cppPid (s.alloc (dccStripLocalArgs argv))

/-- `dcc_build_somewhere` when the client preprocesses. -/
def buildClientCpp (env : BuildEnv) (inputFname : CString) (s : Build) : Option (ℤ × Build) := do
  let (ret, cppPid, s) ← s.dccCppMaybe env inputFname
  let s := s.emit (.preprocessed ret)
  -- what is assigned is the comparison
  if ret ≠ 0 then fallback env 1 s else buildStripped env cppPid s

/-- `dcc_build_somewhere` when the server preprocesses. -/
def buildServerCpp (env : BuildEnv) (s : Build) : Option (ℤ × Build) := do
  if env.serverCopy ≠ 0 then fallback env env.serverCopy s
  else
    let argv ← s.words s.argv
    buildRemotely env .onServer false (s.alloc (argv ++ env.dotdWords))

/-- `dcc_build_somewhere` on a host that is not the local one, with both locks. -/
def buildLocked (env : BuildEnv) (inputFname : CString) (host : Hostdef) (s : Build) :
    Option (ℤ × Build) :=
  let cppWhere := if env.adjustsCpp then CppWhere.onClient else host.cppWhere
  if env.scanIncludes then
    unlockAndCleanUp env.approximateIncludes
      (s.emit (.approximatedIncludes env.approximateIncludes))
  else match cppWhere with
  | .onClient => buildClientCpp env inputFname s
  | .onServer =>
    if env.includeServer ≠ 0 then
      -- `dcc_exit`
      if env.testingIncludeServer then none else buildClientCpp env inputFname s
    else buildServerCpp env { s.emit (.unlocked s.localCpuLockFd) with localCpuLockFd := noFd }

/-- `dcc_build_somewhere` on a host that is not the local one, with its lock. -/
def buildOnHost (env : BuildEnv) (inputFname : CString) (host : Hostdef) (s : Build) :
    Option (ℤ × Build) := do
  let (ret, fd, s) ←
    s.lockOne env .here [.ofLocalSlots env.localslotsCpp] env.cppAttempts s.localCpuLockFd
  let s := { s with localCpuLockFd := fd }
  match ret with
  | .error e => fallback env e.toInt s
  | .ok _ => buildLocked env inputFname host s

/-- `dcc_build_somewhere` on a command that can be distributed. -/
def distribute (env : BuildEnv) (inputFname : CString) (s : Build) : Option (ℤ × Build) :=
  if env.stderrTmpnam ≠ 0 then fallback env env.stderrTmpnam s
  else match env.hostlist with
  | .error e => fallback env e.toInt s
  | .ok [] => fallback env ExitCode.noHosts.toInt s
  | .ok (h :: hosts) => do
    let (ret, fd, s) ← s.lockOne env .build (h :: hosts) env.pickAttempts s.cpuLockFd
    let s := { s with cpuLockFd := fd }
    match ret with
    | .error e => fallback env e.toInt s
    | .ok host =>
      if host.mode = .localhost then runLocal env s else buildOnHost env inputFname host s

/-- `dcc_build_somewhere` from the scan of the arguments on. The vector is replaced
by the copy that was scanned, whatever the scan returned; without a copy, `argv` is
not initialised. -/
def scanAndBuild (env : BuildEnv) (s : Build) : Option (ℤ × Build) := do
  let argv ← s.words s.argv
  if !env.scanCopies then none
  else
    let new := s.heap.length
    match dccScanArgs argv with
    | .error .overrun => none
    | .error .badArguments => none
    | .error .distccFailed => lockLocal env { (s.alloc argv).store s.argv none with argv := new }
    | .ok scanned =>
      distribute env scanned.input { (s.alloc scanned.newargv).store s.argv none with argv := new }

/-- `dcc_expand_preprocessor_options`: the vector is replaced if it has to be. -/
def expand (env : BuildEnv) (s : Build) : Build :=
  match env.expanded with
  | none => s
  | some argv => { (s.alloc argv).store s.argv none with argv := s.heap.length }

/-! ### What the pieces do to a run -/

/-- What giving both descriptors up does. -/
def unlocks (s : Build) : List BuildEvent :=
  (if s.cpuLockFd = noFd then [] else [.unlocked s.cpuLockFd]) ++
    if s.localCpuLockFd = noFd then [] else [.unlocked s.localCpuLockFd]

section

variable (s : Build)
include s

@[simp] theorem unlocks_emit (e : BuildEvent) : (s.emit e).unlocks = s.unlocks := rfl

theorem unlockBoth_eq : s.unlockBoth =
    { s with cpuLockFd := noFd, localCpuLockFd := noFd, trace := s.trace ++ s.unlocks } := by
  unfold unlockBoth unlockIf unlocks emit
  by_cases hc : s.cpuLockFd = noFd <;> by_cases hl : s.localCpuLockFd = noFd <;> simp [hc, hl]

theorem unlockBoth_trace : s.unlockBoth.trace = s.trace ++ s.unlocks := by
  rw [unlockBoth_eq]

@[simp] theorem unlockBoth_cpuLockFd : s.unlockBoth.cpuLockFd = noFd := by
  rw [unlockBoth_eq]

@[simp] theorem unlockBoth_localCpuLockFd : s.unlockBoth.localCpuLockFd = noFd := rfl

@[simp] theorem unlockBoth_argv : s.unlockBoth.argv = s.argv := by
  rw [unlockBoth_eq]

@[simp] theorem unlockBoth_heap : s.unlockBoth.heap = s.heap := by
  rw [unlockBoth_eq]

@[simp] theorem unlockBoth_fresh : s.unlockBoth.fresh = s.fresh := by
  rw [unlockBoth_eq]

end

variable {env : BuildEnv} {s s₁ : Build} {ret : ℤ} {cppPid : Bool}

/-- What `run_local:` does, locks and all. -/
theorem runLocal_spec (h : s.runLocal env = some (ret, s₁)) :
    ∃ argv, s.words s.argv = some argv ∧ ret = dccCompileLocal env ∧
      s₁.trace = s.trace ++ .compiledLocally argv ret :: s.unlocks := by
  simp only [runLocal, unlockAndCleanUp, cleanUp, bind_eq_bind, bind_eq_some_iff,
    some.injEq, Prod.mk.injEq] at h
  obtain ⟨argv, hwords, rfl, rfl⟩ := h
  refine ⟨argv, hwords, rfl, ?_⟩
  have htrace := unlockBoth_trace (s.emit (.compiledLocally argv (dccCompileLocal env)))
  rwa [unlocks_emit, emit_trace, List.append_assoc, List.singleton_append] at htrace

/-- What a call of `dcc_lock_one` does to a run, whatever it returns. -/
theorem lockOne_eq {kind : LockKind} {hosts : List Hostdef} {attempts : List LockAttempt}
    {res : Except ExitCode Hostdef} {fd fd' : ℤ}
    (h : s.lockOne env kind hosts attempts fd' = some (res, fd, s₁)) :
    s₁ = { s with fresh := s₁.fresh }.emit (.locked kind fd) ∨
      s₁ = { s with fresh := s₁.fresh }.emit (.lockFailed fd) := by
  simp only [lockOne, bind_eq_bind, bind_eq_some_iff] at h
  obtain ⟨r, -, h⟩ := h
  cases hret : r.ret with
  | ok host =>
    simp only [hret, some.injEq, Prod.mk.injEq] at h
    obtain ⟨-, rfl, rfl⟩ := h
    exact .inl rfl
  | error c =>
    simp only [hret, some.injEq, Prod.mk.injEq] at h
    obtain ⟨-, rfl, rfl⟩ := h
    exact .inr rfl

/-- What `dcc_compile_remote` does to a run: it gives up the local lock, once. -/
theorem dccCompileRemote_spec {cppWhere : CppWhere}
    (h : s.dccCompileRemote env cppWhere cppPid = (ret, s₁)) :
    s₁.trace = s.trace ++ (if s.localCpuLockFd = noFd then [] else [.unlocked s.localCpuLockFd]) ∧
      s₁.cpuLockFd = s.cpuLockFd ∧ s₁.fresh = s.fresh ∧ s₁.argv = s.argv ∧ s₁.heap = s.heap := by
  unfold dccCompileRemote remoteClientCpp remoteRetrieve remoteOut unlockIf at h
  by_cases hl : s.localCpuLockFd = noFd
  all_goals
    simp only [hl, ne_eq, not_true_eq_false, not_false_eq_true, if_true, if_false] at h ⊢
    repeat' split at h
    all_goals
      obtain ⟨-, rfl⟩ := Prod.mk.inj h
      simp

/-- `dcc_cpp_maybe` leaves the vectors there are alone, and makes new ones. -/
theorem dccCppMaybe_spec {input : CString}
    (h : s.dccCppMaybe env input = some (ret, cppPid, s₁)) :
    ∃ more, s₁ = { s with heap := s.heap ++ more } := by
  have hsame : ∃ more, s = { s with heap := s.heap ++ more } := ⟨[], by simp⟩
  unfold dccCppMaybe at h
  split at h
  · cases h
    exact hsame
  split at h
  · cases h
    exact hsame
  split at h
  · cases h
    exact hsame
  simp only [bind_eq_bind, bind_eq_some_iff] at h
  obtain ⟨_, _, _, _, _, _, h⟩ := h
  split at h
  · cases h
    exact ⟨_, rfl⟩
  case h_2 argv _ =>
    cases h
    -- what is written over is the vector just made
    refine ⟨[some argv], ?_⟩
    simp only [store, alloc, List.set_append_right _ _ (le_refl _), Nat.sub_self,
      List.set_cons_zero]

/-- `dcc_expand_preprocessor_options` changes nothing but the vector. -/
theorem expand_eq (s : Build) (env : BuildEnv) :
    s.expand env = { s with heap := (s.expand env).heap, argv := (s.expand env).argv } := by
  unfold expand
  split <;> rfl

end Build

/-- `dcc_build_somewhere`, on the vector `argv`: what it returns, and the run that
led there. -/
def dccBuildSomewhere (env : BuildEnv) (argv : List CString) (status : ℤ) : Option (ℤ × Build) :=
  let s : Build := { heap := [some argv], argv := 0, status }
  let s := s.emit (.expanded env.expand)
  if env.expand ≠ 0 then s.cleanUp env.expand
  else
    let s := (s.expand env).emit (.lookedUpDiscrepancy env.discrepancy)
    if env.discrepancy ≠ 0 then s.cleanUp env.discrepancy
    else if env.sgLevel ≠ 0 then s.runLocal env
    else s.scanAndBuild env

end Distcc
