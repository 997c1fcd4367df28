import Distcc.Arg.Rewrite
import Distcc.Arg.Strip
import Distcc.Where

/-!
# The state of a client run

`dcc_build_somewhere` (`src/compile.c`) decides where a command is run and runs
it. What the functions it calls return is not up to it: a run is a function of
the command and of all these answers (`BuildEnv`), and the theorems about it
are theorems about every such environment.

A run is followed through its local variables (`Build`) and a trace of what
it did (`BuildEvent`). The argument vectors are arrays in a heap, because
they are rewritten in place and handed around by address; an array that was
freed, or a variable that was never set, cannot be read, and a run that would do
so has no meaning here: like one that waits for ever or exits, it is a run that
does not return.
-/

namespace Distcc

open CString

/-! ### What the called functions answer -/

/-- What the functions called by `dcc_build_somewhere`, and by the functions it
calls, return. Where a function does something that matters here, it is modelled,
and only what it cannot know is an answer. -/
structure BuildEnv where
  /-- `sg_level` -/
  sgLevel : ℤ
  /-- `dcc_scan_includes` -/
  scanIncludes : Bool
  /-- The environment variable `DISTCC_FALLBACK`, by default 1. -/
  fallback : Bool
  /-- Is `DISTCC_SKIP_LOCAL_RETRY` set? -/
  skipLocalRetry : Bool
  /-- `DISTCC_TESTING_INCLUDE_SERVER`, by default 0. -/
  testingIncludeServer : Bool
  /-- `dcc_expand_preprocessor_options` -/
  expand : ℤ
  /-- The vector it leaves behind, if it replaces the one it was given. -/
  expanded : Option (List CString)
  /-- `dcc_discrepancy_filename` -/
  discrepancy : ℤ
  /-- Can `dcc_scan_args` copy the vector? -/
  scanCopies : Bool
  /-- `dcc_make_tmpnam`, for the server's standard error -/
  stderrTmpnam : ℤ
  /-- `dcc_get_hostlist` and `dcc_remove_disliked`: the list, or what
  `dcc_pick_host_from_list_and_lock_it` returns without one. -/
  hostlist : Except ExitCode (List Hostdef)
  /-- How the locks of the three calls of `dcc_lock_one` go, and how many turns
  each may take. -/
  pickAttempts : List LockAttempt
  /-- The same for `dcc_lock_local_cpp`. -/
  cppAttempts : List LockAttempt
  /-- The same for `dcc_lock_local`. -/
  localAttempts : List LockAttempt
  /-- How many turns of its loop a call of `dcc_lock_one` may take. -/
  turns : ℕ
  /-- The slots of `dcc_hostdef_local`. -/
  localslots : ℤ
  /-- The slots of `dcc_hostdef_local_cpp`. -/
  localslotsCpp : ℤ
  /-- Does `dcc_perhaps_adjust_cpp_where_and_protover` move cpp to the client? -/
  adjustsCpp : Bool
  /-- `dcc_approximate_includes` -/
  approximateIncludes : ℤ
  /-- `dcc_talk_to_include_server` -/
  includeServer : ℤ
  /-- `strdup`, in `dcc_cpp_maybe` -/
  cppStrdup : Bool
  /-- `dcc_make_tmpnam`, in `dcc_cpp_maybe` -/
  cppTmpnam : ℤ
  /-- `malloc`, in `dcc_strip_dasho` -/
  dashoMalloc : Bool
  /-- `dcc_spawn_child`, in `dcc_cpp_maybe` -/
  cppSpawn : ℤ
  /-- `malloc`, in `dcc_strip_local_args` -/
  stripMalloc : Bool
  /-- `dcc_copy_argv`, for the server's vector -/
  serverCopy : ℤ
  /-- What `dcc_get_dotd_info` has appended to the server's vector. -/
  dotdWords : List CString
  /-- `dcc_remote_connect` -/
  connect : ℤ
  /-- `dcc_send_header` -/
  sendHeader : ℤ
  /-- `dcc_x_many_files` -/
  manyFiles : ℤ
  /-- `dcc_collect_child`, for cpp -/
  cppCollect : ℤ
  /-- The status of cpp. -/
  cppStatus : ℤ
  /-- `dcc_x_file`, for the preprocessed source -/
  sendSource : ℤ
  /-- `dcc_retrieve_results` -/
  retrieve : ℤ
  /-- The status it leaves behind. -/
  remoteStatus : ℤ
  /-- `dcc_copy_file_to_fd`, after the compilation -/
  copyStderr : ℤ
  /-- `dcc_copy_file_to_fd`, after it failed and with fallbacks disabled -/
  copyStderrLate : ℤ
  /-- `dcc_spawn_child`, for the local compiler -/
  localSpawn : ℤ
  /-- `dcc_collect_child`, for the local compiler -/
  localCollect : ℤ
  /-- The status of the local compiler. -/
  localStatus : ℤ

/-- An environment in which nothing fails, every lock is free at once and `hosts`
are the hosts. -/
def BuildEnv.calm (hosts : List Hostdef) : BuildEnv where
  sgLevel := 0
  scanIncludes := false
  fallback := true
  skipLocalRetry := false
  testingIncludeServer := false
  expand := 0
  expanded := none
  discrepancy := 0
  scanCopies := true
  stderrTmpnam := 0
  hostlist := .ok hosts
  pickAttempts := [.granted]
  cppAttempts := [.granted]
  localAttempts := [.granted]
  turns := 1
  localslots := 2
  localslotsCpp := 8
  adjustsCpp := false
  approximateIncludes := 0
  includeServer := 0
  cppStrdup := true
  cppTmpnam := 0
  dashoMalloc := true
  cppSpawn := 0
  stripMalloc := true
  serverCopy := 0
  dotdWords := []
  connect := 0
  sendHeader := 0
  manyFiles := 0
  cppCollect := 0
  cppStatus := 0
  sendSource := 0
  retrieve := 0
  remoteStatus := 0
  copyStderr := 0
  copyStderrLate := 0
  localSpawn := 0
  localCollect := 0
  localStatus := 0

/-! ### What a run does -/

/-- The two locks of a run. -/
inductive LockKind where
  /-- The lock of the host that builds. -/
  | build
  /-- The lock of the local machine. -/
  | here
  deriving DecidableEq, Repr

/-- What a run can be seen doing. -/
inductive BuildEvent where
  /-- `dcc_expand_preprocessor_options` returned. -/
  | expanded (ret : ℤ)
  /-- `dcc_discrepancy_filename` returned. -/
  | lookedUpDiscrepancy (ret : ℤ)
  /-- A call of `dcc_lock_one` got the lock of descriptor `fd`. -/
  | locked (kind : LockKind) (fd : ℤ)
  /-- A call of `dcc_lock_one` failed, and left `fd` in its descriptor. -/
  | lockFailed (fd : ℤ)
  /-- `dcc_unlock` was called. -/
  | unlocked (fd : ℤ)
  /-- `dcc_approximate_includes` returned. -/
  | approximatedIncludes (ret : ℤ)
  /-- `dcc_cpp_maybe` returned. -/
  | preprocessed (ret : ℤ)
  /-- `dcc_strip_local_args` returned. -/
  | stripped (ret : ℤ)
  /-- `dcc_compile_remote` returned, with this status. -/
  | compiledRemotely (ret status : ℤ)
  /-- `dcc_copy_file_to_fd` returned, the file being the server's standard error. -/
  | copiedStderr (ret : ℤ)
  /-- `dcc_compile_local` was called with this vector, and returned. -/
  | compiledLocally (argv : List CString) (ret : ℤ)
  deriving DecidableEq, Repr

/-- The local variables of `dcc_build_somewhere`, the heap of argument vectors and
the trace. -/
structure Build where
  /-- The argument vectors; `none` is one that was freed. -/
  heap : List (Option (List CString))
  /-- `argv`, the place of a vector in the heap -/
  argv : ℕ
  /-- `cpu_lock_fd` -/
  cpuLockFd : ℤ := noFd
  /-- `local_cpu_lock_fd` -/
  localCpuLockFd : ℤ := noFd
  /-- `remote_ret` -/
  remoteRet : ℤ := 0
  /-- `*status` -/
  status : ℤ
  /-- The next descriptor the system hands out. -/
  fresh : ℤ := 3
  /-- What was done so far. -/
  trace : List BuildEvent := []

namespace Build

/-- Something is done. -/
def emit (s : Build) (e : BuildEvent) : Build := { s with trace := s.trace ++ [e] }

section Emit

variable (s : Build) (e : BuildEvent)

@[simp] theorem emit_trace : (s.emit e).trace = s.trace ++ [e] := rfl

@[simp] theorem emit_heap : (s.emit e).heap = s.heap := rfl

@[simp] theorem emit_argv : (s.emit e).argv = s.argv := rfl

@[simp] theorem emit_cpuLockFd : (s.emit e).cpuLockFd = s.cpuLockFd := rfl

@[simp] theorem emit_localCpuLockFd : (s.emit e).localCpuLockFd = s.localCpuLockFd := rfl

@[simp] theorem emit_status : (s.emit e).status = s.status := rfl

@[simp] theorem emit_fresh : (s.emit e).fresh = s.fresh := rfl

end Emit

/-- The words of a vector. -/
def words (s : Build) (argv : ℕ) : Option (List CString) := (s.heap[argv]?).join

/-- A new vector. -/
def alloc (s : Build) (argv : List CString) : Build := { s with heap := s.heap ++ [some argv] }

section Alloc

variable (s : Build) (argv : List CString)

@[simp] theorem alloc_trace : (s.alloc argv).trace = s.trace := rfl

@[simp] theorem alloc_argv : (s.alloc argv).argv = s.argv := rfl

@[simp] theorem alloc_cpuLockFd : (s.alloc argv).cpuLockFd = s.cpuLockFd := rfl

@[simp] theorem alloc_localCpuLockFd : (s.alloc argv).localCpuLockFd = s.localCpuLockFd := rfl

@[simp] theorem alloc_fresh : (s.alloc argv).fresh = s.fresh := rfl

end Alloc

/-- The vector at `argv` is written over. -/
def store (s : Build) (argv : ℕ) (new : Option (List CString)) : Build :=
  { s with heap := s.heap.set argv new }

end Build

end Distcc
