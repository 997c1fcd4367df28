import Distcc.Base.Numeral
import Distcc.Exitcode
import Distcc.Hosts

/-!
# The lock of a slot

Model of `src/lock.c`. A slot of a host is a file in the lock directory, and
whoever has the system's lock on the file has the slot. The name of the file
(`dccMakeLockFilename`) joins the fields that tell slots apart by
underscores, which a host name may contain as well; since the port and the number
of the slot may not, the fields can be read off the name from its right end
(`dccMakeLockFilename_eq_iff`).

`dccLockHost` says what a call leaves behind in the descriptor it was
given, according to how the calls it makes go (`LockAttempt`).
-/

namespace Distcc

open CString

/-! ### The name of a lock file -/

/-- `dcc_make_lock_filename`, in the directory `lockdir`. -/
def dccMakeLockFilename (lockdir lockname : CString) (host : Hostdef) (iter : ℤ) : CString :=
  lockdir ++ lit "/" ++ lockname ++
    match host.mode with
    | .localhost => lit "_localhost_" ++ decimal iter
    | .tcp =>
      lit "_tcp_" ++ host.hostname ++ lit "_" ++ decimal host.port ++ lit "_" ++ decimal iter
    | .ssh => lit "_ssh_" ++ host.hostname ++ lit "_" ++ decimal iter

theorem underscore_not_mem_decimal (z : ℤ) : (95 : UInt8) ∉ decimal z :=
  not_mem_decimal (by decide) (by decide)

/-- A field and a number after it, joined by an underscore. -/
theorem append_decimal_inj {p p' : CString} {z z' : ℤ} :
    p ++ lit "_" ++ decimal z = p' ++ lit "_" ++ decimal z' ↔ p = p' ∧ z = z' := by
  have hlit : lit "_" = [95] := by decide
  rw [hlit, List.append_assoc, List.append_assoc, List.singleton_append, List.singleton_append,
    append_cons_inj (underscore_not_mem_decimal z) (underscore_not_mem_decimal z'),
    decimal_injective.eq_iff]

/-- **A lock file belongs to one slot**: two names are equal exactly when mode,
host name, port – of a TCP host – and slot are. -/
theorem dccMakeLockFilename_eq_iff {lockdir lockname : CString} {h h' : Hostdef} {i i' : ℤ} :
    dccMakeLockFilename lockdir lockname h i = dccMakeLockFilename lockdir lockname h' i' ↔
      h.mode = h'.mode ∧ h.hostname = h'.hostname ∧
      (h.mode = .tcp → h.port = h'.port) ∧ i = i' := by
  unfold dccMakeLockFilename
  rw [List.append_cancel_left_eq]
  cases hm : h.mode <;> cases hm' : h'.mode
  case tcp.tcp =>
    simp only [append_decimal_inj, List.append_cancel_left_eq]
    grind
  case ssh.ssh =>
    simp only [append_decimal_inj, List.append_cancel_left_eq]
    grind
  case localhost.localhost =>
    simp only [List.append_cancel_left_eq, decimal_injective.eq_iff,
      h.hostname_localhost hm, h'.hostname_localhost hm']
    grind
  -- the names of two modes differ right after the name of the lock
  all_goals simp [lit]

/-! ### Taking it -/

/-- How the calls made by `dcc_lock_host` go, when the host is up. -/
inductive LockAttempt where
  /-- `dcc_make_lock_filename` fails. -/
  | noName (ret : ExitCode)
  /-- `open` fails. -/
  | noFile
  /-- `open` fails with `EEXIST`, which `dcc_open_lockfile` lets pass; the lock
  on descriptor -1 then fails. -/
  | badFile
  /-- The system gives the lock. -/
  | granted
  /-- The system says `EAGAIN` or `EACCES`: another process has the lock. -/
  | busy
  /-- The system refuses the lock for another reason. -/
  | failed
  deriving DecidableEq, Repr

/-- The descriptor that stands for none. -/
def noFd : ℤ := -1

/-- `dcc_lock_host`: what it returns – `none` is 0 – and what it leaves in
`*lock_fd`, the descriptor `fresh` being what `open` returns if it succeeds. -/
def dccLockHost (host : Hostdef) (attempt : LockAttempt) (fresh lockFd : ℤ) :
    Option ExitCode × ℤ :=
  if host.isUp then
    match attempt with
    | .noName ret => (some ret, lockFd)
    | .noFile => (some .ioError, noFd)
    | .badFile => (some .ioError, noFd)
    | .granted => (none, fresh)
    -- the file is closed, its descriptor stays behind
    | .busy => (some .busy, fresh)
    | .failed => (some .ioError, fresh)
  else (some .busy, lockFd)

/-- A lock that was given is that of the file just opened. -/
theorem dccLockHost_granted {host : Hostdef} {attempt : LockAttempt} {fresh lockFd fd : ℤ}
    (h : dccLockHost host attempt fresh lockFd = (none, fd)) : fd = fresh := by
  unfold dccLockHost at h
  cases hup : host.isUp <;> cases attempt <;> simp_all

/-- What a call leaves in the descriptor it was given. -/
theorem dccLockHost_snd (host : Hostdef) (attempt : LockAttempt) (fresh lockFd : ℤ) :
    (dccLockHost host attempt fresh lockFd).2 = lockFd ∨
      (dccLockHost host attempt fresh lockFd).2 = noFd ∨
      (dccLockHost host attempt fresh lockFd).2 = fresh := by
  unfold dccLockHost
  cases host.isUp <;> cases attempt <;> simp

end Distcc
