import Distcc.Base.Nesting
import Distcc.Client.Build

/-!
# The locks of a client run

The comment at the head of `src/lock.c` states a discipline: a process holds at
most two locks, that of the host that builds and that of the local machine; it
takes the first before the second and gives the second back before the first. That
is `Nested`, for the locks of a run of `dcc_build_somewhere`.

Four things make a run break it. `dcc_lock_host` closes the file of a lock it does
not get, but leaves the descriptor behind, and a call of `dcc_lock_one` that then
fails hands it to its caller, who takes it for a lock and unlocks it. And the two
places that give both locks back, `fallback:` and `unlock_and_clean_up:`, give them
back in the wrong order, which matters when they are reached with both: after
`dcc_cpp_maybe` or `dcc_strip_local_args` has failed, and after the includes were
scanned. A run in which none of these happens keeps the discipline, and a run in
which one does breaks it (`lockDiscipline_iff`).
-/

namespace Distcc

open CString Option

/-- What an event does to the locks. -/
def BuildEvent.lockAct : BuildEvent → Option (LockAct LockKind ℤ)
  | .locked kind fd => some (.acquire kind fd)
  | .unlocked fd => some (.release fd)
  | _ => none

/-- What a run does to its locks. -/
def lockActs (trace : List BuildEvent) : List (LockAct LockKind ℤ) :=
  trace.filterMap BuildEvent.lockAct

/-- **The discipline of `lock.c`**, along a run. -/
def LockDiscipline (trace : List BuildEvent) : Prop := Nested .build .here [] (lockActs trace)

/-- The events that make a run break the discipline. -/
def BuildEvent.Spoils : BuildEvent → Prop
  -- a call of `dcc_lock_one` fails and leaves a descriptor behind
  | .lockFailed fd => fd ≠ noFd
  -- the includes were scanned, with both locks held
  | .approximatedIncludes _ => True
  -- no preprocessor, or no arguments for the server, with both locks held
  | .preprocessed ret => ret ≠ 0
  | .stripped ret => ret ≠ 0
  | _ => False

instance : DecidablePred BuildEvent.Spoils
  | .lockFailed fd => inferInstanceAs (Decidable (fd ≠ noFd))
  | .approximatedIncludes _ => isTrue trivial
  | .preprocessed ret | .stripped ret => inferInstanceAs (Decidable (ret ≠ 0))
  | .expanded _ | .lookedUpDiscrepancy _ | .locked _ _ | .unlocked _ | .compiledRemotely _ _
  | .copiedStderr _ | .compiledLocally _ _ => isFalse id

@[simp] theorem lockActs_nil : lockActs [] = [] := rfl

@[simp] theorem lockActs_cons (e : BuildEvent) (trace : List BuildEvent) :
    lockActs (e :: trace) = e.lockAct.toList ++ lockActs trace := by
  cases e <;> rfl

@[simp] theorem lockActs_append (trace trace' : List BuildEvent) :
    lockActs (trace ++ trace') = lockActs trace ++ lockActs trace' := by
  simp [lockActs]

/-- From `s` to `s'` a run that holds `held` keeps the discipline to its end, or
not, according to whether nothing spoils it. -/
def EndsWell (held : List (LockKind × ℤ)) (s s' : Build) : Prop :=
  ∃ es, s'.trace = s.trace ++ es ∧
    (Nested .build .here held (lockActs es) ↔ ∀ e ∈ es, ¬e.Spoils)

/-- From `s` to `s'` a run that holds `held` breaks the discipline. -/
def EndsBadly (held : List (LockKind × ℤ)) (s s' : Build) : Prop :=
  ∃ es, s'.trace = s.trace ++ es ∧ ¬Nested .build .here held (lockActs es)

section Ends

variable {held held' : List (LockKind × ℤ)} {s s₁ s' : Build} {e : BuildEvent}

/-- Events that spoil nothing are passed over. -/
theorem EndsWell.of_events {before : List BuildEvent} (h : EndsWell held' s₁ s')
    (htrace : s₁.trace = s.trace ++ before)
    (hspoils : ∀ e ∈ before, ¬e.Spoils := by simp [BuildEvent.Spoils])
    (hact : ∀ acts, Nested .build .here held (lockActs before ++ acts) ↔
      Nested .build .here held' acts := by simp [BuildEvent.lockAct]) : EndsWell held s s' := by
  obtain ⟨es, hes, hiff⟩ := h
  refine ⟨before ++ es, by rw [hes, htrace, List.append_assoc], ?_⟩
  rw [lockActs_append, hact, hiff]
  constructor
  · intro hes e he
    rcases List.mem_append.mp he with he | he
    · exact hspoils e he
    · exact hes e he
  · exact fun hes e he => hes e (List.mem_append_right _ he)

/-- After an event that spoils it, a run has to break the discipline. -/
theorem EndsBadly.of_spoils (h : EndsBadly held s₁ s') (htrace : s₁.trace = s.trace ++ [e])
    (hspoils : e.Spoils) (hact : e.lockAct = none) : EndsWell held s s' := by
  obtain ⟨es, hes, hbad⟩ := h
  refine ⟨e :: es, by rw [hes, htrace, List.append_assoc, List.singleton_append], ?_⟩
  simp [hact, hbad, hspoils]

end Ends

/-! ### The ends of a run -/

namespace Build

variable {s : Build}

theorem not_spoils_of_mem_unlocks {e : BuildEvent} (h : e ∈ s.unlocks) : ¬e.Spoils := by
  unfold unlocks at h
  split at h <;> split at h <;> simp at h
  all_goals rcases h with rfl | rfl <;> exact id

/-- The descriptors say what is held: the lock of `cpu_lock_fd`, if it is not -1. -/
def Holding (s : Build) (held : List (LockKind × ℤ)) : Prop :=
  s.localCpuLockFd = noFd ∧
    (s.cpuLockFd = noFd ∧ held = [] ∨ s.cpuLockFd ≠ noFd ∧ ∃ k, held = [(k, s.cpuLockFd)])

/-- There are no locks. -/
structure Idle (s : Build) : Prop where
  cpu : s.cpuLockFd = noFd
  here : s.localCpuLockFd = noFd
  fresh : 0 ≤ s.fresh

/-- There are two locks. -/
structure Both (s : Build) : Prop where
  cpu : s.cpuLockFd ≠ noFd
  here : s.localCpuLockFd ≠ noFd
  ne : s.localCpuLockFd ≠ s.cpuLockFd
  fresh : 0 ≤ s.fresh

theorem Idle.holding (h : s.Idle) : s.Holding [] := ⟨h.here, .inl ⟨h.cpu, rfl⟩⟩

/-- Giving the descriptors up will break the discipline. -/
def Doomed (s : Build) (held : List (LockKind × ℤ)) : Prop :=
  ∀ acts, ¬Nested .build .here held (lockActs s.unlocks ++ acts)

/-- A descriptor without a lock dooms. -/
theorem doomed_of_stale (h : s.cpuLockFd ≠ noFd) : s.Doomed [] := by
  intro acts
  simp [unlocks, h, BuildEvent.lockAct]

/-- Both locks doom, for the wrong one is given up first. -/
theorem Both.doomed {k k' : LockKind} (h : s.Both) :
    s.Doomed [(k, s.cpuLockFd), (k', s.localCpuLockFd)] := by
  intro acts
  simp [unlocks, h.cpu, h.ne, BuildEvent.lockAct]

/-- A local descriptor without a lock dooms. -/
theorem doomed_of_stale_local {k : LockKind} {c : ℤ} (hc : s.cpuLockFd = c)
    (hne : c ≠ noFd) (hl : s.localCpuLockFd ≠ noFd) : s.Doomed [(k, c)] := by
  intro acts
  simp [unlocks, hc, hne, hl, BuildEvent.lockAct]

theorem nested_unlocks_of_holding {held : List (LockKind × ℤ)} (h : s.Holding held)
    (acts : List (LockAct LockKind ℤ)) :
    Nested .build .here held (lockActs s.unlocks ++ acts) ↔ Nested .build .here [] acts := by
  obtain ⟨hl, ⟨hc, rfl⟩ | ⟨hc, k, rfl⟩⟩ := h
  · simp [unlocks, hc, hl]
  · simp [unlocks, hc, hl, BuildEvent.lockAct]

variable {env : BuildEnv} {s' : Build} {held : List (LockKind × ℤ)} {ret r : ℤ} {input : CString}

theorem runLocal_endsWell (h : s.runLocal env = some (r, s')) (hheld : s.Holding held) :
    EndsWell held s s' := by
  obtain ⟨argv, -, -, htrace⟩ := runLocal_spec h
  refine ⟨_, htrace, ?_⟩
  have hnested := nested_unlocks_of_holding hheld []
  have hspoils : ∀ e ∈ s.unlocks, ¬e.Spoils := fun e he => not_spoils_of_mem_unlocks he
  simp only [List.append_nil] at hnested
  simpa [BuildEvent.lockAct, BuildEvent.Spoils, hnested] using hspoils

theorem runLocal_endsBadly (h : s.runLocal env = some (r, s')) (hdoomed : s.Doomed held) :
    EndsBadly held s s' := by
  obtain ⟨argv, -, -, htrace⟩ := runLocal_spec h
  refine ⟨_, htrace, ?_⟩
  simpa [BuildEvent.lockAct] using hdoomed []

/-- What a call of `dcc_lock_one` on a descriptor that is -1 does to a run. -/
theorem lockOne_spec {kind : LockKind} {hosts : List Hostdef} {attempts : List LockAttempt}
    {res : Except ExitCode Hostdef} {fd : ℤ}
    (h : s.lockOne env kind hosts attempts noFd = some (res, fd, s')) :
    ∃ e, s' = { s with fresh := s'.fresh }.emit e ∧ s.fresh ≤ s'.fresh ∧
      ((∃ host, res = .ok host) ∧ e = .locked kind fd ∧ s.fresh ≤ fd ∧ fd < s'.fresh ∨
        (∃ c, res = .error c) ∧ e = .lockFailed fd ∧
          (fd = noFd ∨ s.fresh ≤ fd ∧ fd < s'.fresh)) := by
  simp only [lockOne, bind_eq_bind, bind_eq_some_iff] at h
  obtain ⟨r, hr, h⟩ := h
  obtain ⟨hfresh, hfd, hok⟩ := dccLockOne_spec hr (le_refl s.fresh) (.inl rfl)
  cases hret : r.ret with
  | ok host =>
    simp only [hret, some.injEq, Prod.mk.injEq] at h
    obtain ⟨rfl, rfl, rfl⟩ := h
    exact ⟨_, rfl, hfresh, .inl ⟨⟨host, rfl⟩, rfl, hok ⟨host, hret⟩⟩⟩
  | error c =>
    simp only [hret, some.injEq, Prod.mk.injEq] at h
    obtain ⟨rfl, rfl, rfl⟩ := h
    exact ⟨_, rfl, hfresh, .inr ⟨⟨c, rfl⟩, rfl, hfd⟩⟩

/-- `lock_local:` is reached with no lock. -/
theorem lockLocal_endsWell (h : s.lockLocal env = some (r, s')) (hidle : s.Idle) :
    EndsWell [] s s' := by
  simp only [lockLocal, bind_eq_bind, bind_eq_some_iff, hidle.cpu] at h
  have hl := hidle.here
  have hfresh := hidle.fresh
  obtain ⟨⟨res, fd, s₁⟩, hlock, hrun⟩ := h
  obtain ⟨e, hs1, -, ⟨-, rfl, hfd, -⟩ | ⟨-, rfl, hfd⟩⟩ := lockOne_spec hlock
  · have hne : fd ≠ noFd := by unfold noFd; omega
    have hheld : Holding { s₁ with cpuLockFd := fd } [(.here, fd)] := by
      rw [hs1]
      exact ⟨hl, .inr ⟨hne, .here, rfl⟩⟩
    exact (runLocal_endsWell hrun hheld).of_events (by rw [hs1]; rfl)
  · by_cases hne : fd = noFd
    · have hheld : Holding { s₁ with cpuLockFd := fd } [] := by
        rw [hs1]
        exact ⟨hl, .inl ⟨hne, rfl⟩⟩
      refine (runLocal_endsWell hrun hheld).of_events (by rw [hs1]; rfl) ?_
      simp [BuildEvent.Spoils, hne]
    · have htrace : s₁.trace = s.trace ++ [.lockFailed fd] := by rw [hs1]; rfl
      exact (runLocal_endsBadly hrun (doomed_of_stale hne)).of_spoils htrace hne rfl

section

variable (h : s.fallback env ret = some (r, s'))
include h

/-- What follows once both descriptors are given up in `fallback:`. -/
theorem fallback_unlocked (hfresh : 0 ≤ s.fresh) : EndsWell [] s.unlockBoth s' := by
  unfold fallback at h
  split at h
  · exact lockLocal_endsWell h ⟨unlockBoth_cpuLockFd s, unlockBoth_localCpuLockFd s,
      by simpa using hfresh⟩
  · simp only [cleanUp, some.injEq, Prod.mk.injEq] at h
    obtain ⟨-, rfl⟩ := h
    exact ⟨[_], rfl, by simp [BuildEvent.lockAct, BuildEvent.Spoils]⟩

theorem fallback_endsWell (hheld : s.Holding held) (hfresh : 0 ≤ s.fresh) : EndsWell held s s' :=
  (fallback_unlocked h hfresh).of_events (unlockBoth_trace s)
    (fun _ he => not_spoils_of_mem_unlocks he) (nested_unlocks_of_holding hheld)

theorem fallback_endsBadly (hdoomed : s.Doomed held)
    (hfresh : 0 ≤ s.fresh) : EndsBadly held s s' := by
  obtain ⟨es, hes, -⟩ := fallback_unlocked h hfresh
  refine ⟨s.unlocks ++ es, by rw [hes, unlockBoth_trace, List.append_assoc], ?_⟩
  rw [lockActs_append]
  exact hdoomed _

/-- After a lock that was not got, all depends on the descriptor that is left. -/
theorem fallback_of_lockFailed {s₀ : Build} {fd : ℤ}
    (htrace : s.trace = s₀.trace ++ [.lockFailed fd]) (hheld : fd = noFd → s.Holding held)
    (hdoomed : fd ≠ noFd → s.Doomed held) (hfresh : 0 ≤ s.fresh) : EndsWell held s₀ s' := by
  by_cases hstale : fd = noFd
  · refine (fallback_endsWell h (hheld hstale) hfresh).of_events htrace ?_
    simp [BuildEvent.Spoils, hstale]
  · exact (fallback_endsBadly h (hdoomed hstale) hfresh).of_spoils htrace hstale rfl

end

/-! ### The remote compilation -/

/-- Showing the server's standard error, with no lock. -/
theorem showStderr_endsWell
    (h : (if env.copyStderr ≠ 0 then fallback env ret (s.emit (.copiedStderr env.copyStderr))
      else cleanUp ret (s.emit (.copiedStderr env.copyStderr))) = some (r, s'))
    (hidle : s.Idle) : EndsWell [] s s' := by
  have hends : EndsWell [] (s.emit (.copiedStderr env.copyStderr)) s' := by
    split at h
    · exact fallback_endsWell h hidle.holding hidle.fresh
    · simp only [cleanUp, some.injEq, Prod.mk.injEq] at h
      obtain ⟨-, rfl⟩ := h
      exact ⟨[], by simp [store], by simp⟩
  exact hends.of_events rfl

/-- After the remote compilation the build lock is all that is held. -/
theorem afterRemote_endsWell {k : LockKind} (h : s.afterRemote env = some (r, s'))
    (hl : s.localCpuLockFd = noFd) (hfresh : 0 ≤ s.fresh) :
    EndsWell [(k, s.cpuLockFd)] s s' := by
  have hends : EndsWell [] { s.emit (.unlocked s.cpuLockFd) with cpuLockFd := noFd } s' := by
    unfold afterRemote at h
    dsimp only at h
    split at h
    · exact showStderr_endsWell h ⟨rfl, hl, hfresh⟩
    · split at h
      · split at h
        · exact showStderr_endsWell h ⟨rfl, hl, hfresh⟩
        · have hretry := fallback_endsWell h (show Holding _ [] from ⟨hl, .inl ⟨rfl, rfl⟩⟩) hfresh
          exact hretry
      · exact fallback_endsWell h ⟨hl, .inl ⟨rfl, rfl⟩⟩ hfresh
  exact hends.of_events rfl

/-- The call of `dcc_compile_remote` and what follows, with or without the local
lock. -/
theorem buildRemotely_endsWell {cppWhere : CppWhere} {cppPid : Bool}
    (h : s.buildRemotely env cppWhere cppPid = some (r, s')) (hc : s.cpuLockFd ≠ noFd)
    (hfresh : 0 ≤ s.fresh)
    (hheld : s.localCpuLockFd = noFd ∧ held = [(.build, s.cpuLockFd)] ∨
      s.localCpuLockFd ≠ noFd ∧
        held = [(.build, s.cpuLockFd), (.here, s.localCpuLockFd)]) : EndsWell held s s' := by
  unfold buildRemotely at h
  rcases hremote : s.dccCompileRemote env cppWhere cppPid with ⟨ret, s₁⟩
  obtain ⟨htrace, hcpu, hfresh1, -, -⟩ := dccCompileRemote_spec hremote
  rw [hremote] at h
  dsimp only at h
  have hends : EndsWell [(.build, s.cpuLockFd)]
      { s₁.emit (.compiledRemotely ret s₁.status) with localCpuLockFd := noFd } s' := by
    split at h
    · refine fallback_endsWell h ⟨rfl, .inr ⟨?_, .build, ?_⟩⟩ ?_
      · simpa [hcpu] using hc
      · simp [hcpu]
      · simpa [hfresh1] using hfresh
    · have hafter := afterRemote_endsWell (k := .build) h rfl (by simpa [hfresh1] using hfresh)
      simpa [hcpu] using hafter
  have htrace' : (s₁.emit (.compiledRemotely ret s₁.status)).trace = s.trace ++
      ((if s.localCpuLockFd = noFd then [] else [.unlocked s.localCpuLockFd]) ++
        [.compiledRemotely ret s₁.status]) := by
    rw [emit_trace, htrace, List.append_assoc]
  refine hends.of_events htrace' ?_ ?_
  · rcases hheld with ⟨hl, -⟩ | ⟨hl, -⟩ <;> simp [hl, BuildEvent.Spoils]
  · rcases hheld with ⟨hl, rfl⟩ | ⟨hl, rfl⟩ <;> simp [hl, BuildEvent.lockAct]

/-! ### Before it -/

/-- Preprocessing here, with both locks: the arguments of the server. -/
theorem buildStripped_endsWell {cppPid : Bool} (h : s.buildStripped env cppPid = some (r, s'))
    (hboth : s.Both) : EndsWell [(.build, s.cpuLockFd), (.here, s.localCpuLockFd)] s s' := by
  unfold buildStripped at h
  generalize (if env.stripMalloc = true then (0 : ℤ) else _) = ret at h
  dsimp only at h
  split at h
  · case isTrue hret =>
    exact (fallback_endsBadly h hboth.doomed hboth.fresh).of_spoils rfl hret rfl
  · case isFalse hret =>
    obtain ⟨argv, -, h⟩ := bind_eq_some_iff.mp h
    have hremote := buildRemotely_endsWell h hboth.cpu hboth.fresh (.inr ⟨hboth.here, rfl⟩)
    refine hremote.of_events rfl ?_
    simpa [BuildEvent.Spoils] using hret

/-- Preprocessing here, with both locks. -/
theorem buildClientCpp_endsWell (h : s.buildClientCpp env input = some (r, s')) (hboth : s.Both) :
    EndsWell [(.build, s.cpuLockFd), (.here, s.localCpuLockFd)] s s' := by
  simp only [buildClientCpp, bind_eq_bind, bind_eq_some_iff] at h
  obtain ⟨⟨ret, cppPid, s₁⟩, hcpp, h⟩ := h
  obtain ⟨more, rfl⟩ := dccCppMaybe_spec hcpp
  dsimp only at h
  split at h
  · case isTrue hret =>
    exact (fallback_endsBadly h hboth.doomed hboth.fresh).of_spoils rfl hret rfl
  · case isFalse hret =>
    have hends := buildStripped_endsWell h ⟨hboth.cpu, hboth.here, hboth.ne, hboth.fresh⟩
    refine hends.of_events rfl ?_
    simpa [BuildEvent.Spoils] using hret

/-- Preprocessing on the server, with the build lock only. -/
theorem buildServerCpp_endsWell (h : s.buildServerCpp env = some (r, s'))
    (hc : s.cpuLockFd ≠ noFd) (hl : s.localCpuLockFd = noFd) (hfresh : 0 ≤ s.fresh) :
    EndsWell [(.build, s.cpuLockFd)] s s' := by
  unfold buildServerCpp at h
  split at h
  · exact fallback_endsWell h ⟨hl, .inr ⟨hc, .build, rfl⟩⟩ hfresh
  · obtain ⟨argv, -, h⟩ := bind_eq_some_iff.mp h
    have hremote := buildRemotely_endsWell h hc hfresh (.inl ⟨hl, rfl⟩)
    exact hremote

/-- Building on another host, with both locks. -/
theorem buildLocked_endsWell {host : Hostdef}
    (h : s.buildLocked env input host = some (r, s')) (hboth : s.Both) :
    EndsWell [(.build, s.cpuLockFd), (.here, s.localCpuLockFd)] s s' := by
  unfold buildLocked at h
  dsimp only at h
  split at h
  · -- `--scan-includes`
    simp only [unlockAndCleanUp, cleanUp, some.injEq, Prod.mk.injEq] at h
    obtain ⟨-, rfl⟩ := h
    refine EndsBadly.of_spoils (e := .approximatedIncludes env.approximateIncludes)
      ⟨s.unlocks, unlockBoth_trace _, ?_⟩ rfl trivial rfl
    simpa using hboth.doomed []
  · split at h
    · exact buildClientCpp_endsWell h hboth
    · split at h
      · split at h
        · cases h
        · exact buildClientCpp_endsWell h hboth
      · have hserver := buildServerCpp_endsWell h hboth.cpu rfl hboth.fresh
        exact hserver.of_events rfl

/-- Building on another host, with its lock. -/
theorem buildOnHost_endsWell {host : Hostdef}
    (h : s.buildOnHost env input host = some (r, s')) (hc : 0 ≤ s.cpuLockFd)
    (hnew : s.cpuLockFd < s.fresh) (hl : s.localCpuLockFd = noFd) :
    EndsWell [(.build, s.cpuLockFd)] s s' := by
  have hne : s.cpuLockFd ≠ noFd := by unfold noFd; omega
  simp only [buildOnHost, bind_eq_bind, bind_eq_some_iff, hl] at h
  obtain ⟨⟨res, fd, s₁⟩, hlock, h⟩ := h
  obtain ⟨e, hs1, hfresh, hcases⟩ := lockOne_spec hlock
  generalize s₁.fresh = fresh at hs1 hfresh hcases
  subst hs1
  rcases hcases with ⟨⟨host', rfl⟩, rfl, hfd, hfd'⟩ | ⟨⟨c, rfl⟩, rfl, hfd⟩
  · have hnofd : fd ≠ noFd := by unfold noFd; omega
    have hdiff : fd ≠ s.cpuLockFd := by omega
    have hends := buildLocked_endsWell h ⟨hne, hnofd, hdiff, by dsimp; omega⟩
    exact hends.of_events rfl (by simp [BuildEvent.Spoils]) (by simp [BuildEvent.lockAct, hdiff])
  · exact fallback_of_lockFailed h rfl (fun hstale => ⟨hstale, .inr ⟨hne, .build, rfl⟩⟩)
      (fun hstale => doomed_of_stale_local rfl hne hstale) (by dsimp; omega)

/-- Distributing, with no lock yet. -/
theorem distribute_endsWell (h : s.distribute env input = some (r, s'))
    (hidle : s.Idle) : EndsWell [] s s' := by
  unfold distribute at h
  split at h
  · exact fallback_endsWell h hidle.holding hidle.fresh
  split at h
  · exact fallback_endsWell h hidle.holding hidle.fresh
  · exact fallback_endsWell h hidle.holding hidle.fresh
  obtain ⟨hc, hl, hfresh⟩ := hidle
  simp only [bind_eq_bind, bind_eq_some_iff, hc] at h
  obtain ⟨⟨res, fd, s₁⟩, hlock, h⟩ := h
  obtain ⟨e, hs1, hfresh', hcases⟩ := lockOne_spec hlock
  generalize s₁.fresh = fresh at hs1 hfresh' hcases
  subst hs1
  rcases hcases with ⟨⟨host, rfl⟩, rfl, hfd, hfd'⟩ | ⟨⟨c, rfl⟩, rfl, hfd⟩
  · have hnofd : fd ≠ noFd := by unfold noFd; omega
    have hends : EndsWell [(.build, fd)]
        { ({ s with fresh } : Build).emit (.locked .build fd) with cpuLockFd := fd } s' := by
      dsimp only at h
      split at h
      · exact runLocal_endsWell h ⟨hl, .inr ⟨hnofd, .build, rfl⟩⟩
      · exact buildOnHost_endsWell h (hfresh.trans hfd) hfd' hl
    exact hends.of_events rfl
  · exact fallback_of_lockFailed h rfl (fun hstale => ⟨hl, .inl ⟨hstale, rfl⟩⟩)
      (fun hstale => doomed_of_stale hstale) (by dsimp; omega)

theorem scanAndBuild_endsWell (h : s.scanAndBuild env = some (r, s')) (hidle : s.Idle) :
    EndsWell [] s s' := by
  simp only [scanAndBuild, bind_eq_bind, bind_eq_some_iff] at h
  obtain ⟨argv, -, h⟩ := h
  split at h
  · cases h
  split at h
  · cases h
  · cases h
  · have hends := lockLocal_endsWell h ⟨hidle.cpu, hidle.here, hidle.fresh⟩
    exact hends
  · have hends := distribute_endsWell h ⟨hidle.cpu, hidle.here, hidle.fresh⟩
    exact hends

end Build

/-- **The lock discipline.** A run of `dcc_build_somewhere` that returns has held at
most two locks at a time, taken the build host's before the local one and given the
local one back before it, given each back once, and unlocked nothing else, exactly
when none of its events spoils it. -/
theorem lockDiscipline_iff {env : BuildEnv} {argv : List CString} {status ret : ℤ} {s : Build}
    (hrun : dccBuildSomewhere env argv status = some (ret, s)) :
    LockDiscipline s.trace ↔ ∀ e ∈ s.trace, ¬e.Spoils := by
  -- the two events before the first label spoil nothing
  have hlater {s₁ : Build} (h : EndsWell [] s₁ s)
      (htrace : s₁.trace = [.expanded env.expand, .lookedUpDiscrepancy env.discrepancy]) :
      LockDiscipline s.trace ↔ ∀ e ∈ s.trace, ¬e.Spoils := by
    obtain ⟨es, hes, hiff⟩ := h
    rw [hes, htrace]
    simpa [LockDiscipline, BuildEvent.lockAct, BuildEvent.Spoils] using hiff
  unfold dccBuildSomewhere at hrun
  dsimp only at hrun
  rw [Build.expand_eq] at hrun
  split at hrun
  · simp only [Build.cleanUp, some.injEq, Prod.mk.injEq] at hrun
    obtain ⟨-, rfl⟩ := hrun
    simp [LockDiscipline, Build.store, BuildEvent.lockAct, BuildEvent.Spoils]
  split at hrun
  · simp only [Build.cleanUp, some.injEq, Prod.mk.injEq] at hrun
    obtain ⟨-, rfl⟩ := hrun
    simp [LockDiscipline, Build.store, BuildEvent.lockAct, BuildEvent.Spoils]
  split at hrun
  · exact hlater (Build.runLocal_endsWell hrun ⟨rfl, .inl ⟨rfl, rfl⟩⟩) rfl
  · exact hlater (Build.scanAndBuild_endsWell hrun ⟨rfl, rfl, Int.natCast_nonneg 3⟩) rfl

/-- A run on a calm day: the lock of the host is taken first, and given back last. -/
theorem lockDiscipline_hello :
    ∃ s, dccBuildSomewhere (.calm [.ofName (lit "host")]) [lit "gcc", lit "-c", lit "hello.c"] 0 =
        some (0, s) ∧
      lockActs s.trace = [.acquire .build 3, .acquire .here 4, .release 4, .release 3] ∧
      LockDiscipline s.trace := by
  have hret : (dccBuildSomewhere (.calm [.ofName (lit "host")])
      [lit "gcc", lit "-c", lit "hello.c"] 0).map (fun r => (r.1, r.2.trace)) =
      some (0, [.expanded 0, .lookedUpDiscrepancy 0, .locked .build 3, .locked .here 4,
        .preprocessed 0, .stripped 0, .unlocked 4, .compiledRemotely 0 0, .unlocked 3,
        .copiedStderr 0]) := by
    decide +kernel
  obtain ⟨⟨ret, s⟩, hrun, hs⟩ := map_eq_some_iff.mp hret
  obtain ⟨rfl, htrace⟩ := Prod.mk.inj hs
  refine ⟨s, hrun, ?_, (lockDiscipline_iff hrun).mpr ?_⟩
  · rw [htrace]
    rfl
  · rw [htrace]
    decide

/-- **Where the code fails.** The client cannot make a temporary file for the output
of its preprocessor, and gives back the lock of the host before that of the local
machine, which it still holds. -/
theorem lockDiscipline_broken_by_tmpnam :
    ∃ s, dccBuildSomewhere { BuildEnv.calm [.ofName (lit "host")] with cppTmpnam := 107 }
        [lit "gcc", lit "-c", lit "hello.c"] 0 = some (0, s) ∧
      lockActs s.trace = [.acquire .build 3, .acquire .here 4, .release 3, .release 4,
        .acquire .here 5, .release 5] ∧
      ¬LockDiscipline s.trace := by
  have hret : (dccBuildSomewhere { BuildEnv.calm [.ofName (lit "host")] with cppTmpnam := 107 }
      [lit "gcc", lit "-c", lit "hello.c"] 0).map (fun r => (r.1, r.2.trace)) =
      some (0, [.expanded 0, .lookedUpDiscrepancy 0, .locked .build 3, .locked .here 4,
        .preprocessed 107, .unlocked 3, .unlocked 4, .locked .here 5,
        .compiledLocally [lit "gcc", lit "-c", lit "hello.c", lit "-o", lit "hello.o"] 0,
        .unlocked 5]) := by
    decide +kernel
  obtain ⟨⟨ret, s⟩, hrun, hs⟩ := map_eq_some_iff.mp hret
  obtain ⟨rfl, htrace⟩ := Prod.mk.inj hs
  refine ⟨s, hrun, ?_, ?_⟩
  · rw [htrace]
    rfl
  · rw [htrace]
    simp [LockDiscipline, BuildEvent.lockAct]

end Distcc
