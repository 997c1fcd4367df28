import Distcc.Client.Build

/-!
# How a client run ends

What a caller of `dcc_build_somewhere` can rely on, whatever goes wrong on the way:
either the command was compiled here, once, and what that returned is returned, or
it was compiled elsewhere and the user was shown what the server's compiler had to
say. What is compiled here is always the vector that was scanned: the preprocessor
and the server are given vectors of their own, made from it.

`Outcome` says which events such a run adds to its trace. Each piece of the
function is then shown to lead to one, from `run_local:` backwards.
-/

namespace Distcc

open CString List Option

/-! ### Compilations -/

/-- A compilation on the local machine. -/
def BuildEvent.isLocal : BuildEvent → Bool
  | .compiledLocally _ _ => true
  | _ => false

/-- A compilation, here or elsewhere. -/
def BuildEvent.isCompilation : BuildEvent → Bool
  | .compiledLocally _ _ | .compiledRemotely _ _ => true
  | _ => false

/-- A compilation that succeeded: its compiler was run to its end, was not killed and
said that all is well. -/
def BuildEvent.Succeeded (env : BuildEnv) : BuildEvent → Prop
  | .compiledLocally _ _ =>
    env.localSpawn = 0 ∧ env.localCollect = 0 ∧ StatusOk env.localStatus
  | .compiledRemotely ret status => ret = 0 ∧ StatusOk status
  | _ => False

/-- The vectors that were compiled locally, each with what that returned. -/
def localCompilations (trace : List BuildEvent) : List (List CString × ℤ) :=
  trace.filterMap fun
    | .compiledLocally argv ret => some (argv, ret)
    | _ => none

/-- The vector a run has after the scan of its arguments. -/
def scannedVector (env : BuildEnv) (argv : List CString) : List CString :=
  match dccScanArgs (env.expanded.getD argv) with
  | .ok scanned => scanned.newargv
  | .error _ => env.expanded.getD argv

theorem localCompilations_eq_nil {es : List BuildEvent} (h : ∀ e ∈ es, e.isLocal = false) :
    localCompilations es = [] := by
  rw [localCompilations, filterMap_eq_nil_iff]
  intro e he
  have hlocal := h e he
  cases e <;> first | rfl | cases hlocal

theorem BuildEvent.isLocal_of_not_isCompilation {e : BuildEvent} (h : e.isCompilation = false) :
    e.isLocal = false := by
  cases e <;> first | rfl | cases h

theorem dccCompileLocal_eq_zero_iff {env : BuildEnv} :
    Build.dccCompileLocal env = 0 ↔
      env.localSpawn = 0 ∧ env.localCollect = 0 ∧ StatusOk env.localStatus := by
  unfold Build.dccCompileLocal
  rw [← dccCritiqueStatus_eq_zero_iff]
  grind

/-- **How a run can end**: with a local compilation of `v`, or with the server's
standard error shown after a remote one. -/
inductive Outcome (env : BuildEnv) (v : List CString) : ℤ → List BuildEvent → Prop
  /-- The compilation is run here. -/
  | ranHere (before : List BuildEvent) {after : List BuildEvent}
      (hbefore : ∀ e ∈ before, e.isLocal = false)
      (hafter : ∀ e ∈ after, e.isCompilation = false) :
      Outcome env v (Build.dccCompileLocal env)
        (before ++ .compiledLocally v (Build.dccCompileLocal env) :: after)
  /-- It was run elsewhere. -/
  | ranThere (before : List BuildEvent) (hbefore : ∀ e ∈ before, e.isLocal = false)
      (status fd : ℤ) :
      Outcome env v (dccCritiqueStatus status)
        (before ++ [.compiledRemotely 0 status, .unlocked fd, .copiedStderr 0])

namespace Outcome

variable {env : BuildEnv} {v : List CString} {ret : ℤ} {es : List BuildEvent}

/-- An outcome is none the worse for what happened before. -/
theorem append {before : List BuildEvent} (h : Outcome env v ret es)
    (hbefore : ∀ e ∈ before, e.isLocal = false) : Outcome env v ret (before ++ es) := by
  cases h with
  | ranHere _ hlocal hafter =>
    rw [← append_assoc]
    exact .ranHere _ (forall_mem_append.mpr ⟨hbefore, hlocal⟩) hafter
  | ranThere _ hlocal status fd =>
    rw [← append_assoc]
    exact .ranThere _ (forall_mem_append.mpr ⟨hbefore, hlocal⟩) status fd

/-- What was compiled locally, and what is returned. -/
theorem localCompilations (h : Outcome env v ret es) :
    Distcc.localCompilations es = [(v, ret)] ∨
      Distcc.localCompilations es = [] ∧ ∃ status fd, ret = dccCritiqueStatus status ∧
        [.compiledRemotely 0 status, .unlocked fd, .copiedStderr 0] <:+ es := by
  cases h with
  | ranHere _ hbefore hafter =>
    left
    have hafter' := localCompilations_eq_nil fun e he =>
      BuildEvent.isLocal_of_not_isCompilation (hafter e he)
    have hbefore' := localCompilations_eq_nil hbefore
    simp only [Distcc.localCompilations] at hbefore' hafter' ⊢
    simp [hbefore', hafter']
  | ranThere _ hbefore status fd =>
    right
    refine ⟨?_, status, fd, rfl, suffix_append _ _⟩
    have hbefore' := localCompilations_eq_nil hbefore
    simp only [Distcc.localCompilations] at hbefore' ⊢
    simp [hbefore']

/-- **Nothing is reported to have worked that did not**: the last compilation of a
run that returns 0 succeeded. -/
theorem succeeded (h : Outcome env v 0 es) :
    ∃ e, (es.filter BuildEvent.isCompilation).getLast? = some e ∧ e.Succeeded env := by
  generalize hret : (0 : ℤ) = ret at h
  cases h with
  | @ranHere before after hbefore hafter =>
    refine ⟨.compiledLocally v (Build.dccCompileLocal env), ?_,
      dccCompileLocal_eq_zero_iff.mp hret.symm⟩
    have hnil : after.filter BuildEvent.isCompilation = [] := by
      simpa [filter_eq_nil_iff] using hafter
    simp [filter_cons, hnil, BuildEvent.isCompilation]
  | ranThere _ hbefore status fd =>
    refine ⟨.compiledRemotely 0 status, ?_, rfl, dccCritiqueStatus_eq_zero_iff.mp hret.symm⟩
    simp [filter_cons, BuildEvent.isCompilation]

end Outcome

/-! ### From the labels backwards -/

/-- From `s` to `s'` a run has an outcome. -/
def Leads (env : BuildEnv) (v : List CString) (s : Build) (ret : ℤ) (s' : Build) : Prop :=
  ∃ es, s'.trace = s.trace ++ es ∧ Outcome env v ret es

theorem Leads.of_events {env : BuildEnv} {v : List CString} {s s₁ s' : Build} {ret : ℤ}
    {before : List BuildEvent} (h : Leads env v s₁ ret s')
    (htrace : s₁.trace = s.trace ++ before)
    (hlocal : ∀ e ∈ before, e.isLocal = false := by simp [BuildEvent.isLocal]) :
    Leads env v s ret s' := by
  obtain ⟨es, hes, hout⟩ := h
  exact ⟨before ++ es, by rw [hes, htrace, append_assoc], hout.append hlocal⟩

namespace Build

variable {env : BuildEnv} {v : List CString} {s s₁ s' : Build} {ret r : ℤ}

/-- Vectors that are made later do not move the ones there are. -/
theorem words_append (more : List (Option (List CString))) {a : ℕ} (h : s.words a = some v) :
    words { s with heap := s.heap ++ more } a = some v := by
  unfold words at h ⊢
  have hlt : a < s.heap.length := by
    by_contra hge
    rw [getElem?_eq_none (Nat.le_of_not_lt hge)] at h
    cases h
  rwa [getElem?_append_left hlt]

theorem not_isCompilation_of_mem_unlocks {e : BuildEvent} (h : e ∈ s.unlocks) :
    e.isCompilation = false := by
  unfold unlocks at h
  split at h <;> split at h <;> simp at h
  all_goals rcases h with rfl | rfl <;> rfl

theorem runLocal_leads (h : s.runLocal env = some (r, s')) (hv : s.words s.argv = some v) :
    Leads env v s r s' := by
  obtain ⟨argv, hwords, rfl, htrace⟩ := runLocal_spec h
  obtain rfl : argv = v := some.inj (hwords.symm.trans hv)
  exact ⟨_, htrace, .ranHere [] nofun fun _ => not_isCompilation_of_mem_unlocks⟩

/-- Taking a lock, or not, compiles nothing and leaves the vector alone. -/
theorem lockOne_quiet {kind : LockKind} {hosts : List Hostdef} {attempts : List LockAttempt}
    {res : Except ExitCode Hostdef} {fd fd' : ℤ}
    (h : s.lockOne env kind hosts attempts fd' = some (res, fd, s₁)) :
    s₁.words s₁.argv = s.words s.argv ∧
      ∃ e, s₁.trace = s.trace ++ [e] ∧ ∀ e' ∈ [e], e'.isLocal = false := by
  rcases lockOne_eq h with hs1 | hs1 <;> rw [hs1]
  · exact ⟨rfl, _, rfl, by simp [BuildEvent.isLocal]⟩
  · exact ⟨rfl, _, rfl, by simp [BuildEvent.isLocal]⟩

/-- Whether or not the lock is got, the vector is compiled. -/
theorem lockLocal_leads (h : s.lockLocal env = some (r, s')) (hv : s.words s.argv = some v) :
    Leads env v s r s' := by
  simp only [lockLocal, bind_eq_bind, bind_eq_some_iff] at h
  obtain ⟨⟨res, fd, s₁⟩, hlock, hrun⟩ := h
  obtain ⟨hwords, e, htrace, hlocal⟩ := lockOne_quiet hlock
  have hends := runLocal_leads hrun (hwords.trans hv)
  exact hends.of_events htrace hlocal

section Falling

variable (hfallback : env.fallback = true) {input : CString}

include hfallback

theorem fallback_leads (h : s.fallback env ret = some (r, s')) (hv : s.words s.argv = some v) :
    Leads env v s r s' := by
  rw [fallback, if_pos hfallback] at h
  have hv' : s.unlockBoth.words s.unlockBoth.argv = some v := by
    simpa [words] using hv
  refine (lockLocal_leads h hv').of_events (unlockBoth_trace s) ?_
  exact fun e he => e.isLocal_of_not_isCompilation (not_isCompilation_of_mem_unlocks he)

/-- What is done with a remote compilation that returned 0. -/
theorem afterRemote_leads (h : s.afterRemote env = some (r, s')) (hv : s.words s.argv = some v)
    (htrace : s.trace = s₁.trace ++ [.compiledRemotely 0 s.status]) : Leads env v s₁ r s' := by
  -- the server's standard error is shown, or everything is done again
  have hshow {s₂ : Build} (hrun : (if env.copyStderr ≠ 0 then
        fallback env (dccCritiqueStatus s.status) (s₂.emit (.copiedStderr env.copyStderr))
      else cleanUp (dccCritiqueStatus s.status) (s₂.emit (.copiedStderr env.copyStderr))) =
        some (r, s'))
      (hs2 : s₂ = { s.emit (.unlocked s.cpuLockFd) with cpuLockFd := noFd }) :
      Leads env v s₁ r s' := by
    subst hs2
    split at hrun
    · have hevents : (s.emit (.unlocked s.cpuLockFd)).trace ++ [.copiedStderr env.copyStderr] =
          s₁.trace ++ [.compiledRemotely 0 s.status, .unlocked s.cpuLockFd,
            .copiedStderr env.copyStderr] := by
        simp [htrace]
      exact (fallback_leads hfallback hrun hv).of_events hevents
    · case isFalse hcopied =>
      simp only [cleanUp, some.injEq, Prod.mk.injEq] at hrun
      obtain ⟨rfl, rfl⟩ := hrun
      refine ⟨_, ?_, .ranThere [] (forall_mem_nil _) s.status s.cpuLockFd⟩
      simp [store, htrace, not_not.mp hcopied]
  have hagain : s.trace ++ [.unlocked s.cpuLockFd] =
      s₁.trace ++ [.compiledRemotely 0 s.status, .unlocked s.cpuLockFd] := by
    simp [htrace]
  unfold afterRemote at h
  dsimp only at h
  split at h
  · exact hshow h rfl
  split at h
  · split at h
    · exact hshow h rfl
    · exact (fallback_leads hfallback h hv).of_events hagain
  · exact (fallback_leads hfallback h hv).of_events hagain

theorem buildRemotely_leads {cppWhere : CppWhere} {cppPid : Bool}
    (h : s.buildRemotely env cppWhere cppPid = some (r, s')) (hv : s.words s.argv = some v) :
    Leads env v s r s' := by
  unfold buildRemotely at h
  rcases hremote : s.dccCompileRemote env cppWhere cppPid with ⟨ret, s₁⟩
  obtain ⟨htrace, -, -, hargv, hheap⟩ := dccCompileRemote_spec hremote
  rw [hremote] at h
  dsimp only at h
  have hv1 : s₁.words s₁.argv = some v := by
    rw [words, hheap, hargv]
    exact hv
  have hends : Leads env v s₁ r s' := by
    split at h
    · exact (fallback_leads hfallback h hv1).of_events rfl
    · case isFalse hret =>
      obtain rfl : ret = 0 := not_not.mp hret
      exact afterRemote_leads hfallback h hv1 rfl
  refine hends.of_events htrace ?_
  split <;> simp [BuildEvent.isLocal]

theorem buildStripped_leads {cppPid : Bool} (h : s.buildStripped env cppPid = some (r, s'))
    (hv : s.words s.argv = some v) : Leads env v s r s' := by
  unfold buildStripped at h
  generalize (if env.stripMalloc = true then (0 : ℤ) else _) = ret at h
  dsimp only at h
  have hends : Leads env v (s.emit (.stripped ret)) r s' := by
    split at h
    · exact fallback_leads hfallback h hv
    · obtain ⟨argv, -, h⟩ := bind_eq_some_iff.mp h
      have hremote := buildRemotely_leads hfallback h (words_append _ hv)
      exact hremote
  exact hends.of_events rfl

theorem buildClientCpp_leads (h : s.buildClientCpp env input = some (r, s'))
    (hv : s.words s.argv = some v) : Leads env v s r s' := by
  simp only [buildClientCpp, bind_eq_bind, bind_eq_some_iff] at h
  obtain ⟨⟨ret, cppPid, s₁⟩, hcpp, h⟩ := h
  obtain ⟨more, rfl⟩ := dccCppMaybe_spec hcpp
  have hv1 := words_append more hv
  dsimp only at h
  split at h
  · exact (fallback_leads hfallback h hv1).of_events rfl
  · exact (buildStripped_leads hfallback h hv1).of_events rfl

theorem buildServerCpp_leads (h : s.buildServerCpp env = some (r, s'))
    (hv : s.words s.argv = some v) : Leads env v s r s' := by
  unfold buildServerCpp at h
  split at h
  · exact fallback_leads hfallback h hv
  · obtain ⟨argv, -, h⟩ := bind_eq_some_iff.mp h
    have hremote := buildRemotely_leads hfallback h (words_append _ hv)
    exact hremote

variable (hscan : env.scanIncludes = false)

include hscan

theorem buildLocked_leads {host : Hostdef} (h : s.buildLocked env input host = some (r, s'))
    (hv : s.words s.argv = some v) : Leads env v s r s' := by
  unfold buildLocked at h
  simp only [hscan, Bool.false_eq_true, if_false] at h
  split at h
  · exact buildClientCpp_leads hfallback h hv
  split at h
  · split at h
    · cases h
    · exact buildClientCpp_leads hfallback h hv
  · exact (buildServerCpp_leads hfallback h hv).of_events rfl

theorem buildOnHost_leads {host : Hostdef} (h : s.buildOnHost env input host = some (r, s'))
    (hv : s.words s.argv = some v) : Leads env v s r s' := by
  simp only [buildOnHost, bind_eq_bind, bind_eq_some_iff] at h
  obtain ⟨⟨res, fd, s₁⟩, hlock, h⟩ := h
  obtain ⟨hwords, e, htrace, hlocal⟩ := lockOne_quiet hlock
  have hends : Leads env v { s₁ with localCpuLockFd := fd } r s' := by
    cases res with
    | error c => exact fallback_leads hfallback h (hwords.trans hv)
    | ok _ => exact buildLocked_leads hfallback hscan h (hwords.trans hv)
  exact hends.of_events htrace hlocal

theorem distribute_leads (h : s.distribute env input = some (r, s'))
    (hv : s.words s.argv = some v) : Leads env v s r s' := by
  unfold distribute at h
  split at h
  · exact fallback_leads hfallback h hv
  split at h
  · exact fallback_leads hfallback h hv
  · exact fallback_leads hfallback h hv
  simp only [bind_eq_bind, bind_eq_some_iff] at h
  obtain ⟨⟨res, fd, s₁⟩, hlock, h⟩ := h
  obtain ⟨hwords, e, htrace, hlocal⟩ := lockOne_quiet hlock
  have hends : Leads env v { s₁ with cpuLockFd := fd } r s' := by
    cases res with
    | error c => exact fallback_leads hfallback h (hwords.trans hv)
    | ok host =>
      dsimp only at h
      split at h
      · exact runLocal_leads h (hwords.trans hv)
      · exact buildOnHost_leads hfallback hscan h (hwords.trans hv)
  exact hends.of_events htrace hlocal

end Falling

/-- A vector that was just made, after the old one was freed, is there. -/
theorem words_replaced (argv : List CString) (hv : s.words s.argv = some v) :
    ((s.alloc argv).store s.argv none).words s.heap.length = some argv := by
  have hne : s.argv ≠ s.heap.length := by
    intro heq
    rw [words, heq, getElem?_eq_none (le_refl _)] at hv
    cases hv
  have hget : ((s.heap ++ [some argv]).set s.argv none)[s.heap.length]? = some (some argv) := by
    rw [getElem?_set_ne hne, getElem?_concat_length]
  rw [words, store, alloc, hget]
  rfl

/-- From the scan on, it is the scanned vector that counts. -/
theorem scanAndBuild_leads {argv : List CString} (h : s.scanAndBuild env = some (r, s'))
    (hscan : env.scanIncludes = false) (hfallback : env.fallback = true)
    (hargv : s.words s.argv = some argv)
    (hv : v = match dccScanArgs argv with | .ok scanned => scanned.newargv | .error _ => argv) :
    Leads env v s r s' := by
  simp only [scanAndBuild, bind_eq_bind, bind_eq_some_iff] at h
  obtain ⟨argv', hargv', h⟩ := h
  obtain rfl : argv' = argv := some.inj (hargv'.symm.trans hargv)
  split at h
  · cases h
  split at h
  · cases h
  · cases h
  · case h_3 hscanned =>
    have hends := lockLocal_leads h (words_replaced argv' hargv)
    rw [hv, hscanned]
    exact hends
  · case h_4 scanned hscanned =>
    have hends := distribute_leads hfallback hscan h (words_replaced scanned.newargv hargv)
    rw [hv, hscanned]
    exact hends

/-- The vector after `dcc_expand_preprocessor_options`. -/
theorem expand_words (env : BuildEnv) (hv : s.words s.argv = some v) :
    (s.expand env).words (s.expand env).argv = some (env.expanded.getD v) := by
  unfold expand
  cases env.expanded with
  | none => exact hv
  | some argv => exact words_replaced argv hv

end Build

/-- **The fallback contract** of `dcc_build_somewhere`, with fallbacks enabled and
includes not scanned. The command is compiled here at most once, and then it is the
scanned vector, and the result is returned. If it is not, then nothing could be tried, and
the error is returned, or the run ends with a remote compilation whose result is
returned after its standard error was shown. And whenever 0 is returned, the
last compilation of the run succeeded. -/
theorem dccBuildSomewhere_falls_back {env : BuildEnv} {argv : List CString} {status ret : ℤ}
    {s : Build} (hrun : dccBuildSomewhere env argv status = some (ret, s)) (hsg : env.sgLevel = 0)
    (hscan : env.scanIncludes = false) (hfallback : env.fallback = true) :
    (localCompilations s.trace = [(scannedVector env argv, ret)] ∨
      localCompilations s.trace = [] ∧
        (ret ≠ 0 ∧ (.expanded ret ∈ s.trace ∨ .lookedUpDiscrepancy ret ∈ s.trace) ∨
          ∃ st fd, ret = dccCritiqueStatus st ∧
            [.compiledRemotely 0 st, .unlocked fd, .copiedStderr 0] <:+ s.trace)) ∧
    (ret = 0 → ∃ e, (s.trace.filter BuildEvent.isCompilation).getLast? = some e ∧
      e.Succeeded env) := by
  unfold dccBuildSomewhere at hrun
  dsimp only at hrun
  split at hrun
  · case isTrue hexpand =>
    simp only [Build.cleanUp, some.injEq, Prod.mk.injEq] at hrun
    obtain ⟨rfl, rfl⟩ := hrun
    exact ⟨.inr ⟨rfl, .inl ⟨hexpand, .inl (by simp [Build.store])⟩⟩, fun h => absurd h hexpand⟩
  have hv := Build.expand_words (s := Build.emit { heap := [some argv], argv := 0, status }
    (.expanded env.expand)) (v := argv) env rfl
  rw [Build.expand_eq] at hrun
  split at hrun
  · case isTrue hdiscrepancy =>
    simp only [Build.cleanUp, some.injEq, Prod.mk.injEq] at hrun
    obtain ⟨rfl, rfl⟩ := hrun
    exact ⟨.inr ⟨rfl, .inl ⟨hdiscrepancy, .inr (by simp [Build.store])⟩⟩,
      fun h => absurd h hdiscrepancy⟩
  rw [if_neg (not_not.mpr hsg)] at hrun
  have hends := Build.scanAndBuild_leads hrun hscan hfallback hv rfl
  obtain ⟨es, htrace, hout⟩ := hends.of_events (s := { heap := [], argv := 0, status }) rfl
    (by simp [BuildEvent.isLocal])
  rw [htrace]
  refine ⟨hout.localCompilations.imp_right fun h => ⟨h.1, .inr h.2⟩, ?_⟩
  rintro rfl
  exact hout.succeeded

/-- A run on a day when the host cannot be reached: the command is compiled here. -/
theorem dccBuildSomewhere_falls_back_hello :
    ∃ s, dccBuildSomewhere { BuildEnv.calm [.ofName (lit "host")] with connect := 103 }
        [lit "gcc", lit "-c", lit "hello.c"] 0 = some (0, s) ∧
      localCompilations s.trace =
        [([lit "gcc", lit "-c", lit "hello.c", lit "-o", lit "hello.o"], 0)] := by
  have hret : (dccBuildSomewhere { BuildEnv.calm [.ofName (lit "host")] with connect := 103 }
      [lit "gcc", lit "-c", lit "hello.c"] 0).map
        (fun r => (r.1, (localCompilations r.2.trace).isEmpty)) = some (0, false) := by
    decide +kernel
  obtain ⟨⟨ret, s⟩, hrun, hs⟩ := map_eq_some_iff.mp hret
  obtain ⟨rfl, hlocal⟩ := Prod.mk.inj hs
  refine ⟨s, hrun, ?_⟩
  rcases (dccBuildSomewhere_falls_back hrun rfl rfl rfl).1 with hone | ⟨hnone, -⟩
  · exact hone
  · rw [hnone] at hlocal
    cases hlocal

end Distcc
