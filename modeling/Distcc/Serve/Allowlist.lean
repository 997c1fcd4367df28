import Distcc.Serve.Answer

/-!
# Which compilers a server runs

A server that was started with `DISTCC_CMDLIST` set is meant to run the commands on that
list and no others. What it knows of the list it keeps from job to job: whether it has
looked for it, and the map.

It runs nothing else as long as three things are so (`served_runs_listed`). The lines
of the file are C strings that fit the buffer they are read into. When the list is first
needed, the file can be opened: otherwise `dcc_remap_compiler` returns `EXIT_IO_ERROR`,
which its caller takes for yes, and all later jobs find that there is no map. And a line
that is a path can be executed: otherwise `dcc_execvp` looks for its last component in
`PATH`.
-/

namespace Distcc

open CString Prog

/-! ### What must not go wrong -/

/-- The list is read, and this is what the file holds. -/
def CanLoad (env : JobEnv) (filename content : CString) (w : World) : Prop :=
  ∃ w', loadCmdlist env.strayLine filename (numFinalWordsToMatch w.proc)
    (w.keeping fun proc => { proc with cmdlistChecked := true }) =
      some (.ok (some (stringmapLoad env.strayLine content (numFinalWordsToMatch w.proc))), w')

/-- If a child gets as far as `execvp`, it is replaced by the program of this name, or the
name is no path. -/
def RunsDirectly (compiler : CString) (w : World) : Prop :=
  ∀ w₁ w₂, syscall w = some (.ok (.ok ()), w₁) → syscall w₁ = some (.ok (.ok ()), w₂) →
    '/'.toUInt8 ∉ compiler ∨ ∃ w₃, execvp compiler w₂ = some (.ok (.ok ()), w₃)

/-- In a job, the list is read if it was not before, and the compiler that is found in it
is the program that runs. -/
def ListHeeded (lzo : Lzo) (filename content : CString) (env : JobEnv) (w : World) : Prop :=
  ∀ job w₁, receiveJob lzo env w = some (.ok (some job), w₁) →
    (w₁.proc.cmdlistChecked = false → CanLoad env filename content w₁) ∧
    ∀ compiler w₂ w₃, dccRemapCompiler env (job.argv.headD []) w₁ = some (.ok (some compiler), w₂) →
      dccCheckCompilerMasq compiler w₂ = some (.ok (), w₃) → RunsDirectly compiler w₃

/-! ### One job -/

/-- **What the process keeps, as long as it runs commands of the list**: it has not looked
for the list yet, or it has the map of it; and what it ran is on the list. -/
structure Listed (filename : CString) (lines : List CString) (proc : Proc) : Prop where
  env : proc.env (lit "DISTCC_CMDLIST") = some filename
  map : proc.cmdlistChecked = true → ∃ map, proc.map = some map ∧ map.Within lines
  ran : ∀ file ∈ proc.ran, file ∈ lines

section Job

variable {lzo : Lzo} {filename content compiler : CString} {lines : List CString} {env : JobEnv}
  {w w' : World} {r : Except Failure Unit}

/-- What is found in a map is in it. -/
theorem lookupCompiler_mem {map : Stringmap} {stray name compiler : CString}
    (hmap : w.proc.map = some map) (hwithin : map.Within lines)
    (h : lookupCompiler stray name w = some (.ok (some compiler), w')) : compiler ∈ lines := by
  rw [lookupCompiler, get_bind, hmap] at h
  dsimp only at h
  split at h
  · cases (pure_eq_some_iff.mp h).1
  · case h_2 newname hlookup =>
    have hmem := stringmapLookup_mem hwithin hlookup
    suffices hname : newname = compiler from hname ▸ hmem
    split at h
    · case isTrue heq =>
      obtain ⟨hr, -⟩ := pure_eq_some_iff.mp h
      rw [heq]
      exact Option.some.inj (Except.ok.inj hr)
    · obtain ⟨room, w₁, -, hrest⟩ := bind_eq_ok_iff.mp h
      cases room with
      | true => exact Option.some.inj ((pure_eq_ok_iff.mp hrest).1)
      | false => cases never_eq_some_iff.mp hrest

/-- **A command that may run is on the list.** -/
theorem dccRemapCompiler_listed (hlines : loadValues content = lines)
    (hp : Listed filename lines w.proc)
    (hload : w.proc.cmdlistChecked = false → CanLoad env filename content w) {name : CString}
    {r : Except Failure (Option CString)} (h : dccRemapCompiler env name w = some (r, w')) :
    Listed filename lines w'.proc ∧ ∀ compiler, r = .ok (some compiler) → compiler ∈ lines := by
  have hlookup {w₁ : World} (hp1 : Listed filename lines w₁.proc)
      (hmap : ∃ map, w₁.proc.map = some map ∧ map.Within lines)
      (hrun : lookupCompiler env.strayName name w₁ = some (r, w')) :
      Listed filename lines w'.proc ∧ ∀ compiler, r = .ok (some compiler) → compiler ∈ lines := by
    have hforgets : w'.proc = w₁.proc := lookupCompiler_keeps blind_forgets _ name hrun
    obtain ⟨map, hsome, hwithin⟩ := hmap
    refine ⟨hforgets ▸ hp1, ?_⟩
    rintro compiler rfl
    exact lookupCompiler_mem hsome hwithin hrun
  rw [dccRemapCompiler, get_bind] at h
  split at h
  · case isTrue hchecked => exact hlookup hp (hp.map hchecked) h
  · case isFalse hfirst =>
    rw [hp.env] at h
    obtain ⟨w₁, hrun⟩ := hload (Bool.eq_false_iff.mpr hfirst)
    have hforgets : w₁.proc = { w.proc with cmdlistChecked := true } :=
      loadCmdlist_keeps blind_forgets _ _ _ hrun
    replace h := (bind_of_ok hrun).symm.trans h
    -- the map that was read is kept, and the rest is a lookup
    have hwithin : (stringmapLoad env.strayLine content (numFinalWordsToMatch w.proc)).Within
        lines := hlines ▸ stringmapLoad_within _ _ _
    have hp1 : Listed filename lines (w₁.keeping fun proc => { proc with
        map := some
          (stringmapLoad env.strayLine content (numFinalWordsToMatch w.proc)) }).proc := by
      rw [World.keeping, hforgets]
      exact ⟨hp.env, fun _ => ⟨_, rfl, hwithin⟩, hp.ran⟩
    exact hlookup hp1 ⟨_, rfl, hwithin⟩ h

/-- The list is still kept to when a command of the list ran. -/
theorem Listed.ranOne {proc : Proc} (hp : Listed filename lines proc) (hmem : compiler ∈ lines) :
    Listed filename lines { proc with ran := proc.ran ++ [compiler] } where
  env := hp.env
  map := hp.map
  ran file hfile := by
    rcases List.mem_append.mp hfile with hfile | hfile
    · exact hp.ran file hfile
    · exact List.mem_singleton.mp hfile ▸ hmem

/-- The child of a server runs the command, if it runs directly. -/
theorem dccSpawnChild_listed (hp : Listed filename lines w.proc)
    (hmem : compiler ∈ lines) (hdirect : RunsDirectly compiler w)
    (h : dccSpawnChild compiler w = some (r, w')) : Listed filename lines w'.proc := by
  have hsame {w₁ w₂ : World} (hsame : w₁.Same w₂) (hp : Listed filename lines w₁.proc) :
      Listed filename lines w₂.proc := blind_forgets.same hsame ▸ hp
  rcases bind_cases h with ⟨e, -, hfork⟩ | ⟨res, w₁, hfork, hrest⟩
  · exact hsame (syscall_keeps hfork) hp
  have hp1 := hsame (syscall_keeps hfork) hp
  rcases res with e | _
  · obtain ⟨-, rfl⟩ := fail_eq_some_iff.mp hrest
    exact hp1
  rcases bind_cases hrest with ⟨e, -, hsetup⟩ | ⟨res, w₂, hsetup, hexec⟩
  · exact hsame (syscall_keeps hsetup) hp1
  have hp2 := hsame (syscall_keeps hsetup) hp1
  rcases res with e | _
  · obtain ⟨-, rfl⟩ := pure_eq_some_iff.mp hexec
    exact hp2
  rcases bind_cases hexec with ⟨e, -, hrun⟩ | ⟨res, w₃, hrun, hend⟩
  · rcases change_spec hrun with ⟨_, hr, -⟩ | ⟨_, hr, -, -⟩ <;> cases hr
  rcases change_spec hrun with ⟨e, hr, hsame3⟩ | ⟨w₄, hr, hsame4, rfl⟩
  · -- the program did not run, so its name is no path
    obtain rfl := Except.ok.inj hr
    rcases hdirect w₁ w₂ hfork hsetup with hslash | ⟨_, hok⟩
    · dsimp only at hend
      rw [strrchr_eq_none_iff.mpr hslash] at hend
      obtain ⟨-, rfl⟩ := pure_eq_some_iff.mp hend
      exact hsame hsame3 hp2
    · cases Except.ok.inj (run_unique hrun hok).1
  · obtain rfl := Except.ok.inj hr
    obtain ⟨-, rfl⟩ := pure_eq_some_iff.mp hend
    exact (hsame hsame4 hp2).ranOne hmem

/-- Running a command of the list. -/
theorem runCompiler_listed (hp : Listed filename lines w.proc)
    (hmem : compiler ∈ lines) (hdirect : RunsDirectly compiler w) {r : Except Failure ℤ}
    (h : runCompiler env compiler w = some (r, w')) : Listed filename lines w'.proc := by
  obtain ⟨ret, w₁, hchild, hrest⟩ := attempt_bind_cases h
  have hp1 : Listed filename lines w₁.proc := by
    rcases bind_cases hchild with ⟨_, -, hspawn⟩ | ⟨_, w₂, hspawn, hcollect⟩
    · exact dccSpawnChild_listed hp hmem hdirect hspawn
    · have hforgets : w₁.proc = w₂.proc := dccCollectChild_keeps blind_forgets env hcollect
      exact hforgets ▸ dccSpawnChild_listed hp hmem hdirect hspawn
  have hforgets : w'.proc = w₁.proc := by
    rcases bind_cases hrest with ⟨_, -, hfiles⟩ | ⟨_, w₂, hfiles, hstatus⟩
    · cases (modify_eq_some_iff.mp hfiles).1
    · obtain ⟨-, rfl⟩ := modify_eq_some_iff.mp hfiles
      rcases ret with e | status
      · obtain ⟨-, rfl⟩ := pure_eq_some_iff.mp hstatus
        rfl
      · obtain ⟨-, rfl⟩ := pure_eq_some_iff.mp hstatus
        rfl
  exact hforgets ▸ hp1

/-- Running the compiler of a job. -/
theorem compileJob_listed (hlines : loadValues content = lines) {job : Job}
    (hp : Listed filename lines w.proc)
    (hload : w.proc.cmdlistChecked = false → CanLoad env filename content w)
    (hdirect : ∀ compiler w₁ w₂,
      dccRemapCompiler env (job.argv.headD []) w = some (.ok (some compiler), w₁) →
        dccCheckCompilerMasq compiler w₁ = some (.ok (), w₂) → RunsDirectly compiler w₂)
    {r : Except Failure (Option ℤ)} (h : compileJob env job w = some (r, w')) :
    Listed filename lines w'.proc := by
  rcases bind_cases h with ⟨e, -, hremap⟩ | ⟨compiler, w₁, hremap, hrest⟩
  · exact (dccRemapCompiler_listed hlines hp hload hremap).1
  obtain ⟨hp1, hmem⟩ := dccRemapCompiler_listed hlines hp hload hremap
  cases compiler with
  | none =>
    obtain ⟨-, rfl⟩ := pure_eq_some_iff.mp hrest
    exact hp1
  | some compiler =>
    have hmasqForgets {r : Except Failure Unit} {w₂ : World}
        (hmasq : dccCheckCompilerMasq compiler w₁ = some (r, w₂)) : w₂.proc = w₁.proc :=
      dccCheckCompilerMasq_keeps blind_forgets compiler hmasq
    rcases bind_cases hrest with ⟨e, -, hmasq⟩ | ⟨_, w₂, hmasq, hrest2⟩
    · exact hmasqForgets hmasq ▸ hp1
    have hp2 : Listed filename lines w₂.proc := hmasqForgets hmasq ▸ hp1
    have hruns := hdirect compiler w₁ w₂ hremap hmasq
    rcases bind_pure_cases hrest2 with ⟨status, hrun, -⟩ | ⟨e, hrun, -⟩
    · exact runCompiler_listed hp2 (hmem compiler rfl) hruns hrun
    · exact runCompiler_listed hp2 (hmem compiler rfl) hruns hrun

/-- **One job.** -/
theorem dccRunJob_listed (hlines : loadValues content = lines) (hp : Listed filename lines w.proc)
    (hheeded : ListHeeded lzo filename content env w)
    (h : dccRunJob lzo env w = some (r, w')) : Listed filename lines w'.proc := by
  have hforgets {r : Except Failure (Option Job)} {w₁ : World}
      (hreceive : receiveJob lzo env w = some (r, w₁)) : w₁.proc = w.proc :=
    receiveJob_keeps blind_forgets lzo env hreceive
  rcases bind_cases h with ⟨e, -, hreceive⟩ | ⟨job, w₁, hreceive, hrest⟩
  · exact hforgets hreceive ▸ hp
  have hp1 : Listed filename lines w₁.proc := hforgets hreceive ▸ hp
  cases job with
  | none =>
    obtain ⟨-, rfl⟩ := pure_eq_some_iff.mp hrest
    exact hp1
  | some job =>
    obtain ⟨hload, hdirect⟩ := hheeded job w₁ hreceive
    rcases bind_cases hrest with ⟨e, -, hcompile⟩ | ⟨status, w₂, hcompile, hanswer⟩
    · exact compileJob_listed hlines hp1 hload hdirect hcompile
    have hp2 := compileJob_listed hlines hp1 hload hdirect hcompile
    cases status with
    | none =>
      obtain ⟨-, rfl⟩ := pure_eq_some_iff.mp hanswer
      exact hp2
    | some status =>
      have hsent : w'.proc = w₂.proc :=
        sendAnswer_keeps blind_forgets (fun _ _ => rfl) lzo env job status hanswer
      exact hsent ▸ hp2

end Job

/-! ### One job after the other -/

/-- A connection: what the world is like then, apart from what the process keeps. -/
structure Visit where
  /-- What the job depends on. -/
  env : JobEnv
  /-- What the process finds. -/
  world : World

/-- The world in which a process handles a connection. -/
def Visit.start (visit : Visit) (proc : Proc) : World := visit.world.keeping fun _ => proc

/-- **A process handles one connection after the other.** Each job meets `C`; that it
fails does not end the process. -/
inductive Served (lzo : Lzo) (C : JobEnv → World → Prop) : Proc → List Visit → Proc → Prop where
  | nil (proc : Proc) : Served lzo C proc [] proc
  | cons {proc proc' : Proc} {visit : Visit} {visits : List Visit} {r : Except Failure Unit}
      {w' : World} (hjob : dccRunJob lzo visit.env (visit.start proc) = some (r, w'))
      (hC : C visit.env (visit.start proc)) (hrest : Served lzo C w'.proc visits proc') :
      Served lzo C proc (visit :: visits) proc'

/-- The list is kept to along every run. -/
theorem Served.keeps_listed {lzo : Lzo} {filename content : CString} {lines : List CString}
    {proc proc' : Proc} {visits : List Visit} (hlines : loadValues content = lines)
    (h : Served lzo (ListHeeded lzo filename content) proc visits proc')
    (hp : Listed filename lines proc) : Listed filename lines proc' := by
  induction h with
  | nil proc => exact hp
  | cons hjob hC _ ih => exact ih (dccRunJob_listed hlines hp hC hjob)

/-- **A server with a list of commands runs only what is on it**, whatever jobs it gets,
as long as the lines of the file are C strings that fit the buffer, the file can be read
when it is needed, and the paths on it can be executed. -/
theorem served_runs_listed {lzo : Lzo} {filename content : CString} {proc proc' : Proc}
    {visits : List Visit} (hstart : proc.cmdlistChecked = false) (hran : proc.ran = [])
    (henv : proc.env (lit "DISTCC_CMDLIST") = some filename)
    (hlines : ∀ l ∈ fileLines content, l.NulFree ∧ l.length + 1 < bufSize)
    (h : Served lzo (ListHeeded lzo filename content) proc visits proc') :
    ∀ file ∈ proc'.ran, file ∈ fileLines content := by
  have hp : Listed filename (fileLines content) proc := by
    refine ⟨henv, fun hchecked => ?_, fun file hfile => ?_⟩
    · rw [hstart] at hchecked
      cases hchecked
    · rw [hran] at hfile
      cases hfile
  exact (h.keeps_listed (loadValues_eq_fileLines hlines) hp).ran

/-- In a benign world, what is to run does. -/
theorem runsDirectly_of_benign {w : World} (compiler : CString) (hw : w.Benign) :
    RunsDirectly compiler w := by
  intro w₁ w₂ hfork hsetup
  have hw2 : w₂.Benign := (syscall_keeps hsetup).benign ((syscall_keeps hfork).benign hw)
  obtain ⟨w₃, hrun, -⟩ := change_succeeds
    (·.keeping fun proc => { proc with ran := proc.ran ++ [compiler] }) hw2
  exact .inr ⟨_, hrun⟩

/-- A server that is told of a list. -/
def Proc.ofList : Proc where
  env name := if name = lit "DISTCC_CMDLIST" then some (lit "/list") else none

/-- A list of one line. -/
def oneLine : CString := lit "/usr/bin/gcc\n"

/-- A small job, with a file for the list or without. -/
def Visit.ofHello (list : Option CString) : Visit where
  env := .ofHello
  world := { World.ofHelloJob with files := Function.update (fun _ => none) (lit "/list") list }

/-- What happens when the small job meets the list of one line. -/
def listHeededTest (job : Option Job) (w₁ : World) : Bool :=
  (loadCmdlist [] (lit "/list") (numFinalWordsToMatch w₁.proc)).yields
      (w₁.keeping fun proc => { proc with cmdlistChecked := true })
      (fun map _ => map = some (stringmapLoad [] oneLine (numFinalWordsToMatch w₁.proc))) &&
    (dccRemapCompiler .ofHello ((job.map Job.argv).getD [] |>.headD [])).yields w₁
      (fun compiler w₂ => (dccCheckCompilerMasq (compiler.getD [])).yields w₂
        (fun _ w₃ => w₃.script = []))

theorem listHeeded_hello : ListHeeded Lzo.runs (lit "/list") oneLine .ofHello
    ((Visit.ofHello (some oneLine)).start .ofList) := by
  intro job w₁ hreceive
  have hreceives : (receiveJob Lzo.runs .ofHello).yields
      ((Visit.ofHello (some oneLine)).start .ofList) listHeededTest = true := by
    decide +kernel
  obtain ⟨hloads, hruns⟩ := Bool.and_eq_true_iff.mp (of_yields hreceives hreceive)
  refine ⟨fun _ => ?_, fun compiler w₂ w₃ hremap hmasq => ?_⟩
  · obtain ⟨map, w₂, hload, hmap⟩ := exists_of_yields hloads
    rw [of_decide_eq_true hmap] at hload
    exact ⟨w₂, hload⟩
  · have hscript := of_yields (of_yields hruns hremap) hmasq
    refine runsDirectly_of_benign compiler fun reply hreply => ?_
    rw [of_decide_eq_true hscript] at hreply
    cases hreply

/-- The command of a small job is looked up in a list of one line. -/
theorem served_runs_listed_hello :
    ∃ proc', Served Lzo.runs (ListHeeded Lzo.runs (lit "/list") oneLine) .ofList
        [.ofHello (some oneLine)] proc' ∧ proc'.ran = [lit "/usr/bin/gcc"] ∧
      ∀ file ∈ proc'.ran, file ∈ fileLines oneLine := by
  have hyields : (dccRunJob Lzo.runs .ofHello).yields
      ((Visit.ofHello (some oneLine)).start .ofList)
      (fun _ w' => w'.proc.ran = [lit "/usr/bin/gcc"]) = true := by
    decide +kernel
  obtain ⟨_, w', hrun, hran⟩ := exists_of_yields hyields
  have hserved : Served Lzo.runs (ListHeeded Lzo.runs (lit "/list") oneLine)
      .ofList [.ofHello (some oneLine)] w'.proc := .cons hrun listHeeded_hello (.nil _)
  have hfits : ∀ l ∈ fileLines oneLine, l.NulFree ∧ l.length + 1 < bufSize := by decide
  exact ⟨w'.proc, hserved, of_decide_eq_true hran,
    served_runs_listed rfl rfl (by decide) hfits hserved⟩

/-- **A list that cannot be read lets everything pass**: the command the client named is
run. -/
theorem served_runs_unlisted :
    ∃ proc', Served Lzo.runs (fun _ _ => True) .ofList [.ofHello none] proc' ∧
      ¬∀ file ∈ proc'.ran, ∃ content,
        (Visit.ofHello none).world.files (lit "/list") = some content ∧
          file ∈ fileLines content := by
  have hyields : (dccRunJob Lzo.runs .ofHello).yields ((Visit.ofHello none).start .ofList)
      (fun _ w' => w'.proc.ran = [lit "gcc"]) = true := by
    decide +kernel
  obtain ⟨_, w', hrun, hran⟩ := exists_of_yields hyields
  refine ⟨w'.proc, .cons hrun trivial (.nil _), fun hlisted => ?_⟩
  have hmem : lit "gcc" ∈ w'.proc.ran := by
    rw [of_decide_eq_true hran]
    exact List.mem_singleton_self _
  obtain ⟨content, hfile, -⟩ := hlisted _ hmem
  have hnone : (Visit.ofHello none).world.files (lit "/list") = none := by decide
  cases hnone.symm.trans hfile

end Distcc
