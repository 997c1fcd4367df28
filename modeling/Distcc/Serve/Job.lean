import Distcc.Arg.Rewrite
import Distcc.Frame

/-!
# A job on the server

Model of `dcc_run_job` (`src/serve.c`), with the functions of `src/exec.c` that run the
compiler. A job is read from the connection, the command is rewritten to the names of
files of the server, the compiler is looked up in the list of commands and run, and the
answer is sent.

`dcc_run_job` has one variable `ret` for the results of what it calls, and one label for
all its ends. With preprocessing on the server, the results of receiving the files and
of rewriting the command do not go into `ret`; nor does that a command is not in the
list. These ends, with 0, are the `none` of `receiveJob` and of
`dccRemapCompiler`.

What the compiler, `dcc_fix_debug_info` and `dcc_cleanup_dotd` make of the files they are
given is a parameter (`JobEnv`), and so are the names that are made up for new
files. Of these three it is modelled whether they fail, and which files they change.
What is written to the log is not.
-/

namespace Distcc

open CString

/-- What a job depends on besides the system. -/
structure JobEnv where
  /-- The bits that the names of new files are made from, call by call. -/
  randomBits : ℕ → ℕ
  /-- The letters `mkdtemp` makes up. -/
  letters : CString
  /-- `dcc_job_lifetime` -/
  jobLifetime : ℕ
  /-- How the compiler ends, as `waitpid` tells. -/
  status : ℤ
  /-- What the files are after the compiler ran. -/
  compiled : World → CString → Option CString
  /-- What `dcc_fix_debug_info` makes of an object. -/
  fixed : CString → CString
  /-- What `dcc_cleanup_dotd` makes of dependencies. -/
  cleaned : CString → CString
  /-- What is found before an empty line of the list of commands. -/
  strayLine : CString
  /-- What is found before an empty name of a compiler. -/
  strayName : CString

/-- What is known about a job once it is read. -/
structure Job where
  /-- `protover` -/
  protover : ℕ
  /-- `argv` -/
  argv : List CString
  /-- `err_fname` -/
  errFname : CString
  /-- `out_fname` -/
  outFname : CString
  /-- `deps_fname` -/
  depsFname : CString
  /-- `temp_o` -/
  tempO : CString
  deriving DecidableEq, Repr

/-- `compr` -/
def Job.compr (job : Job) : Compress := (dccGetFeaturesFromProtover job.protover).1

/-- `cpp_where` -/
def Job.cppWhere (job : Job) : CppWhere := (dccGetFeaturesFromProtover job.protover).2.1

/-! ### Rewriting the command -/

/-- `include_options` -/
def includeOptions : List CString :=
  ["-I", "-include", "-imacros", "-idirafter", "-iprefix", "-iwithprefix", "-iwithprefixbefore",
    "-isystem", "-iquote"].map lit

/-- A name, under the directory of the server if it is absolute. -/
def underRoot (rootDir fname : CString) : CString :=
  if fname.head? = some '/'.toUInt8 then rootDir ++ fname else fname

/-- `tweak_include_arguments_for_server`, when there is memory. -/
def tweakIncludeArgumentsForServer (rootDir : CString) : List CString → List CString
  | [] => []
  | a :: rest =>
    match includeOptions.find? (startsWith · a) with
    | none => a :: tweakIncludeArgumentsForServer rootDir rest
    | some option =>
      if a = option then
        match rest with
        | [] => [a]
        | b :: rest => a :: underRoot rootDir b :: tweakIncludeArgumentsForServer rootDir rest
      else
        (option ++ underRoot rootDir (a.drop option.length)) ::
          tweakIncludeArgumentsForServer rootDir rest

/-- `tweak_input_argument_for_server`, when there is memory. -/
def tweakInputArgumentForServer (rootDir : CString) : List CString → List CString
  | [] => []
  | a :: rest =>
    if dccIsSource a ∧ a.head? = some '/'.toUInt8 then
      (rootDir ++ lit "/" ++ a.dropWhile (· = '/'.toUInt8)) :: rest
    else a :: tweakInputArgumentForServer rootDir rest

/-- `dcc_convert_mt_to_dotd_target`, without the target it returns. -/
def dccConvertMtToDotdTarget : List CString → Option (List CString)
  | [] => some []
  | a :: rest =>
    if a = lit "-MT" then
      match rest with
      | [] => none
      | _ :: rest => some rest
    else (dccConvertMtToDotdTarget rest).map (a :: ·)

/-- `tweak_arguments_for_server` -/
def tweakArgumentsForServer (rootDir depsFname : CString) (argv : List CString) :
    Io (Option (List CString)) := do
  -- `dcc_copy_argv`
  if ← alloc then
    match dccConvertMtToDotdTarget argv with
    | none => pure none
    | some argv =>
      let argv := argv ++ [lit "-MMD", lit "-MF", depsFname]
      pure (some
        (tweakInputArgumentForServer rootDir (tweakIncludeArgumentsForServer rootDir argv)))
  else pure none

/-! ### Reading the job -/

/-- `dcc_scan_args`, on the server. A vector that is read over its end, and one that
makes it call `exit`, are not scanned. -/
def scanArgs (argv : List CString) : Io Scanned :=
  match dccScanArgs argv with
  | .ok scanned => pure scanned
  | .error .distccFailed => Prog.fail ExitCode.distccFailed.failure
  | .error .badArguments => Prog.never
  | .error .overrun => Prog.never

/-- `dcc_input_tmpnam` -/
def dccInputTmpnam (origInput : CString) (randomBits : ℕ) : Io CString :=
  dccMakeTmpnam (lit "distccd")
    (((dccFindExtension origInput).bind dccPreprocExten).getD (lit ".tmp")) randomBits

/-- `make_temp_dir_and_chdir_for_cpp` -/
def makeTempDirAndChdirForCpp (letters : CString) : Io CString := do
  let tempDir ← dccGetNewTmpdir letters
  let clientSideCwd ← dccRCwd
  if ← alloc then
    let serverSideCwd := tempDir ++ clientSideCwd
    dccMkTmpAncestorDirs serverSideCwd
    dccMkTmpdir serverSideCwd
    match ← change fun w => { w with cwd := serverSideCwd } with
    | .error _ => Prog.fail ExitCode.ioError.failure
    | .ok () => pure tempDir
  else Prog.fail ExitCode.outOfMemory.failure

/-- The directory for the files, if there will be any. -/
def enterTempDir (letters : CString) : CppWhere → Io CString
  | .onClient => pure []
  | .onServer => makeTempDirAndChdirForCpp letters

section

variable (lzo : Lzo)

/-- The files are received and the command rewritten, with preprocessing on the server.
Where it fails, the code is lost. -/
def receiveTree (tempDir tempO depsFname : CString) (compr : Compress) (argv : List CString) :
    Io (Option (List CString)) := do
  match ← (dccRManyFiles lzo tempDir compr).attempt with
  | .error _ => pure none
  | .ok () =>
    match dccSetOutput tempO argv with
    | none => pure none
    | some argv => tweakArgumentsForServer tempDir depsFname argv

/-- The source is received and the command rewritten, with preprocessing on the
client. -/
def receiveSource (origInput tempO : CString) (compr : Compress) (argv : List CString)
    (randomBits : ℕ) : Io (List CString) := do
  let tempI ← dccInputTmpnam origInput randomBits
  dccRTokenFile lzo (lit "DOTI") tempI compr
  match (dccSetInput tempI argv).bind (dccSetOutput tempO) with
  | none => Prog.fail ExitCode.distccFailed.failure
  | some argv => pure argv

/-- The payload of a job, and what becomes of the command. -/
def receivePayload (env : JobEnv) (tempDir tempO depsFname : CString) (compr : Compress)
    (scanned : Scanned) : CppWhere → Io (Option (List CString))
  | .onServer => receiveTree lzo tempDir tempO depsFname compr scanned.newargv
  | .onClient => do
    let argv ← receiveSource lzo scanned.input tempO compr scanned.newargv (env.randomBits 4)
    pure (some argv)

/-- The names for the dependencies and for what the compiler says. -/
def makeOutputNames (env : JobEnv) : Io (CString × CString × CString) := do
  let depsFname ← dccMakeTmpnam (lit "distcc") (lit ".deps") (env.randomBits 0)
  let errFname ← dccMakeTmpnam (lit "distcc") (lit ".stderr") (env.randomBits 1)
  let outFname ← dccMakeTmpnam (lit "distcc") (lit ".stdout") (env.randomBits 2)
  -- `dcc_remove_if_exists`, and `dcc_add_log_to_file`
  let _ ← unlink depsFname
  let _ ← unlink errFname
  let _ ← unlink outFname
  let _ ← openWrite errFname
  pure (depsFname, errFname, outFname)

/-- `dcc_run_job`, until the command is rewritten. -/
def receiveJob (env : JobEnv) : Io (Option Job) := do
  let (depsFname, errFname, outFname) ← makeOutputNames env
  let protover ← dccRRequestHeader
  let (compr, cppWhere, _) := dccGetFeaturesFromProtover protover
  let tempDir ← enterTempDir env.letters cppWhere
  let argv ← dccRArgv (lit "ARGC") (lit "ARGV")
  let scanned ← scanArgs argv
  -- `strdup`, of the input and of the output
  if ← alloc then
    let tempO ← dccMakeTmpnam (lit "distccd") (lit ".o") (env.randomBits 3)
    match ← receivePayload lzo env tempDir tempO depsFname compr scanned cppWhere with
    | none => pure none
    | some argv => pure (some { protover, argv, errFname, outFname, depsFname, tempO })
  else Prog.fail ExitCode.outOfMemory.failure

end

/-! ### The list of commands -/

/-- The process keeps something else. -/
def World.keeping (w : World) (f : Proc → Proc) : World := { w with proc := f w.proc }

/-- `stringmap_load`: the file may be one that cannot be opened. -/
def loadCmdlist (stray filename : CString) (numFinalWordsToMatch : ℤ) : Io (Option Stringmap) := do
  match ← syscall with
  | .error _ => pure none
  | .ok () => do
    let w ← Prog.get
    pure ((w.files filename).map fun content => stringmapLoad stray content numFinalWordsToMatch)

/-- The end of `dcc_remap_compiler`: a command is looked up, if there is a map. -/
def lookupCompiler (stray compilerName : CString) : Io (Option CString) := do
  let w ← Prog.get
  match w.proc.map with
  | none => pure (some compilerName)
  | some map =>
    match stringmapLookup stray map compilerName with
    | none => pure none
    | some newname =>
      if newname = compilerName then pure (some compilerName)
      else if ← alloc then pure (some newname)
      -- the name is NULL now, and the next to look at it does not survive
      else Prog.never

/-- `DISTCC_CMDLIST_NUMWORDS` -/
def numFinalWordsToMatch (proc : Proc) : ℤ :=
  match proc.env (lit "DISTCC_CMDLIST_NUMWORDS") with
  | none => 1
  | some nw => atoi nw

/-- `dcc_remap_compiler`: the name to run, if it does not return 0. It returns
`EXIT_IO_ERROR`, which is not 0, if the list cannot be loaded. -/
def dccRemapCompiler (env : JobEnv) (compilerName : CString) : Io (Option CString) := do
  let w ← Prog.get
  if w.proc.cmdlistChecked then lookupCompiler env.strayName compilerName
  else do
    Prog.modify (·.keeping fun proc => { proc with cmdlistChecked := true })
    match w.proc.env (lit "DISTCC_CMDLIST") with
    | none => lookupCompiler env.strayName compilerName
    | some filename => do
      match ← loadCmdlist env.strayLine filename (numFinalWordsToMatch w.proc) with
      | none => pure (some compilerName)
      | some map => do
        Prog.modify (·.keeping fun proc => { proc with map := some map })
        lookupCompiler env.strayName compilerName

/-! ### Running the compiler -/

/-- The loop of `dcc_check_compiler_masq`, over the directories of `PATH`. -/
def checkMasqLoop (compilerName : CString) : List CString → Io Unit
  | [] => pure ()
  | dir :: dirs => do
    if ← alloc then
      -- `lstat`, and for a link `readlink`
      match ← syscall with
      | .error _ => checkMasqLoop compilerName dirs
      | .ok () => do
        let w ← Prog.get
        match w.links (dir ++ lit "/" ++ compilerName) with
        | none => pure ()
        | some _ => do
          match ← syscall with
          | .error _ => checkMasqLoop compilerName dirs
          | .ok () => pure ()
    else Prog.fail ExitCode.distccFailed.failure

/-- The directories of `PATH`. A colon at its end is not followed by one. -/
def pathDirs : CString → CString → List CString
  | [], dir => if dir = [] then [] else [dir]
  | b :: s, dir => if b = ':'.toUInt8 then dir :: pathDirs s [] else pathDirs s (dir ++ [b])

/-- `dcc_check_compiler_masq` -/
def dccCheckCompilerMasq (compilerName : CString) : Io Unit := do
  let w ← Prog.get
  if compilerName.head? = some '/'.toUInt8 then pure ()
  else match w.proc.env (lit "PATH") with
    | none => pure ()
    | some envpath => checkMasqLoop compilerName (pathDirs envpath [])

/-- `execvp`, of a file of this name or found in `PATH` under it. -/
def execvp (file : CString) : Io (Except Errno Unit) :=
  change (·.keeping fun proc => { proc with ran := proc.ran ++ [file] })

/-- `dcc_execvp`, in the child. -/
def dccExecvp (argv0 : CString) : Io Unit := do
  match ← execvp argv0 with
  | .ok () => pure ()
  | .error _ =>
    match strrchr '/'.toUInt8 argv0 with
    | none => pure ()
    | some slash => do
      let _ ← execvp slash.tail
      pure ()

/-- `dcc_spawn_child`. What is to be set up for the child may fail, and it exits then. -/
def dccSpawnChild (argv0 : CString) : Io Unit := do
  match ← syscall with
  | .error _ => Prog.fail ExitCode.outOfMemory.failure
  | .ok () => do
    match ← syscall with
    | .error _ => pure ()
    | .ok () => dccExecvp argv0

/-- Is the client still there? This is what `dcc_collect_child` does while it waits. -/
def checkClient : Io Unit := do
  match ← nextReply with
  | .full | .short _ => do
    match ← read .connection 1 with
    | .ok [] => Prog.fail ExitCode.ioError.failure
    | _ => pure ()
  | .zero | .error _ => pure ()

/-- A turn of the loop in `dcc_collect_child`, after `n` others. -/
def collectTurn (env : JobEnv) (n : ℕ) : Io (ℕ ⊕ ℤ) := do
  if env.jobLifetime ≠ 0 ∧ env.jobLifetime < n then Prog.fail ExitCode.timeout.failure
  else match ← nextReply with
    | .full | .short _ => pure (.inr env.status)
    | .zero | .error .intr => do
      checkClient
      pure (.inl (n + 1))
    | .error _ => Prog.fail ExitCode.distccFailed.failure

/-- `dcc_collect_child` -/
def dccCollectChild (env : JobEnv) : Io ℤ := loopFor 0 (collectTurn env) 0

/-- Running the compiler, and a status whatever becomes of it. -/
def runCompiler (env : JobEnv) (argv0 : CString) : Io ℤ := do
  let compileRet ← (do
    dccSpawnChild argv0
    dccCollectChild env).attempt
  Prog.modify fun w => { w with files := env.compiled w }
  match compileRet with
  | .ok status => pure status
  -- `W_EXITCODE(compile_ret, 0)`
  | .error e => pure (e.val * 256)

/-! ### The answer -/

/-- `WIFSIGNALED(status) || WEXITSTATUS(status)` -/
def wentWrong (status : ℤ) : Bool :=
  0 < status % 128 ∧ status % 128 < 127 ∨ status / 256 % 256 ≠ 0

/-- What is sent for the object. -/
def fixedObject (env : JobEnv) (job : Job) (files : CString → Option CString) :
    CString → Option CString :=
  match job.cppWhere with
  | .onClient => files
  | .onServer => Function.update files job.tempO ((files job.tempO).map env.fixed)

/-- `dcc_fix_debug_info`, if the server preprocesses. -/
def fixDebugInfo (env : JobEnv) (job : Job) : Io Unit :=
  match job.cppWhere with
  | .onClient => pure ()
  | .onServer => do
    match ← change fun w => { w with files := fixedObject env job w.files } with
    | .error _ => Prog.fail Failure.one
    | .ok () => pure ()

/-- `dcc_cleanup_dotd` -/
def dccCleanupDotd (env : JobEnv) (dotdFname : CString) : Io CString := do
  let w ← Prog.get
  match w.files dotdFname with
  | none => Prog.fail Failure.one
  | some deps => do
    let newDotdFname ← dccMakeTmpnam (dccFindBasename dotdFname) (lit ".d") (env.randomBits 5)
    match ← change fun w =>
      { w with files := Function.update w.files newDotdFname (some (env.cleaned deps)) } with
    | .error _ => Prog.fail Failure.one
    | .ok () => pure newDotdFname

section

variable (lzo : Lzo)

/-- The head of the answer, and what the compiler said. -/
def sendMessages (job : Job) (status : ℤ) : Io Unit := do
  dccXResultHeader job.protover
  dccXCcStatus status
  dccXFile lzo job.errFname (lit "SERR") job.compr
  dccXFile lzo job.outFname (lit "SOUT") job.compr

/-- The dependencies, if the server preprocesses. -/
def sendDeps (env : JobEnv) (job : Job) : Io Unit :=
  match job.cppWhere with
  | .onClient => pure ()
  | .onServer => do
    let cleanedDotd ← dccCleanupDotd env job.depsFname
    dccXFile lzo cleanedDotd (lit "DOTD") job.compr

/-- The object, and the dependencies. -/
def sendObject (env : JobEnv) (job : Job) : Io Unit := do
  fixDebugInfo env job
  dccXFile lzo job.tempO (lit "DOTO") job.compr
  sendDeps lzo env job

/-- `dcc_run_job`, from where there is a status. -/
def sendAnswer (env : JobEnv) (job : Job) (status : ℤ) : Io Unit := do
  match ← (sendMessages lzo job status).attempt with
  | .error ret => do
    let _ ← (dccXTokenInt (lit "DOTO") 0).attempt
    Prog.fail ret
  | .ok () =>
    if wentWrong status then do
      let _ ← (dccXTokenInt (lit "DOTO") 0).attempt
      pure ()
    else sendObject lzo env job

/-- The compiler is run, if it may be. -/
def compileJob (env : JobEnv) (job : Job) : Io (Option ℤ) := do
  match ← dccRemapCompiler env (job.argv.headD []) with
  | none => pure none
  | some compiler => do
    dccCheckCompilerMasq compiler
    let status ← runCompiler env compiler
    pure (some status)

/-- `dcc_run_job` -/
def dccRunJob (env : JobEnv) : Io Unit := do
  match ← receiveJob lzo env with
  | none => pure ()
  | some job => do
    match ← compileJob env job with
    | none => pure ()
    | some status => sendAnswer lzo env job status

end

end Distcc
