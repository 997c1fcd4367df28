import Distcc.Serve.Job

/-!
# What the parts of a job leave alone

Reading a job and running the compiler writes nothing to the connection. Reading it and
sending the answer does not touch what the process keeps from job to job. Both hold of
every run, failed or not.

They are proved for any relation between worlds that is blind to the file system
(`Blind`): of reading (`receiveJob_keeps`), of running the compiler
(`compileJob_keeps`), and of the answer (`sendAnswer_keeps`).
-/

namespace Distcc

open CString Prog

/-- **A blind bystander** does not notice the calls that change the file system. -/
structure Blind (R : World → World → Prop) : Prop extends Bystander R where
  files : ∀ (w : World) (files : CString → Option CString), R w { w with files := files }
  created : ∀ (w : World) (name : CString), R w (w.created name)
  removed : ∀ (w : World) (name : CString), R w (w.removed name)
  madeDir : ∀ (w : World) (path : CString), R w (w.madeDir path)
  removedDir : ∀ (w : World) (path : CString), R w (w.removedDir path)
  linked : ∀ (w : World) (target name : CString), R w (w.linked target name)
  cwd : ∀ (w : World) (cwd : CString), R w { w with cwd := cwd }

section Keeping

variable {R : World → World → Prop} [IsPreorder World R] (hR : Blind R) (env : JobEnv)
  (name letters : CString)

include hR

/-! ### Reading a job -/

theorem Blind.dccMkTmpdir (path : CString) : (dccMkTmpdir path).Keeps R :=
  dccMkTmpdir_keeps hR.same (fun w => hR.madeDir w path) fun w => hR.removedDir w path

theorem Blind.dccMkTmpAncestorDirs (path : CString) : (dccMkTmpAncestorDirs path).Keeps R :=
  dccMkTmpAncestorDirs_keeps hR.same fun p _ => hR.dccMkTmpdir p

theorem Blind.unlink : (unlink name).Keeps R := change_keeps hR.same fun w => hR.removed w name

theorem openNew_keeps : (openNew name).Keeps R := by
  refine keeps_get.bind fun w => ?_
  split
  · exact keeps_pure _
  · exact change_keeps hR.same fun w => hR.created w name

theorem makeTmpnamTurn_keeps (tempdir pre suffix : CString) (randomBits : ℕ) :
    (makeTmpnamTurn tempdir pre suffix randomBits).Keeps R := by
  refine hR.alloc_then ?_ _
  refine (openNew_keeps hR _).bind_result (fun _ => keeps_pure _) fun _ => ?_
  exact hR.syscall.bind_result (fun _ => keeps_fail _) fun _ => keeps_pure _

theorem dccMakeTmpnam_keeps (pre suffix : CString) (randomBits : ℕ) :
    (dccMakeTmpnam pre suffix randomBits).Keeps R := by
  refine keeps_get.bind fun w => ?_
  refine hR.syscall.bind_result (fun _ => keeps_fail _) fun _ => ?_
  refine (keeps_loopFor (makeTmpnamTurn_keeps hR _ pre suffix) randomBits).bind fun s => ?_
  exact (addCleanupOr_keeps hR.same (hR.unlink s)).bind fun _ => keeps_pure _

theorem dccGetNewTmpdir_keeps : (dccGetNewTmpdir letters).Keeps R := by
  refine keeps_get.bind fun w => ?_
  refine hR.alloc_then ?_ _
  refine (mkdir_keeps hR.same fun w => hR.madeDir w _).bind_result
    (fun _ => keeps_fail _) fun _ => ?_
  refine (addCleanupOr_keeps hR.same ?_).bind fun _ => keeps_pure _
  exact change_keeps hR.same fun w => hR.removedDir w _

theorem makeOutputNames_keeps : (makeOutputNames env).Keeps R := by
  refine (dccMakeTmpnam_keeps hR _ _ _).bind fun depsFname => ?_
  refine (dccMakeTmpnam_keeps hR _ _ _).bind fun errFname => ?_
  refine (dccMakeTmpnam_keeps hR _ _ _).bind fun outFname => ?_
  refine (hR.unlink depsFname).bind fun _ => ?_
  refine (hR.unlink errFname).bind fun _ => ?_
  refine (hR.unlink outFname).bind fun _ => ?_
  exact (change_keeps hR.same fun w => hR.created w errFname).bind fun _ => keeps_pure _

theorem makeTempDirAndChdirForCpp_keeps : (makeTempDirAndChdirForCpp letters).Keeps R := by
  refine (dccGetNewTmpdir_keeps hR letters).bind fun tempDir => ?_
  refine (dccRTokenString_keeps hR.toBystander _).bind fun cwd => ?_
  refine hR.alloc_then ?_ _
  refine (hR.dccMkTmpAncestorDirs _).bind fun _ => ?_
  refine (hR.dccMkTmpdir _).bind fun _ => ?_
  exact (change_keeps hR.same fun w => hR.cwd w _).bind_result
    (fun _ => keeps_fail _) fun _ => keeps_pure _

theorem enterTempDir_keeps (cppWhere : CppWhere) : (enterTempDir letters cppWhere).Keeps R := by
  cases cppWhere with
  | onClient => exact keeps_pure _
  | onServer => exact makeTempDirAndChdirForCpp_keeps hR letters

omit hR in
theorem scanArgs_keeps (argv : List CString) : (scanArgs argv).Keeps R := by
  unfold scanArgs
  split
  · exact keeps_pure _
  · exact keeps_fail _
  · exact keeps_never
  · exact keeps_never

theorem dccRManyFiles_keeps (lzo : Lzo) (dirname : CString) (compr : Compress) :
    (dccRManyFiles lzo dirname compr).Keeps R := by
  have hturn : (rManyFilesTurn lzo dirname compr).Keeps R := by
    refine (dccRTokenString_keeps hR.toBystander _).bind fun name => ?_
    refine (prependDirToName_keeps hR.toBystander dirname name).bind fun name => ?_
    refine (dccRSometokenInt_keeps hR.toBystander).bind fun head => ?_
    exact receiveEntry_keeps hR.toBystander (hR.removed · name) (hR.dccMkTmpAncestorDirs name)
      (hR.created · name) (hR.linked · · name) lzo dirname compr head.1 head.2
  refine (dccRTokenInt_keeps hR.toBystander _).bind fun nFiles => ?_
  exact (hturn.times nFiles).bind fun _ => keeps_pure _

theorem tweakArgumentsForServer_keeps (rootDir depsFname : CString) (argv : List CString) :
    (tweakArgumentsForServer rootDir depsFname argv).Keeps R := by
  refine (alloc_keeps.mono hR.same).bind fun room => ?_
  cases room with
  | false => exact keeps_pure _
  | true =>
    rw [if_pos rfl]
    split
    · exact keeps_pure _
    · exact keeps_pure _

theorem receivePayload_keeps (lzo : Lzo) (env : JobEnv) (tempDir tempO depsFname : CString)
    (compr : Compress) (scanned : Scanned) (cppWhere : CppWhere) :
    (receivePayload lzo env tempDir tempO depsFname compr scanned cppWhere).Keeps R := by
  cases cppWhere with
  | onServer =>
    refine (dccRManyFiles_keeps hR lzo tempDir compr).attempt.bind fun ret => ?_
    rcases ret with _ | _
    · exact keeps_pure _
    dsimp only
    split
    · exact keeps_pure _
    · exact tweakArgumentsForServer_keeps hR tempDir depsFname _
  | onClient =>
    refine Prog.Keeps.bind ?_ fun _ => keeps_pure _
    refine (dccMakeTmpnam_keeps hR _ _ _).bind fun tempI => ?_
    refine (dccRTokenFile_keeps hR.toBystander (hR.removed · tempI)
      (hR.dccMkTmpAncestorDirs tempI) (hR.created · tempI) lzo _ compr).bind fun _ => ?_
    split
    · exact keeps_fail _
    · exact keeps_pure _

/-- **Reading a job** is nothing to a blind bystander. -/
theorem receiveJob_keeps (lzo : Lzo) (env : JobEnv) : (receiveJob lzo env).Keeps R := by
  refine (makeOutputNames_keeps hR env).bind fun names => ?_
  refine (dccRRequestHeader_keeps hR.toBystander).bind fun protover => ?_
  refine (enterTempDir_keeps hR _ _).bind fun tempDir => ?_
  refine (dccRArgv_keeps hR.toBystander _ _).bind fun argv => ?_
  refine (scanArgs_keeps argv).bind fun scanned => ?_
  refine hR.alloc_then ?_ _
  refine (dccMakeTmpnam_keeps hR _ _ _).bind fun tempO => ?_
  refine (receivePayload_keeps hR lzo env _ _ _ _ _ _).bind fun argv => ?_
  cases argv with
  | none => exact keeps_pure _
  | some argv => exact keeps_pure _

/-! ### Before the answer -/

theorem checkMasqLoop_keeps (dirs : List CString) : (checkMasqLoop name dirs).Keeps R := by
  induction dirs with
  | nil => exact keeps_pure _
  | cons dir dirs ih =>
    refine hR.alloc_then ?_ _
    refine (syscall_keeps.mono hR.same).bind fun res => ?_
    rcases res with _ | _
    · exact ih
    refine keeps_get.bind fun w => ?_
    split
    · exact keeps_pure _
    · refine (syscall_keeps.mono hR.same).bind fun res => ?_
      rcases res with _ | _
      · exact ih
      · exact keeps_pure _

theorem dccCheckCompilerMasq_keeps : (dccCheckCompilerMasq name).Keeps R := by
  refine keeps_get.bind fun w => ?_
  split
  · exact keeps_pure _
  · split
    · exact keeps_pure _
    · exact checkMasqLoop_keeps hR name _

theorem checkClient_keeps : checkClient.Keeps R := by
  have hread {f : Except Errno CString → Io Unit} (herror : ∀ e, (f (.error e)).Keeps R)
      (hend : (f (.ok [])).Keeps R) (hbytes : ∀ b s, (f (.ok (b :: s))).Keeps R) :
      (read .connection 1 >>= f).Keeps R := by
    refine (read_keeps hR.toBystander .connection 1).bind fun res => ?_
    rcases res with e | _ | ⟨b, s⟩
    · exact herror e
    · exact hend
    · exact hbytes b s
  refine (nextReply_keeps.mono hR.same).bind fun reply => ?_
  cases reply with
  | full =>
    exact hread (fun _ => keeps_pure _) (keeps_fail _) fun _ _ => keeps_pure _
  | short n =>
    exact hread (fun _ => keeps_pure _) (keeps_fail _) fun _ _ => keeps_pure _
  | zero => exact keeps_pure _
  | error e => exact keeps_pure _

theorem collectTurn_keeps (n : ℕ) : (collectTurn env n).Keeps R := by
  have hagain : (do
      checkClient
      pure (.inl (n + 1)) : Io (ℕ ⊕ ℤ)).Keeps R :=
    (checkClient_keeps hR).bind fun _ => keeps_pure _
  unfold collectTurn
  split
  · exact keeps_fail _
  refine (nextReply_keeps.mono hR.same).bind fun reply => ?_
  cases reply with
  | full => exact keeps_pure _
  | short n => exact keeps_pure _
  | zero => exact hagain
  | error e =>
    cases e with
    | intr => exact hagain
    | again => exact keeps_fail _
    | noent => exact keeps_fail _
    | other => exact keeps_fail _

theorem dccCollectChild_keeps : (dccCollectChild env).Keeps R :=
  keeps_loopFor (collectTurn_keeps hR env) 0

section Running

variable (hproc : ∀ (w : World) (f : Proc → Proc), R w (w.keeping f))

theorem loadCmdlist_keeps (stray filename : CString) (n : ℤ) :
    (loadCmdlist stray filename n).Keeps R := by
  refine hR.syscall.bind_result (fun _ => keeps_pure _) fun _ => ?_
  · exact keeps_get.bind fun _ => keeps_pure _

theorem lookupCompiler_keeps (stray name : CString) : (lookupCompiler stray name).Keeps R := by
  refine keeps_get.bind fun w => ?_
  split
  · exact keeps_pure _
  split
  · exact keeps_pure _
  split
  · exact keeps_pure _
  · refine (alloc_keeps.mono hR.same).bind fun room => ?_
    cases room with
    | true => exact keeps_pure _
    | false => exact keeps_never

include hproc

theorem dccRemapCompiler_keeps (env : JobEnv) (name : CString) :
    (dccRemapCompiler env name).Keeps R := by
  refine keeps_get.bind fun w => ?_
  split
  · exact lookupCompiler_keeps hR _ name
  refine (keeps_modify fun w => hproc w _).bind fun _ => ?_
  split
  · exact lookupCompiler_keeps hR _ name
  refine (loadCmdlist_keeps hR _ _ _).bind fun map => ?_
  cases map with
  | none => exact keeps_pure _
  | some map =>
    exact (keeps_modify fun w => hproc w _).bind fun _ => lookupCompiler_keeps hR _ name

theorem dccSpawnChild_keeps (argv0 : CString) : (dccSpawnChild argv0).Keeps R := by
  refine hR.syscall.bind_result (fun _ => keeps_fail _) fun _ => ?_
  refine hR.syscall.bind_result (fun _ => keeps_pure _) fun _ => ?_
  refine (change_keeps hR.same fun w => hproc w _).bind fun res => ?_
  rcases res with _ | _
  · dsimp only
    split
    · exact keeps_pure _
    · exact (change_keeps hR.same fun w => hproc w _).bind fun _ => keeps_pure _
  · exact keeps_pure _

theorem compileJob_keeps (env : JobEnv) (job : Job) : (compileJob env job).Keeps R := by
  refine (dccRemapCompiler_keeps hR hproc env _).bind fun compiler => ?_
  cases compiler with
  | none => exact keeps_pure _
  | some compiler =>
    refine (dccCheckCompilerMasq_keeps hR compiler).bind fun _ => ?_
    refine Prog.Keeps.bind ?_ fun _ => keeps_pure _
    have hrun : (do
        dccSpawnChild compiler
        dccCollectChild env : Io ℤ).Keeps R :=
      (dccSpawnChild_keeps hR hproc compiler).bind fun _ => dccCollectChild_keeps hR env
    refine hrun.attempt.bind fun ret => ?_
    refine (keeps_modify fun w => hR.files w _).bind fun _ => ?_
    rcases ret with _ | _
    · exact keeps_pure _
    · exact keeps_pure _

end Running

/-! ### The answer -/

variable (hsent : ∀ (w : World) (bs : CString), R w (w.put bs .connection))

theorem fixDebugInfo_keeps (job : Job) : (fixDebugInfo env job).Keeps R := by
  unfold fixDebugInfo
  split
  · exact keeps_pure _
  · exact (change_keeps hR.same fun w => hR.files w _).bind_result
      (fun _ => keeps_fail _) fun _ => keeps_pure _

theorem dccCleanupDotd_keeps (dotdFname : CString) : (dccCleanupDotd env dotdFname).Keeps R := by
  refine keeps_get.bind fun w => ?_
  split
  · exact keeps_fail _
  · refine (dccMakeTmpnam_keeps hR _ _ _).bind fun name => ?_
    exact (change_keeps hR.same fun w => hR.files w _).bind_result
      (fun _ => keeps_fail _) fun _ => keeps_pure _

include hsent

theorem sendMessages_keeps (lzo : Lzo) (job : Job) (status : ℤ) :
    (sendMessages lzo job status).Keeps R := by
  refine (dccXTokenInt_keeps hR.toBystander hsent _ _).bind fun _ => ?_
  refine (dccXTokenInt_keeps hR.toBystander hsent _ _).bind fun _ => ?_
  refine (dccXFile_keeps hR.toBystander hsent lzo _ _ _).bind fun _ => ?_
  exact dccXFile_keeps hR.toBystander hsent lzo _ _ _

theorem sendDeps_keeps (lzo : Lzo) (env : JobEnv) (job : Job) : (sendDeps lzo env job).Keeps R := by
  unfold sendDeps
  split
  · exact keeps_pure _
  · refine (dccCleanupDotd_keeps hR env _).bind fun name => ?_
    exact dccXFile_keeps hR.toBystander hsent lzo name _ _

/-- **Sending the answer** is nothing to a blind bystander who does not look at what is
sent. -/
theorem sendAnswer_keeps (lzo : Lzo) (env : JobEnv) (job : Job) (status : ℤ) :
    (sendAnswer lzo env job status).Keeps R := by
  have hnone := (dccXTokenInt_keeps hR.toBystander hsent (lit "DOTO") 0).attempt
  refine (sendMessages_keeps hR hsent lzo job status).attempt.bind fun ret => ?_
  rcases ret with e | _
  · exact hnone.bind fun _ => keeps_fail e
  · dsimp only
    split
    · exact hnone.bind fun _ => keeps_pure _
    · refine (fixDebugInfo_keeps hR env job).bind fun _ => ?_
      refine (dccXFile_keeps hR.toBystander hsent lzo _ _ _).bind fun _ => ?_
      exact sendDeps_keeps hR hsent lzo env job

end Keeping

/-! ### Two that are blind -/

/-- Nothing was written to the connection. -/
def World.Hushed (w w' : World) : Prop := w'.sent = w.sent

/-- What the process keeps is what it kept. -/
def World.Forgets (w w' : World) : Prop := w'.proc = w.proc

instance : IsPreorder World World.Hushed where
  refl _ := rfl
  trans _ _ _ h h' := h'.trans h

instance : IsPreorder World World.Forgets where
  refl _ := rfl
  trans _ _ _ h h' := h'.trans h

/-- What neither the calls that change the file system nor a read touch. -/
structure World.Untold (w w' : World) : Prop where
  sent : w'.sent = w.sent
  proc : w'.proc = w.proc
  neverSendEmail : w'.neverSendEmail = w.neverSendEmail
  benign : w.Benign → w'.Benign

/-- Who looks at nothing else is blind. -/
theorem Blind.of_untold {R : World → World → Prop} (h : ∀ ⦃w w' : World⦄, w.Untold w' → R w w') :
    Blind R where
  same _ _ hsame := h ⟨by rw [hsame.eq], by rw [hsame.eq], by rw [hsame.eq], hsame.benign⟩
  drop _ n src := by cases src <;> exact h ⟨rfl, rfl, rfl, fun hw => hw.drop _ n⟩
  put _ bs name := h ⟨rfl, rfl, rfl, fun hw => hw.put (.file name) bs⟩
  reading _ _ := h ⟨rfl, rfl, rfl, id⟩
  log _ _ := h ⟨rfl, rfl, rfl, id⟩
  files _ _ := h ⟨rfl, rfl, rfl, id⟩
  created _ _ := h ⟨rfl, rfl, rfl, id⟩
  removed _ _ := h ⟨rfl, rfl, rfl, id⟩
  madeDir _ _ := h ⟨rfl, rfl, rfl, id⟩
  removedDir _ _ := h ⟨rfl, rfl, rfl, id⟩
  linked _ _ _ := h ⟨rfl, rfl, rfl, id⟩
  cwd _ _ := h ⟨rfl, rfl, rfl, id⟩

theorem blind_hushed : Blind World.Hushed := .of_untold fun _ _ h => h.sent

theorem blind_forgets : Blind World.Forgets := .of_untold fun _ _ h => h.proc

end Distcc
