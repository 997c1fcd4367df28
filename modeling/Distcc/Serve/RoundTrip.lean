import Distcc.Request.RoundTrip
import Distcc.Response
import Distcc.Serve.Answer

/-!
# The response, from end to end

The server answers with `sendAnswer` (`src/serve.c`), and the client reads the
answer with `dccRetrieveResults` (`src/clirpc.c`). Each of them decides for itself,
from the status of the compiler and the version of the protocol, which packets there are.

When nothing fails, the answer is that of the files as far as they are sent
(`sendAnswer_sent`), and the client reads it to its end
(`dccRetrieveResults_reads`). What arrives is what the server had, unless a file
that was compressed has 2^32 bytes or more: its size is passed on in 32 bits, and the rest
of it is not sent (`response_roundTrips_iff`).
-/

namespace Distcc

open CString List Prog

/-! ### What there is to answer -/

/-- **How a process ended**, as `waitpid` tells: with an exit code, or by a signal and
perhaps with a dump of its memory. -/
def IsWaitStatus (status : ℤ) : Prop :=
  (∃ code, 0 ≤ code ∧ code < 256 ∧ status = 256 * code) ∨
    ∃ signal, 0 < signal ∧ signal < 127 ∧ (status = signal ∨ status = 128 + signal)

theorem IsWaitStatus.lt {status : ℤ} (h : IsWaitStatus status) : 0 ≤ status ∧ status < 2 ^ 32 := by
  rcases h with ⟨code, hge, hlt, rfl⟩ | ⟨signal, hge, hlt, rfl | rfl⟩ <;> omega

/-- Both ends agree on what a failure is. -/
theorem IsWaitStatus.wentWrong_iff {status : ℤ} (h : IsWaitStatus status) :
    wentWrong status = true ↔ status ≠ 0 := by
  rw [wentWrong, decide_eq_true_eq]
  rcases h with ⟨code, hge, hlt, rfl⟩ | ⟨signal, hge, hlt, rfl | rfl⟩ <;> omega

namespace Contents

/-- The contents, as far as they are sent. -/
def cut (compr : Compress) (c : Contents) : Contents where
  serr := sentText compr c.serr
  sout := sentText compr c.sout
  obj := c.obj.map (sentText compr)
  deps := c.deps.map (sentText compr)

/-- What the client writes to files. -/
def arrivals (outputFname : CString) (depsFname : Option CString) (serverStderrFname : CString)
    (c : Contents) : List Effect :=
  .file serverStderrFname c.serr :: ((c.obj.map (Effect.file outputFname)).toList ++
    (depsFname.bind fun fname => c.deps.map (Effect.file fname)).toList)

end Contents

/-! ### The server -/

section Server

variable {lzo : Lzo} {env : JobEnv} {job : Job} {status : ℤ} {w w' : World} {deps : Option CString}

/-- If nothing was to fail, nothing will. -/
def World.StaysBenign (w w' : World) : Prop := w.Benign → w'.Benign

instance : IsPreorder World World.StaysBenign where
  refl _ := id
  trans _ _ _ h h' := h' ∘ h

theorem blind_staysBenign : Blind World.StaysBenign := .of_untold fun _ _ h => h.benign

/-- A file is sent, when nothing fails. -/
theorem dccXFile_gives {fname token content : CString} {compr : Compress}
    (h : dccXFile lzo fname token compr w = some (.ok (), w')) (hw : w.Benign)
    (h4 : token.length = 4) (hfile : w.files fname = some content) :
    w.Step (.gives (fileFrame lzo token compr content)) w' := by
  obtain ⟨w₁, hrun, hstep⟩ := dccXFile_sends lzo compr hfile h4 hw
  obtain ⟨-, rfl⟩ := ok_unique h hrun
  exact hstep

theorem sendDeps_sent (h : sendDeps lzo env job w = some (.ok (), w'))
    (hw : w.Benign) (hdeps : deps = if job.cppWhere = .onClient then none
      else (w.files job.depsFname).map env.cleaned) :
    w'.sent = w.sent ++ depsPacket lzo job.compr (deps.map (sentText job.compr)) := by
  unfold sendDeps at h
  split at h
  · case h_1 hclient =>
    obtain ⟨-, rfl⟩ := pure_eq_some_iff.mp h
    rw [hdeps, if_pos hclient]
    exact (append_nil _).symm
  · case h_2 hserver =>
    obtain ⟨name, w₁, hcleanup, hsend⟩ := bind_eq_ok_iff.mp h
    obtain ⟨hsent, content, hfile, hcleaned⟩ := dccCleanupDotd_spec hcleanup
    have hw1 := dccCleanupDotd_keeps blind_staysBenign env job.depsFname hcleanup hw
    have hclient : ¬job.cppWhere = .onClient := by
      rw [hserver]
      exact CppWhere.noConfusion
    rw [hdeps, if_neg hclient, hfile, (dccXFile_gives hsend hw1 rfl hcleaned).sent, hsent]
    rfl

theorem sendObject_sent {obj : CString}
    (h : sendObject lzo env job w = some (.ok (), w')) (hw : w.Benign)
    (hobj : fixedObject env job w.files job.tempO = some obj)
    (hdeps : deps = if job.cppWhere = .onClient then none
      else (fixedObject env job w.files job.depsFname).map env.cleaned) :
    w'.sent = w.sent ++ (fileFrame lzo (lit "DOTO") job.compr obj ++
      depsPacket lzo job.compr (deps.map (sentText job.compr))) := by
  obtain ⟨w₁, w₂, hfix, hsend, hrest⟩ := sendObject_cases h
  obtain ⟨hfiles, hsent⟩ := fixDebugInfo_spec hfix
  have hw1 := fixDebugInfo_keeps blind_staysBenign env job hfix hw
  have hfile : w₁.files job.tempO = some obj := by rw [hfiles, hobj]
  have hstep := dccXFile_gives hsend hw1 rfl hfile
  have hfiles2 : w₂.files = fixedObject env job w.files := (dccXFile_files hsend).trans hfiles
  rw [← hfiles2] at hdeps
  rw [sendDeps_sent hrest (hstep.benign hw1) hdeps, hstep.sent, hsent]
  exact append_assoc _ _ _

/-- **When nothing fails, the server sends its files as far as they are sent.** -/
theorem sendAnswer_sent {c : Contents} (h : sendAnswer lzo env job status w = some (.ok (), w'))
    (hw : w.Benign) (hc : c.Of env job status w.files) :
    w'.sent = w.sent ++ (c.cut job.compr).answer lzo job.compr job.protover status := by
  obtain ⟨w₄, hmessages, hrest⟩ := sendAnswer_cases h
  obtain ⟨w₁, w₂, w₃, hdone, hstat, hserr, hsout, hfiles2, hfiles3, hfiles4⟩ :=
    sendMessages_cases hmessages
  have hstep1 := dccXTokenInt_sent hdone
  have hstep2 := dccXTokenInt_sent hstat
  have hw2 := hstep2.benign (hstep1.benign hw)
  have hstep3 := dccXFile_gives hserr hw2 rfl ((congrFun hfiles2 _).trans hc.serr)
  have hw3 := hstep3.benign hw2
  have hstep4 := dccXFile_gives hsout hw3 rfl ((congrFun hfiles3 _).trans hc.sout)
  have hw4 := hstep4.benign hw3
  -- the object and the dependencies, or that there is no object
  have hend : w'.sent = w₄.sent ++ (packetString (lit "DOTO")
      (((c.cut job.compr).obj.map (fileBody lzo job.compr)).getD []) ++
        depsPacket lzo job.compr (c.cut job.compr).deps) := by
    have hobj := hc.obj
    have hdeps := hc.deps
    split at hrest
    · case isTrue hwrong =>
      obtain ⟨r, hnone⟩ := hrest
      obtain ⟨w₅, hrun, hsame⟩ :=
        dccXTokenInt_sends (rfl : (lit "DOTO").length = 4) 0 hw4
      obtain ⟨-, rfl⟩ := run_unique hnone hrun
      rw [if_pos hwrong] at hobj
      rw [if_pos (Or.inl hwrong)] at hdeps
      rw [(World.step_of_put hsame).sent, Contents.cut, hobj, hdeps]
      rfl
    · case isFalse hright =>
      obtain ⟨obj, hsome⟩ :=
        Option.isSome_iff_exists.mp (hc.obj_isSome (Bool.eq_false_iff.mpr hright))
      rw [if_neg hright, ← hfiles4, hsome] at hobj
      simp only [hright, Bool.false_eq_true, false_or, ← hfiles4] at hdeps
      rw [sendObject_sent hrest hw4 hobj.symm hdeps, Contents.cut, hsome]
      rfl
  rw [hend, hstep4.sent, hstep3.sent, hstep2.sent, hstep1.sent]
  simp only [Contents.answer, Contents.packets, Contents.cut, fileFrame, Delta.gives, depsPacket,
    append_assoc]

/-- A server that does not preprocess gets to the end of its answer. -/
theorem sendAnswer_returns {c : Contents} (hclient : job.cppWhere = .onClient) (hw : w.Benign)
    (hc : c.Of env job status w.files) :
    ∃ w', sendAnswer lzo env job status w = some (.ok (), w') := by
  obtain ⟨w₁, hdone, hsame1⟩ := dccXTokenInt_sends (rfl : (lit "DONE").length = 4) job.protover hw
  have hstep1 := World.step_of_put hsame1
  have hw1 := hstep1.benign hw
  obtain ⟨w₂, hstat, hsame2⟩ :=
    dccXTokenInt_sends (rfl : (lit "STAT").length = 4) (status % 2 ^ 32).toNat hw1
  have hstep2 := World.step_of_put hsame2
  have hw2 := hstep2.benign hw1
  have hfiles2 : w₂.files = w.files := (hstep2.files rfl).trans (hstep1.files rfl)
  obtain ⟨w₃, hserr, hstep3⟩ := dccXFile_sends lzo job.compr ((congrFun hfiles2 _).trans hc.serr)
    (rfl : (lit "SERR").length = 4) hw2
  have hw3 := hstep3.benign hw2
  have hfiles3 : w₃.files = w.files := (hstep3.files rfl).trans hfiles2
  obtain ⟨w₄, hsout, hstep4⟩ := dccXFile_sends lzo job.compr ((congrFun hfiles3 _).trans hc.sout)
    (rfl : (lit "SOUT").length = 4) hw3
  have hw4 := hstep4.benign hw3
  have hfiles4 : w₄.files = w.files := (hstep4.files rfl).trans hfiles3
  have hmessages : sendMessages lzo job status w = some (.ok (), w₄) := by
    rw [sendMessages, dccXResultHeader, dccXCcStatus, bind_of_ok hdone,
      bind_of_ok hstat, bind_of_ok hserr]
    exact hsout
  rw [sendAnswer, bind_of_ok (attempt_eq_ok_iff.mpr hmessages)]
  dsimp only
  split
  · obtain ⟨w₅, hnone, -⟩ := dccXTokenInt_sends (rfl : (lit "DOTO").length = 4) 0 hw4
    exact ⟨w₅, (bind_of_ok (attempt_eq_ok_iff.mpr hnone)).trans rfl⟩
  · case isFalse hright =>
    obtain ⟨obj, hsome⟩ :=
      Option.isSome_iff_exists.mp (hc.obj_isSome (Bool.eq_false_iff.mpr hright))
    have hobj := hc.obj
    rw [if_neg hright, fixedObject, hclient, hsome] at hobj
    obtain ⟨w₅, hsend, -⟩ := dccXFile_sends lzo job.compr
      ((congrFun hfiles4 _).trans hobj.symm) (rfl : (lit "DOTO").length = 4) hw4
    refine ⟨w₅, ?_⟩
    rw [sendObject, fixDebugInfo, sendDeps, hclient]
    exact (bind_of_ok rfl).trans ((bind_of_ok hsend).trans rfl)

end Server

/-! ### The client -/

section Client

variable {lzo : Lzo} {host : Hostdef} {w : World} {text rest serverStderrFname : CString}

/-- The calls of the client for the log succeed, once the errors of the compiler are
there. -/
def LogSucceeds (lzo : Lzo) (serverStderrFname : CString) (host : Hostdef) (w : World) : Prop :=
  ∀ status w₁, retrieveStderr lzo serverStderrFname host w = some (.ok status, w₁) →
    ∃ w₂, dccAddFileToLogEmail (lit "server-side stderr") serverStderrFname w₁ = some (.ok (), w₂)

/-- The setting for the log stays as it is. -/
def World.SameLog (w w' : World) : Prop := w'.neverSendEmail = w.neverSendEmail

instance : IsPreorder World World.SameLog where
  refl _ := rfl
  trans _ _ _ h h' := h'.trans h

theorem blind_sameLog : Blind World.SameLog := .of_untold fun _ _ h => h.neverSendEmail

/-- Without a log there is nothing to fail. -/
theorem logSucceeds_of_never (h : w.neverSendEmail = true) :
    LogSucceeds lzo serverStderrFname host w := by
  intro status w₁ hrun
  have hkeeps : (retrieveStderr lzo serverStderrFname host).Keeps World.SameLog := by
    have htoken (token : CString) : (dccRTokenInt token).Keeps World.SameLog :=
      dccRTokenInt_keeps blind_sameLog.toBystander token
    refine Prog.Keeps.bind ((htoken _).bind fun _ => keeps_pure _) fun _ => ?_
    refine (htoken _).bind fun _ => (htoken _).bind fun len => ?_
    refine Prog.Keeps.bind ?_ fun _ => keeps_pure _
    exact dccRFile_keeps blind_sameLog.toBystander (blind_sameLog.removed · _)
      (blind_sameLog.dccMkTmpAncestorDirs serverStderrFname) (blind_sameLog.created · _) lzo len
      host.compr
  have hnever : w₁.neverSendEmail = true := (hkeeps hrun).trans h
  refine ⟨w₁, ?_⟩
  rw [dccAddFileToLogEmail, get_bind, if_pos hnever]
  rfl

/-- A text that was sent is shown. -/
theorem dccRBulk_shows {compr : Compress}
    (hlen : (fileBody lzo compr text).length < 2 ^ 29) (hw : w.Benign)
    (hin : w.incoming = fileBody lzo compr text ++ rest) :
    ∃ w', dccRBulk lzo .stdout (fileBody lzo compr text).length compr w = some (.ok (), w') ∧
      w.Step (.takes (fileBody lzo compr text) + .shows text) w' ∧ w'.incoming = rest := by
  obtain ⟨w', hrun⟩ := dccRBulk_reads .stdout (packed_fileBody text) hlen hw hin
  obtain ⟨d, hstep, body, text', hbody, htext, rfl⟩ := Format.follows_dccRBulk _ _ _ hrun
  have htook : body ++ w'.incoming = fileBody lzo compr text ++ rest := by
    have hboth := hstep.incoming.symm.trans hin
    rwa [Delta.add_took, append_assoc] at hboth
  obtain ⟨rfl, hrest⟩ := append_inj htook hbody
  obtain rfl := htext.eq (packed_fileBody text)
  exact ⟨w', hrun, hstep, hrest⟩

/-- The head of a packet and a text that goes to a file are received. -/
theorem dccRFile_of_packet {token : CString} (fname : CString) (h4 : token.length = 4)
    (hlen : (fileBody lzo host.compr text).length < 2 ^ 29) (hw : w.Benign)
    (hin : w.incoming = packetString token (fileBody lzo host.compr text) ++ rest) :
    ∃ len w₁ w' bs, dccRTokenInt token w = some (.ok len, w₁) ∧
      dccRFile lzo fname len host.compr w₁ = some (.ok (), w') ∧
      w.Step (.takes bs + .makes (.file fname text)) w' ∧ w'.incoming = rest := by
  rw [packetString, append_assoc] at hin
  obtain ⟨w₁, hhead, hstep⟩ := dccRTokenInt_reads h4 (by omega) hw hin
  have hin1 := hstep.incoming_eq hin
  obtain ⟨w', hrun, hstep'⟩ := dccRFile_reads fname (packed_fileBody text) hlen (hstep.benign hw)
    hin1
  have hboth := hstep.trans hstep'
  rw [← add_assoc, Delta.takes_add] at hboth
  refine ⟨_, w₁, w', _, hhead, hrun, hboth, hstep'.incoming_eq ?_⟩
  rw [Delta.add_took, append_assoc]
  exact hin1

/-- The version, the status and the errors of the compiler are received. -/
theorem retrieveStderr_reads {status : ℤ} {protover : ℕ} (serverStderrFname : CString)
    (hver : protover < 2 ^ 32) (hlen : (fileBody lzo host.compr text).length < 2 ^ 29)
    (hw : w.Benign)
    (hin : w.incoming = packetHead (lit "DONE") protover ++
      (packetHead (lit "STAT") (status % 2 ^ 32).toNat ++
        (packetString (lit "SERR") (fileBody lzo host.compr text) ++ rest))) :
    ∃ w' bs, retrieveStderr lzo serverStderrFname host w =
        some (.ok (status % 2 ^ 32).toNat, w') ∧
      w.Step (.takes bs + .makes (.file serverStderrFname text)) w' ∧ w'.incoming = rest := by
  obtain ⟨w₁, hdone, hstep1⟩ := dccRTokenInt_reads rfl hver hw hin
  have hin1 := hstep1.incoming_eq hin
  have hw1 := hstep1.benign hw
  obtain ⟨w₂, hstat, hstep2⟩ := dccRTokenInt_reads rfl (by omega) hw1 hin1
  obtain ⟨len, w₃, w', bs, hserr, hfile, hstep3, hrest⟩ :=
    dccRFile_of_packet serverStderrFname (rfl : (lit "SERR").length = 4) hlen (hstep2.benign hw1)
      (hstep2.incoming_eq hin1)
  have hall := (hstep1.trans hstep2).trans hstep3
  rw [Delta.takes_add, ← add_assoc, Delta.takes_add] at hall
  refine ⟨w', _, ?_, hall, hrest⟩
  rw [retrieveStderr, dccRResultHeader, dccRCcStatus,
    bind_of_ok ((bind_of_ok hdone).trans rfl), bind_of_ok hstat,
    bind_of_ok hserr, bind_of_ok hfile]
  rfl

/-- The output of the compiler and the object are received, the object if the compiler
succeeded. -/
theorem retrieveOutput_reads {status : ℕ} {obj : Option CString} (outputFname : CString)
    (hobj : obj.isSome ↔ status = 0) (hlen : (fileBody lzo host.compr text).length < 2 ^ 29)
    (hobjLen : ∀ o ∈ obj, (fileBody lzo host.compr o).length < 2 ^ 29) (hw : w.Benign)
    (hin : w.incoming = packetString (lit "SOUT") (fileBody lzo host.compr text) ++
      (packetString (lit "DOTO") ((obj.map (fileBody lzo host.compr)).getD []) ++ rest)) :
    ∃ w' d, retrieveOutput lzo outputFname host status w = some (.ok (), w') ∧ w.Step d w' ∧
      w'.incoming = rest ∧ d.showed = text ∧
      d.made = (obj.map (Effect.file outputFname)).toList := by
  rw [packetString, append_assoc] at hin
  obtain ⟨w₁, hhead, hstep1⟩ := dccRTokenInt_reads rfl (by omega) hw hin
  have hw1 := hstep1.benign hw
  obtain ⟨w₂, hbulk, hstep2, hin2⟩ := dccRBulk_shows hlen hw1 (hstep1.incoming_eq hin)
  have hw2 := hstep2.benign hw1
  have hstep12 := hstep1.trans hstep2
  cases obj with
  | none =>
    have hstatus : status ≠ 0 := fun h => Bool.noConfusion (hobj.mpr h)
    replace hin2 : w₂.incoming = packetHead (lit "DOTO") 0 ++ rest :=
      hin2.trans (congrArg (· ++ rest) (append_nil _))
    obtain ⟨w₃, hdoto, hstep3⟩ := dccRTokenInt_reads rfl (by decide) hw2 hin2
    refine ⟨w₃, _, ?_, hstep12.trans hstep3, hstep3.incoming_eq hin2, append_nil _, rfl⟩
    rw [retrieveOutput, bind_of_ok hhead, bind_of_ok hbulk, bind_of_ok hdoto,
      retrieveObject, if_neg hstatus]
    rfl
  | some o =>
    obtain ⟨len, w₃, w', bs, hdoto, hfile, hstep3, hrest⟩ :=
      dccRFile_of_packet outputFname (rfl : (lit "DOTO").length = 4) (hobjLen o rfl) hw2 hin2
    refine ⟨w', _, ?_, hstep12.trans hstep3, hrest, append_nil _, rfl⟩
    rw [retrieveOutput, bind_of_ok hhead, bind_of_ok hbulk, bind_of_ok hdoto,
      retrieveObject, if_pos (hobj.mp rfl)]
    exact hfile

/-- The dependencies are received, if there are any and they are asked for. -/
theorem retrieveDeps_reads {status : ℕ} {deps : Option CString} (depsFname : Option CString)
    (hdeps : deps.isSome ↔ status = 0 ∧ host.cppWhere = .onServer)
    (hlen : ∀ text ∈ deps, (fileBody lzo host.compr text).length < 2 ^ 29) (hw : w.Benign)
    (hin : w.incoming = depsPacket lzo host.compr deps) :
    ∃ w' d, retrieveDeps lzo depsFname host status w = some (.ok (), w') ∧ w.Step d w' ∧
      d.showed = [] ∧
      d.made = (depsFname.bind fun fname => deps.map (Effect.file fname)).toList := by
  cases deps with
  | none =>
    have hnot : ¬(status = 0 ∧ host.cppWhere = .onServer) := fun h => Bool.noConfusion (hdeps.mpr h)
    refine ⟨w, 0, ?_, .refl w, rfl, ?_⟩
    · rw [retrieveDeps, if_neg hnot]
      rfl
    · cases depsFname <;> rfl
  | some text =>
    replace hin : w.incoming = packetString (lit "DOTD") (fileBody lzo host.compr text) ++ [] :=
      hin.trans (append_nil _).symm
    rw [retrieveDeps, if_pos (hdeps.mp rfl)]
    cases depsFname with
    | none =>
      rw [packetString, append_assoc] at hin
      have hsmall := hlen text rfl
      obtain ⟨w₁, hhead, hstep⟩ := dccRTokenInt_reads rfl (by omega) hw hin
      refine ⟨w₁, _, ?_, hstep, rfl, rfl⟩
      rw [bind_of_ok (attempt_eq_ok_iff.mpr hhead)]
      rfl
    | some fname =>
      obtain ⟨len, w₁, w', bs, hhead, hfile, hstep, -⟩ :=
        dccRFile_of_packet fname (rfl : (lit "DOTD").length = 4) (hlen text rfl) hw hin
      refine ⟨w', _, ?_, hstep, rfl, rfl⟩
      rw [bind_of_ok (attempt_eq_ok_iff.mpr hhead)]
      exact hfile

/-- The contents are those of an answer with this status. -/
@[mk_iff]
structure Contents.Suits (c : Contents) (status : ℤ) (cppWhere : CppWhere) : Prop where
  obj : c.obj.isSome ↔ status = 0
  deps : c.deps.isSome ↔ status = 0 ∧ cppWhere = .onServer

/-- **When nothing fails, the client receives what was sent.** -/
theorem dccRetrieveResults_reads {c : Contents} {status : ℤ} {protover : ℕ}
    (outputFname : CString) (depsFname : Option CString) (serverStderrFname : CString)
    (hver : protover < 2 ^ 32) (hstatus : IsWaitStatus status)
    (hc : c.Suits status host.cppWhere)
    (hlen : ∀ text ∈ c.all, (fileBody lzo host.compr text).length < 2 ^ 29) (hw : w.Benign)
    (hlog : LogSucceeds lzo serverStderrFname host w)
    (hin : w.incoming = c.answer lzo host.compr protover status) :
    ∃ n w' d, dccRetrieveResults lzo outputFname depsFname serverStderrFname host w =
        some (.ok n, w') ∧ (n : ℤ) = status ∧ w.Step d w' ∧ d.showed = c.sout ∧
      d.made = c.arrivals outputFname depsFname serverStderrFname := by
  have hmod : ((status % 2 ^ 32).toNat : ℤ) = status := by
    have hlt := hstatus.lt
    omega
  have hzero : (status % 2 ^ 32).toNat = 0 ↔ status = 0 := by
    rw [← Int.natCast_inj, hmod]
    rfl
  have hobj : c.obj.isSome ↔ (status % 2 ^ 32).toNat = 0 := hc.obj.trans hzero.symm
  have hdeps : c.deps.isSome ↔ (status % 2 ^ 32).toNat = 0 ∧ host.cppWhere = .onServer := by
    rw [hzero]
    exact hc.deps
  have hserrLen := hlen c.serr (by simp [Contents.all])
  have hsoutLen := hlen c.sout (by simp [Contents.all])
  obtain ⟨w₁, bs, hstderr, hstep1, hin1⟩ :=
    retrieveStderr_reads serverStderrFname hver hserrLen hw hin
  obtain ⟨w₂, hemail⟩ := hlog _ _ hstderr
  have hsilent := dccAddFileToLogEmail_silent _ _ hemail
  have hw2 := World.Step.benign hsilent (hstep1.benign hw)
  have hin2 : w₂.incoming = w₁.incoming := hsilent.incoming.symm
  obtain ⟨w₃, d₃, houtput, hstep3, hin3, hshow3, hmade3⟩ :=
    retrieveOutput_reads outputFname hobj hsoutLen
      (fun o ho => hlen o (by simp [Contents.all, Option.mem_def.mp ho])) hw2 (hin2.trans hin1)
  obtain ⟨w₄, d₄, hdepsRun, hstep4, hshow4, hmade4⟩ :=
    retrieveDeps_reads depsFname hdeps
      (fun o ho => hlen o (by simp [Contents.all, Option.mem_def.mp ho])) (hstep3.benign hw2) hin3
  refine ⟨_, w₄, _, ?_, hmod, ((hstep1.trans_zero hsilent).trans hstep3).trans hstep4, ?_, ?_⟩
  · rw [dccRetrieveResults, bind_of_ok hstderr,
      bind_of_ok (attempt_eq_ok_iff.mpr hemail)]
    dsimp only
    rw [bind_of_ok houtput, bind_of_ok hdepsRun]
    rfl
  · rw [Delta.add_showed, Delta.add_showed, hshow3, hshow4, append_nil]
    rfl
  · rw [Delta.add_made, Delta.add_made, hmade3, hmade4, append_assoc]
    rfl

end Client

/-! ### Both ends -/

section Ends

variable {lzo : Lzo} {env : JobEnv} {job : Job} {status : ℤ} {server server' : World}
  {outputFname serverStderrFname : CString} {depsFname : Option CString} {host : Hostdef}
  {c : Contents} {cppWhere : CppWhere}

/-- **The client has received it all**: it returns 0 with the status, it has shown the
output and written the errors, the object and the dependencies to their files, and no other
files. -/
def Arrives (lzo : Lzo) (outputFname : CString) (depsFname : Option CString)
    (serverStderrFname : CString) (host : Hostdef) (status : ℤ) (c : Contents)
    (client : World) : Prop :=
  ∃ n client', dccRetrieveResults lzo outputFname depsFname serverStderrFname host client =
      some (.ok n, client') ∧ (n : ℤ) = status ∧ client'.stdout = client.stdout ++ c.sout ∧
    client'.log = client.log ++ c.arrivals outputFname depsFname serverStderrFname

/-- The contents that the client is to have. -/
def Contents.wanted (depsFname : Option CString) (c : Contents) : List CString :=
  c.serr :: c.sout :: (c.obj.toList ++ (depsFname.bind fun _ => c.deps).toList)

theorem Contents.Of.suits (hstatus : IsWaitStatus status)
    (hc : c.Of env job status server.files) : c.Suits status job.cppWhere := by
  have hobj := hc.obj
  have hdeps := hc.deps
  by_cases hzero : status = 0
  · have hright : wentWrong status = false := by
      rw [← Bool.not_eq_true, hstatus.wentWrong_iff]
      exact not_not.mpr hzero
    refine ⟨iff_of_true (hc.obj_isSome hright) hzero, fun hsome => ⟨hzero, ?_⟩,
      fun h => hc.deps_isSome hright h.2⟩
    cases hwhere : job.cppWhere with
    | onServer => rfl
    | onClient =>
      rw [hdeps, if_pos (Or.inr hwhere)] at hsome
      cases hsome
  · have hwrong := hstatus.wentWrong_iff.mpr hzero
    rw [if_pos hwrong] at hobj
    rw [if_pos (Or.inl hwrong)] at hdeps
    rw [Contents.suits_iff, hobj, hdeps]
    simp [hzero]

theorem Contents.Suits.cut (h : c.Suits status cppWhere)
    (compr : Compress) : (c.cut compr).Suits status cppWhere where
  obj := by rw [Contents.cut, Option.isSome_map, h.obj]
  deps := by rw [Contents.cut, Option.isSome_map, h.deps]

/-- The contents are sent in full exactly if none that is wanted is too long. -/
theorem Contents.cut_arrives_iff (outputFname : CString) (depsFname : Option CString)
    (serverStderrFname : CString) {compr : Compress} :
    ((c.cut compr).sout = c.sout ∧
      (c.cut compr).arrivals outputFname depsFname serverStderrFname =
        c.arrivals outputFname depsFname serverStderrFname) ↔
      ∀ content ∈ c.wanted depsFname, sentText compr content = content := by
  obtain ⟨serr, sout, obj, deps⟩ := c
  cases obj <;> cases deps <;> cases depsFname <;>
    simp [Contents.cut, Contents.arrivals, Contents.wanted, and_comm, and_left_comm]

theorem sentText_eq_self_iff {compr : Compress} {content : CString} :
    sentText compr content = content ↔ (compr = .lzo1x → content.length < 2 ^ 32) := by
  constructor
  · rintro h rfl
    have hlen := congrArg List.length h
    rw [sentText, length_take] at hlen
    omega
  · intro h
    cases compr with
    | none => rfl
    | lzo1x => exact sentText_of_lt (h rfl)

section Run

variable (hver : host.protover.toNat = job.protover) (hcompr : host.compr = job.compr)
  (hwhere : host.cppWhere = job.cppWhere) (hstatus : IsWaitStatus status)
  (hserver : server.Benign)
  (hrun : sendAnswer lzo env job status server = some (.ok (), server'))
  (hc : c.Of env job status server.files)
  (hlen : ∀ text ∈ (c.cut job.compr).all, (fileBody lzo job.compr text).length < 2 ^ 29)

include hver hcompr hwhere hstatus hserver hrun hc hlen

/-- What is sent arrives. -/
theorem arrives_cut (outputFname : CString) (depsFname : Option CString)
    {client : World} (hbenign : client.Benign)
    (hlog : LogSucceeds lzo serverStderrFname host client)
    (hbytes : server'.sent = server.sent ++ client.incoming) :
    Arrives lzo outputFname depsFname serverStderrFname host status (c.cut job.compr) client := by
  have hin := append_cancel_left (hbytes.symm.trans (sendAnswer_sent hrun hserver hc))
  have hsuits := (hc.suits hstatus).cut job.compr
  have hlt : job.protover < 2 ^ 32 := by
    rw [← hver]
    cases host.protover <;> decide
  rw [← hcompr] at hin hlen hsuits
  rw [← hwhere] at hsuits
  obtain ⟨n, client', d, hretrieve, hn, hstep, hshowed, hmade⟩ :=
    dccRetrieveResults_reads outputFname depsFname serverStderrFname hlt hstatus hsuits hlen
      hbenign hlog hin
  rw [← hcompr]
  exact ⟨n, client', hretrieve, hn, hstep.stdout.trans (congrArg _ hshowed),
    hstep.log.trans (congrArg _ hmade)⟩

/-- What arrives everywhere is what is sent. -/
theorem eq_cut_of_arrives
    (harrives : ∀ client : World, client.Benign → LogSucceeds lzo serverStderrFname host client →
      server'.sent = server.sent ++ client.incoming →
      Arrives lzo outputFname depsFname serverStderrFname host status c client) :
    (c.cut job.compr).sout = c.sout ∧
      (c.cut job.compr).arrivals outputFname depsFname serverStderrFname =
        c.arrivals outputFname depsFname serverStderrFname := by
  -- a client without a log, of which nothing is in the way
  let client : World :=
    { incoming := (c.cut job.compr).answer lzo job.compr job.protover status
      neverSendEmail := true }
  have hsent : server'.sent = server.sent ++ client.incoming := sendAnswer_sent hrun hserver hc
  have hbenign : client.Benign := forall_mem_nil _
  have hlog : LogSucceeds lzo serverStderrFname host client := logSucceeds_of_never rfl
  obtain ⟨n, client', hretrieve, -, hstdout, hfiles⟩ := harrives client hbenign hlog hsent
  obtain ⟨_, _, hretrieve', -, hstdout', hfiles'⟩ := arrives_cut hver hcompr hwhere hstatus
    hserver hrun hc hlen outputFname depsFname hbenign hlog hsent
  obtain ⟨-, rfl⟩ := ok_unique hretrieve hretrieve'
  exact ⟨append_cancel_left (hstdout'.symm.trans hstdout),
    append_cancel_left (hfiles'.symm.trans hfiles)⟩

/-- **The response arrives, unless a compressed file that is wanted has 2³² bytes or
more.** -/
theorem response_roundTrips_iff :
    (∀ client : World, client.Benign → LogSucceeds lzo serverStderrFname host client →
      server'.sent = server.sent ++ client.incoming →
      Arrives lzo outputFname depsFname serverStderrFname host status c client) ↔
      ∀ content ∈ c.wanted depsFname, job.compr = .lzo1x → content.length < 2 ^ 32 := by
  have hcond : (∀ content ∈ c.wanted depsFname, job.compr = .lzo1x → content.length < 2 ^ 32) ↔
      ∀ content ∈ c.wanted depsFname, sentText job.compr content = content :=
    forall₂_congr fun _ _ => sentText_eq_self_iff.symm
  rw [hcond, ← Contents.cut_arrives_iff outputFname depsFname serverStderrFname]
  constructor
  · exact eq_cut_of_arrives hver hcompr hwhere hstatus hserver hrun hc hlen
  · rintro ⟨hsout, hfiles⟩ client hbenign hlog hbytes
    obtain ⟨n, client', hretrieve, hn, hstdout, hmade⟩ := arrives_cut hver hcompr hwhere hstatus
      hserver hrun hc hlen outputFname depsFname hbenign hlog hbytes
    exact ⟨n, client', hretrieve, hn, hsout ▸ hstdout, hfiles ▸ hmade⟩

end Run

end Ends

/-! ### A small response, and one that is too long -/

/-- A job of this version. -/
def Job.ofProtover (protover : ℕ) : Job where
  protover := protover
  argv := helloArgv
  errFname := lit "err"
  outFname := lit "out"
  depsFname := lit "deps"
  tempO := lit "o"

/-- A server with this object. -/
def World.ofObject (obj : CString) : World where
  files name :=
    if name = lit "o" then some obj
    else if name ∈ ["err", "out", "deps"].map lit then some [] else none

/-- The contents that it answers with. -/
def Contents.ofObject (obj : CString) (deps : Option CString) : Contents := ⟨[], [], some obj, deps⟩

/-- With its dependencies, the object arrives. -/
theorem response_roundTrips_ver3 :
    ∃ server', sendAnswer Lzo.runs .ofHello (Job.ofProtover 3) 0 (.ofObject (lit "obj")) =
        some (.ok (), server') ∧
      ∀ client : World, client.Benign →
        LogSucceeds Lzo.runs (lit "e") (Hostdef.ofProtover .ver3) client →
        server'.sent = (World.ofObject (lit "obj")).sent ++ client.incoming →
        Arrives Lzo.runs (lit "a.o") (some (lit "a.d")) (lit "e") (Hostdef.ofProtover .ver3) 0
          (.ofObject (lit "obj") (some [])) client := by
  have hyields : (sendAnswer Lzo.runs .ofHello (Job.ofProtover 3) 0).yields
      (.ofObject (lit "obj")) (fun _ _ => true) = true := by
    decide +kernel
  obtain ⟨_, server', hrun, -⟩ := exists_of_yields hyields
  have hc : (Contents.ofObject (lit "obj") (some [])).Of .ofHello (Job.ofProtover 3) 0
      (World.ofObject (lit "obj")).files := by
    refine ⟨rfl, rfl, by decide +kernel, fun _ => rfl, by decide +kernel, fun _ _ => rfl⟩
  refine ⟨server', hrun, ?_⟩
  have hserver : (World.ofObject (lit "obj")).Benign := forall_mem_nil _
  refine (response_roundTrips_iff rfl rfl rfl (Or.inl ⟨0, by decide⟩) hserver hrun hc ?_).mpr ?_
  · decide +kernel
  · decide

/-- **Of an object of 2³² bytes, none arrive**: its size as an `unsigned` is 0. -/
theorem response_loses_blanks :
    ∃ server', sendAnswer Lzo.runs .ofHello (Job.ofProtover 2) 0 (.ofObject blanks) =
        some (.ok (), server') ∧
      (∀ text ∈ ((Contents.ofObject blanks none).cut .lzo1x).all,
        (fileBody Lzo.runs .lzo1x text).length < 2 ^ 29) ∧
      ¬∀ client : World, client.Benign →
        LogSucceeds Lzo.runs (lit "e") (Hostdef.ofProtover .ver2) client →
        server'.sent = (World.ofObject blanks).sent ++ client.incoming →
        Arrives Lzo.runs (lit "a.o") none (lit "e") (Hostdef.ofProtover .ver2) 0
          (.ofObject blanks none) client := by
  have hserver : (World.ofObject blanks).Benign := forall_mem_nil _
  have hc : (Contents.ofObject blanks none).Of .ofHello (Job.ofProtover 2) 0
      (World.ofObject blanks).files :=
    ⟨rfl, rfl, rfl, fun _ => rfl, rfl, nofun⟩
  have hcut : sentText .lzo1x blanks = [] := by
    rw [sentText, length_blanks, Nat.mod_self, take_zero]
  have hlen : ∀ text ∈ ((Contents.ofObject blanks none).cut .lzo1x).all,
      (fileBody Lzo.runs .lzo1x text).length < 2 ^ 29 := by
    rw [Contents.cut, Contents.ofObject, Option.map_some, hcut]
    decide
  have hreturns : ∃ server', sendAnswer Lzo.runs .ofHello (Job.ofProtover 2) 0
      (.ofObject blanks) = some (.ok (), server') := sendAnswer_returns rfl hserver hc
  obtain ⟨server', hrun⟩ := hreturns
  refine ⟨server', hrun, hlen, fun harrives => ?_⟩
  obtain ⟨-, hfiles⟩ :=
    eq_cut_of_arrives rfl rfl rfl (Or.inl ⟨0, by decide⟩) hserver hrun hc hlen harrives
  have hobj : Effect.file (lit "a.o") (sentText .lzo1x blanks) = .file (lit "a.o") blanks :=
    head_eq_of_cons_eq (tail_eq_of_cons_eq hfiles)
  rw [hcut] at hobj
  have hblanks := length_blanks
  rw [← (Effect.file.inj hobj).2] at hblanks
  cases hblanks

end Distcc
