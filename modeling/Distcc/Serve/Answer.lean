import Distcc.Serve.Quiet

/-!
# When a job that returns 0 was answered

`dcc_run_job` returns 0. Then it has sent a complete answer – `DONE`, `STAT`, `SERR`,
`SOUT`, `DOTO` and, when the server preprocesses and the compiler succeeded, `DOTD` –
exactly if none of the calls failed whose results it does not look at
(`dccRunJob_answers_iff`):

* of `dcc_r_many_files`, `dcc_set_output` or `tweak_arguments_for_server`, on a server that
  preprocesses, or of `dcc_remap_compiler` returning 0: `ret` is not set, and nothing is sent;
* of the transfer of a body in `dcc_x_file`: the rest of the body is lost;
* of `dcc_x_token_int`, with `DOTO 0`: the end of the answer is lost.

The answer is compared with what the files held when they were sent. A file of 2^32
bytes or more cannot be told in the head of a packet, and counts as one whose transfer
failed.
-/

namespace Distcc

open CString List Prog

/-! ### A complete answer -/

/-- What the files of an answer hold. -/
structure Contents where
  /-- What the compiler wrote to its standard error. -/
  serr : CString
  /-- What it wrote to its standard output. -/
  sout : CString
  /-- The object, if there is one. -/
  obj : Option CString
  /-- The dependencies, if they are asked for. -/
  deps : Option CString

namespace Contents

/-- The contents, in the order they are sent. -/
def all (c : Contents) : List CString := [c.serr, c.sout] ++ c.obj.toList ++ c.deps.toList

/-- The contents of these files make up the answer. -/
structure Of (env : JobEnv) (job : Job) (status : ℤ) (files : CString → Option CString)
    (c : Contents) : Prop where
  serr : files job.errFname = some c.serr
  sout : files job.outFname = some c.sout
  obj : c.obj = if wentWrong status then none else fixedObject env job files job.tempO
  obj_isSome : wentWrong status = false → c.obj.isSome
  deps : c.deps = if wentWrong status ∨ job.cppWhere = .onClient then none
    else (fixedObject env job files job.depsFname).map env.cleaned
  deps_isSome : wentWrong status = false → job.cppWhere = .onServer → c.deps.isSome

variable (lzo : Lzo) (compr : Compress)

/-- The bodies can be measured in 32 bits. -/
def Fits (c : Contents) : Prop := ∀ content ∈ c.all, (fileBody lzo compr content).length < 2 ^ 32

/-- The packets of the answer. Without an object, an empty one is sent. -/
def packets (c : Contents) : CString :=
  packetString (lit "SERR") (fileBody lzo compr c.serr) ++
    (packetString (lit "SOUT") (fileBody lzo compr c.sout) ++
      (packetString (lit "DOTO") ((c.obj.map (fileBody lzo compr)).getD []) ++
        (c.deps.map fun deps => packetString (lit "DOTD") (fileBody lzo compr deps)).getD []))

/-- The bytes of a complete answer. -/
def answer (protover : ℕ) (status : ℤ) (c : Contents) : CString :=
  packetHead (lit "DONE") protover ++
    (packetHead (lit "STAT") (status % 2 ^ 32).toNat ++ c.packets lzo compr)

end Contents

/-- **The job was answered** with these contents: it got as far as a status, and what was
written from then on is the complete answer. -/
def AnsweredBy (lzo : Lzo) (env : JobEnv) (w w' : World) (c : Contents) : Prop :=
  ∃ job w₁ status w₂, receiveJob lzo env w = some (.ok (some job), w₁) ∧
    compileJob env job w₁ = some (.ok (some status), w₂) ∧ c.Of env job status w₂.files ∧
    c.Fits lzo job.compr ∧ w'.sent = w.sent ++ c.answer lzo job.compr job.protover status

/-! ### What must not go wrong -/

section

variable (lzo : Lzo)

/-- The transfer of the file, from where its head was sent, returns 0, and the file and
its body can be measured in 32 bits. -/
def Whole (fname token : CString) (compr : Compress) (w : World) : Prop :=
  ∃ content w₁ w₂, w.files fname = some content ∧ content.length < 2 ^ 32 ∧
    (fileBody lzo compr content).length < 2 ^ 32 ∧
    dccXFileHead fname token compr w = some (.ok content.length, w₁) ∧
    dccXFileBody lzo token content.length compr w₁ = some (.ok (), w₂)

/-- The dependencies are sent, if they are asked for. -/
def DepsWhole (env : JobEnv) (job : Job) (w : World) : Prop :=
  job.cppWhere = .onServer → ∃ cleanedDotd w₁,
    dccCleanupDotd env job.depsFname w = some (.ok cleanedDotd, w₁) ∧
      Whole lzo cleanedDotd (lit "DOTD") job.compr w₁

/-- The object is sent, and the dependencies. -/
def ObjectWhole (env : JobEnv) (job : Job) (w : World) : Prop :=
  ∃ w₁ w₂, fixDebugInfo env job w = some (.ok (), w₁) ∧
    Whole lzo job.tempO (lit "DOTO") job.compr w₁ ∧
    dccXFile lzo job.tempO (lit "DOTO") job.compr w₁ = some (.ok (), w₂) ∧
    DepsWhole lzo env job w₂

/-- The answer is sent: what the compiler said, and then the object, or that there is
none. -/
def AnswerWhole (env : JobEnv) (job : Job) (status : ℤ) (w : World) : Prop :=
  ∃ w₁ w₂ w₃ w₄, dccXResultHeader job.protover w = some (.ok (), w₁) ∧
    dccXCcStatus status w₁ = some (.ok (), w₂) ∧
    Whole lzo job.errFname (lit "SERR") job.compr w₂ ∧
    dccXFile lzo job.errFname (lit "SERR") job.compr w₂ = some (.ok (), w₃) ∧
    Whole lzo job.outFname (lit "SOUT") job.compr w₃ ∧
    dccXFile lzo job.outFname (lit "SOUT") job.compr w₃ = some (.ok (), w₄) ∧
    if wentWrong status then ∃ w₅, dccXTokenInt (lit "DOTO") 0 w₄ = some (.ok (), w₅)
    else ObjectWhole lzo env job w₄

/-- **None of the calls fails whose results are not looked at.** -/
def Heeded (env : JobEnv) (w : World) : Prop :=
  ∃ job w₁ status w₂, receiveJob lzo env w = some (.ok (some job), w₁) ∧
    compileJob env job w₁ = some (.ok (some status), w₂) ∧ AnswerWhole lzo env job status w₂

end

/-! ### Sending in full or in part -/

/-- From `w` to `w'` the bytes `bs` were to be sent. If `good` holds they were, and
otherwise fewer. -/
structure Sends (w w' : World) (bs : CString) (good : Prop) : Prop where
  whole : good → w'.sent = w.sent ++ bs
  part : ∃ cs, w'.sent = w.sent ++ cs ∧ cs.length ≤ bs.length ∧ (cs.length = bs.length → good)

namespace Sends

variable {w w₁ w' : World} {bs cs : CString} {good good' : Prop}

theorem congr (h : Sends w w' bs good) (hgood : good ↔ good') : Sends w w' bs good' :=
  propext hgood ▸ h

/-- One after the other. -/
theorem trans (h : Sends w w₁ bs good) (h' : Sends w₁ w' cs good') :
    Sends w w' (bs ++ cs) (good ∧ good') where
  whole := by
    rintro ⟨hgood, hgood'⟩
    rw [h'.whole hgood', h.whole hgood, append_assoc]
  part := by
    obtain ⟨bs', hsent, hle, hall⟩ := h.part
    obtain ⟨cs', hsent', hle', hall'⟩ := h'.part
    refine ⟨bs' ++ cs', by rw [hsent', hsent, append_assoc], ?_, fun hlen => ?_⟩
    · rw [length_append, length_append]
      omega
    · rw [length_append, length_append] at hlen
      exact ⟨hall (by omega), hall' (by omega)⟩

/-- **All was sent exactly if all was good.** -/
theorem sent_iff (h : Sends w w' bs good) : w'.sent = w.sent ++ bs ↔ good := by
  refine ⟨fun hsent => ?_, h.whole⟩
  obtain ⟨cs, hsent', -, hall⟩ := h.part
  obtain rfl := append_cancel_left (hsent.symm.trans hsent')
  exact hall rfl

theorem of_step (h : w.Step (.gives bs) w') : Sends w w' bs True :=
  ⟨fun _ => h.sent, bs, h.sent, le_rfl, fun _ => trivial⟩

theorem of_hushed (h : w.Hushed w') : Sends w w' [] True :=
  ⟨fun _ => h.trans (append_nil _).symm, [], h.trans (append_nil _).symm, le_rfl,
    fun _ => trivial⟩

end Sends

section Files

variable {lzo : Lzo} {w w' : World} {fname token content : CString} {compr : Compress}

/-- The head of a packet, of which 0 was returned. -/
theorem dccXTokenInt_sent {n : ℕ} (h : dccXTokenInt token n w = some (.ok (), w')) :
    w.Step (.gives (packetHead token n)) w' := by
  rcases dccXTokenInt_spec h with ⟨-, -, hsame⟩ | ⟨_, _, hr, -⟩
  · exact World.step_of_put hsame
  · cases hr

/-- The head of a packet, whatever was returned. -/
theorem dccXTokenInt_attempted {n : ℕ} {r : Except Failure Unit} (h4 : token.length = 4)
    (h : dccXTokenInt token n w = some (r, w')) :
    Sends w w' (packetHead token n) (∃ w₁, dccXTokenInt token n w = some (.ok (), w₁)) := by
  have hlen := packetHead_length (n := n) h4
  rcases dccXTokenInt_spec h with ⟨rfl, -, -⟩ | ⟨e, k, rfl, hk, -, hsame⟩
  · exact (Sends.of_step (dccXTokenInt_sent h)).congr ⟨fun _ => ⟨w', h⟩, fun _ => trivial⟩
  · refine ⟨?_, _, (World.step_of_put hsame).sent, ?_, fun hall => ?_⟩
    · rintro ⟨w₁, hok⟩
      cases (run_unique h hok).1
    · exact length_take_le' _ _
    · simp only [Delta.gives, length_take] at hall
      omega

variable (h : dccXFile lzo fname token compr w = some (.ok (), w'))
include h

/-- A file that is not too long is sent in full exactly if its transfer returned 0. -/
theorem dccXFile_sends_iff (h4 : token.length = 4) (hfile : w.files fname = some content)
    (hlen : content.length < 2 ^ 32) (hfits : (fileBody lzo compr content).length < 2 ^ 32) :
    Sends w w' (packetString token (fileBody lzo compr content))
      (Whole lzo fname token compr w) := by
  obtain ⟨_, w₁, ret, w₂, hfile', hhead, hbody, hcases⟩ := dccXFile_spec h
  obtain rfl := Option.some.inj (hfile.symm.trans hfile')
  rw [fileFrame, sentText_of_lt hlen] at hcases
  have hframe : (packetString token (fileBody lzo compr content)).length =
      12 + (fileBody lzo compr content).length := by
    rw [packetString, length_append, packetHead_length h4]
  rcases hcases with ⟨rfl, -, hstep⟩ | ⟨e, k, rfl, hk, hstep⟩
  · refine (Sends.of_step hstep).congr ⟨fun _ => ?_, fun _ => trivial⟩
    exact ⟨content, w₁, w₂, hfile, hlen, hfits, hhead, hbody⟩
  · refine ⟨?_, _, hstep.sent, ?_, fun hall => ?_⟩
    · rintro ⟨_, w₁', _, hfile', -, -, hhead', hbody'⟩
      obtain rfl := Option.some.inj (hfile.symm.trans hfile')
      obtain ⟨-, rfl⟩ := ok_unique hhead hhead'
      cases (run_unique hbody hbody').1
    · exact length_take_le' _ _
    · simp only [Delta.gives, length_take] at hall
      omega

/-- Sending a file, or trying to, changes none. -/
theorem dccXFile_files : w'.files = w.files := by
  obtain ⟨_, _, _, _, -, -, -, hcases⟩ := dccXFile_spec h
  rcases hcases with ⟨-, -, hstep⟩ | ⟨_, _, -, -, hstep⟩
  · exact hstep.files rfl
  · exact hstep.files rfl

end Files

/-! ### What is done to the files in between -/

section Between

variable {env : JobEnv} {job : Job} {w w' : World}

theorem fixDebugInfo_spec (h : fixDebugInfo env job w = some (.ok (), w')) :
    w'.files = fixedObject env job w.files ∧ w'.sent = w.sent := by
  refine ⟨?_, fixDebugInfo_keeps blind_hushed env job h⟩
  unfold fixDebugInfo at h
  unfold fixedObject
  split at h
  · obtain ⟨-, rfl⟩ := pure_eq_some_iff.mp h
    rfl
  · case h_2 hserver =>
    obtain ⟨res, w₁, hchange, hrest⟩ := bind_eq_ok_iff.mp h
    rcases change_spec hchange with ⟨_, hr, -⟩ | ⟨w₂, hr, hsame, rfl⟩
    · obtain rfl := Except.ok.inj hr
      cases hrest
    · obtain rfl := Except.ok.inj hr
      obtain ⟨-, rfl⟩ := pure_eq_some_iff.mp hrest
      have hfiles : w₂.files = w.files := by rw [hsame.eq]
      simp only [hfiles, fixedObject, hserver]

theorem dccCleanupDotd_spec {dotdFname name : CString}
    (h : dccCleanupDotd env dotdFname w = some (.ok name, w')) :
    w'.sent = w.sent ∧
      ∃ deps, w.files dotdFname = some deps ∧ w'.files name = some (env.cleaned deps) := by
  refine ⟨dccCleanupDotd_keeps blind_hushed env dotdFname h, ?_⟩
  rw [dccCleanupDotd, get_bind] at h
  split at h
  · cases h
  · case h_2 deps hdeps =>
    obtain ⟨name', w₁, -, hrest⟩ := bind_eq_ok_iff.mp h
    obtain ⟨res, w₂, hchange, hrest2⟩ := bind_eq_ok_iff.mp hrest
    rcases change_spec hchange with ⟨_, hr, -⟩ | ⟨w₃, hr, -, rfl⟩
    · obtain rfl := Except.ok.inj hr
      cases hrest2
    · obtain rfl := Except.ok.inj hr
      obtain ⟨rfl, rfl⟩ := pure_eq_ok_iff.mp hrest2
      exact ⟨deps, hdeps, Function.update_self _ _ _⟩

end Between

/-! ### The parts of the answer -/

section Parts

variable {lzo : Lzo} {env : JobEnv} {job : Job} {status : ℤ} {w w' : World} {deps : Option CString}

/-- The runs of the functions that send an answer. -/
theorem sendMessages_cases (h : sendMessages lzo job status w = some (.ok (), w')) :
    ∃ w₁ w₂ w₃, dccXResultHeader job.protover w = some (.ok (), w₁) ∧
      dccXCcStatus status w₁ = some (.ok (), w₂) ∧
      dccXFile lzo job.errFname (lit "SERR") job.compr w₂ = some (.ok (), w₃) ∧
      dccXFile lzo job.outFname (lit "SOUT") job.compr w₃ = some (.ok (), w') ∧
      w₂.files = w.files ∧ w₃.files = w.files ∧ w'.files = w.files := by
  obtain ⟨_, w₁, hdone, h1⟩ := bind_eq_ok_iff.mp h
  obtain ⟨_, w₂, hstat, h2⟩ := bind_eq_ok_iff.mp h1
  obtain ⟨_, w₃, hserr, hsout⟩ := bind_eq_ok_iff.mp h2
  have hfiles2 : w₂.files = w.files :=
    ((dccXTokenInt_sent hstat).files rfl).trans ((dccXTokenInt_sent hdone).files rfl)
  have hfiles3 := (dccXFile_files hserr).trans hfiles2
  exact ⟨w₁, w₂, w₃, hdone, hstat, hserr, hsout, hfiles2, hfiles3,
    (dccXFile_files hsout).trans hfiles3⟩

theorem sendObject_cases (h : sendObject lzo env job w = some (.ok (), w')) :
    ∃ w₁ w₂, fixDebugInfo env job w = some (.ok (), w₁) ∧
      dccXFile lzo job.tempO (lit "DOTO") job.compr w₁ = some (.ok (), w₂) ∧
      sendDeps lzo env job w₂ = some (.ok (), w') := by
  obtain ⟨_, w₁, hfix, h1⟩ := bind_eq_ok_iff.mp h
  obtain ⟨_, w₂, hobj, hdeps⟩ := bind_eq_ok_iff.mp h1
  exact ⟨w₁, w₂, hfix, hobj, hdeps⟩

/-- If the answer returned 0, the messages did. -/
theorem sendAnswer_cases (h : sendAnswer lzo env job status w = some (.ok (), w')) :
    ∃ w₁, sendMessages lzo job status w = some (.ok (), w₁) ∧
      if wentWrong status then ∃ r, dccXTokenInt (lit "DOTO") 0 w₁ = some (r, w')
      else sendObject lzo env job w₁ = some (.ok (), w') := by
  obtain ⟨ret, w₁, hmessages, hrest⟩ := attempt_bind_cases h
  rcases ret with e | _
  · obtain ⟨_, _, -, hfail⟩ := attempt_bind_cases hrest
    cases hfail
  refine ⟨w₁, hmessages, ?_⟩
  dsimp only at hrest
  split at hrest
  · case isTrue hwrong =>
    obtain ⟨r, w₂, hnone, hend⟩ := attempt_bind_cases hrest
    obtain ⟨-, rfl⟩ := pure_eq_some_iff.mp hend
    rw [if_pos hwrong]
    exact ⟨r, hnone⟩
  · case isFalse hright =>
    rw [if_neg hright]
    exact hrest

/-- The bytes that are sent for dependencies. -/
def depsPacket (lzo : Lzo) (compr : Compress) (deps : Option CString) : CString :=
  (deps.map fun deps => packetString (lit "DOTD") (fileBody lzo compr deps)).getD []

/-- The dependencies are sent in full exactly if their transfer returned 0. -/
theorem sendDeps_sends_iff (h : sendDeps lzo env job w = some (.ok (), w'))
    (hdeps : deps = if job.cppWhere = .onClient then none
      else (w.files job.depsFname).map env.cleaned)
    (hlen : ∀ content ∈ deps, content.length < 2 ^ 32 ∧
      (fileBody lzo job.compr content).length < 2 ^ 32) :
    Sends w w' (depsPacket lzo job.compr deps) (DepsWhole lzo env job w) := by
  unfold sendDeps at h
  split at h
  · case h_1 hclient =>
    rw [if_pos hclient] at hdeps
    obtain ⟨-, rfl⟩ := pure_eq_some_iff.mp h
    subst hdeps
    refine (Sends.of_hushed (refl w)).congr ⟨fun _ hserver => ?_, fun _ => trivial⟩
    rw [hclient] at hserver
    cases hserver
  · case h_2 hserver =>
    obtain ⟨name, w₁, hcleanup, hsend⟩ := bind_eq_ok_iff.mp h
    obtain ⟨hsent, content, hfile, hcleaned⟩ := dccCleanupDotd_spec hcleanup
    rw [if_neg (by rw [hserver]; decide), hfile] at hdeps
    subst hdeps
    obtain ⟨hsmall, hfits⟩ := hlen _ rfl
    have hfile := dccXFile_sends_iff hsend rfl hcleaned hsmall hfits
    refine ((Sends.of_hushed hsent).trans hfile).congr ?_
    constructor
    · rintro ⟨-, hwhole⟩ -
      exact ⟨name, w₁, hcleanup, hwhole⟩
    · intro hdeps
      obtain ⟨_, _, hcleanup', hwhole⟩ := hdeps hserver
      obtain ⟨rfl, rfl⟩ := ok_unique hcleanup hcleanup'
      exact ⟨trivial, hwhole⟩

/-- The object is sent in full, with the dependencies, exactly if the transfers returned
0. -/
theorem sendObject_sends_iff {obj : CString} (h : sendObject lzo env job w = some (.ok (), w'))
    (hobj : fixedObject env job w.files job.tempO = some obj)
    (hobjLen : obj.length < 2 ^ 32 ∧ (fileBody lzo job.compr obj).length < 2 ^ 32)
    (hdeps : deps = if job.cppWhere = .onClient then none
      else (fixedObject env job w.files job.depsFname).map env.cleaned)
    (hdepsLen : ∀ content ∈ deps, content.length < 2 ^ 32 ∧
      (fileBody lzo job.compr content).length < 2 ^ 32) :
    Sends w w' (packetString (lit "DOTO") (fileBody lzo job.compr obj) ++
      depsPacket lzo job.compr deps) (ObjectWhole lzo env job w) := by
  obtain ⟨w₁, w₂, hfix, hsend, hrest⟩ := sendObject_cases h
  obtain ⟨hfiles, hsent⟩ := fixDebugInfo_spec hfix
  have hfile : w₁.files job.tempO = some obj := by rw [hfiles, hobj]
  have hfiles2 : w₂.files = fixedObject env job w.files := (dccXFile_files hsend).trans hfiles
  rw [← hfiles2] at hdeps
  have hobjSent := dccXFile_sends_iff hsend rfl hfile hobjLen.1 hobjLen.2
  have hdepsSent := sendDeps_sends_iff hrest hdeps hdepsLen
  refine ((Sends.of_hushed hsent).trans (hobjSent.trans hdepsSent)).congr ?_
  constructor
  · rintro ⟨-, hwhole, hdepsWhole⟩
    exact ⟨w₁, w₂, hfix, hwhole, hsend, hdepsWhole⟩
  · rintro ⟨w₁', w₂', hfix', hwhole, hsend', hdepsWhole⟩
    obtain ⟨-, rfl⟩ := ok_unique hfix hfix'
    obtain ⟨-, rfl⟩ := ok_unique hsend hsend'
    exact ⟨trivial, hwhole, hdepsWhole⟩

/-- What follows the messages, in an answer with these contents. -/
theorem sendEnd_sends_iff {c : Contents} (hc : c.Of env job status w.files)
    (hlen : ∀ content ∈ c.all, content.length < 2 ^ 32 ∧
      (fileBody lzo job.compr content).length < 2 ^ 32)
    (h : if wentWrong status then ∃ r, dccXTokenInt (lit "DOTO") 0 w = some (r, w')
      else sendObject lzo env job w = some (.ok (), w')) :
    Sends w w' (packetString (lit "DOTO") ((c.obj.map (fileBody lzo job.compr)).getD []) ++
        depsPacket lzo job.compr c.deps)
      (if wentWrong status then ∃ w₁, dccXTokenInt (lit "DOTO") 0 w = some (.ok (), w₁)
        else ObjectWhole lzo env job w) := by
  have hobj := hc.obj
  have hdeps := hc.deps
  split at h
  · case isTrue hwrong =>
    obtain ⟨r, hnone⟩ := h
    rw [if_pos hwrong] at hobj ⊢
    rw [if_pos (.inl hwrong)] at hdeps
    rw [hobj, hdeps]
    have hsends := dccXTokenInt_attempted (n := 0) rfl hnone
    rw [← append_nil (packetHead (lit "DOTO") 0)] at hsends
    exact hsends
  · case isFalse hright =>
    have hright' := Bool.eq_false_iff.mpr hright
    obtain ⟨obj, hsome⟩ := Option.isSome_iff_exists.mp (hc.obj_isSome hright')
    rw [if_neg hright] at hobj ⊢
    simp only [hright, Bool.false_eq_true, false_or] at hdeps
    rw [hsome] at hobj ⊢
    refine sendObject_sends_iff h hobj.symm (hlen obj ?_) hdeps
      fun content hcontent => hlen content ?_
    · simp [Contents.all, hsome]
    · rw [Option.mem_def] at hcontent
      simp [Contents.all, hcontent]

/-- **The answer is complete exactly if the transfers returned 0**, for files that are
not too long. -/
theorem sendAnswer_sends_iff {c : Contents}
    (h : sendAnswer lzo env job status w = some (.ok (), w'))
    (hc : c.Of env job status w.files)
    (hlen : ∀ content ∈ c.all, content.length < 2 ^ 32 ∧
      (fileBody lzo job.compr content).length < 2 ^ 32) :
    Sends w w' (c.answer lzo job.compr job.protover status) (AnswerWhole lzo env job status w) := by
  obtain ⟨w₄, hmessages, hrest⟩ := sendAnswer_cases h
  obtain ⟨w₁, w₂, w₃, hdone, hstat, hserr, hsout, hfiles2, hfiles3, hfiles4⟩ :=
    sendMessages_cases hmessages
  obtain ⟨hserrLen, hserrFits⟩ := hlen c.serr (by simp [Contents.all])
  obtain ⟨hsoutLen, hsoutFits⟩ := hlen c.sout (by simp [Contents.all])
  have hserrSent := dccXFile_sends_iff hserr rfl (by rw [hfiles2, hc.serr]) hserrLen hserrFits
  have hsoutSent := dccXFile_sends_iff hsout rfl (by rw [hfiles3, hc.sout]) hsoutLen hsoutFits
  have hendSent := sendEnd_sends_iff (hfiles4 ▸ hc) hlen hrest
  have hall := (Sends.of_step (dccXTokenInt_sent hdone)).trans
    ((Sends.of_step (dccXTokenInt_sent hstat)).trans (hserrSent.trans (hsoutSent.trans hendSent)))
  refine hall.congr ⟨?_, ?_⟩
  · rintro ⟨-, -, hserrWhole, hsoutWhole, hend⟩
    exact ⟨w₁, w₂, w₃, w₄, hdone, hstat, hserrWhole, hserr, hsoutWhole, hsout, hend⟩
  · rintro ⟨_, _, _, _, hdone', hstat', hserrWhole, hserr', hsoutWhole, hsout', hend⟩
    obtain ⟨-, rfl⟩ := ok_unique hdone hdone'
    obtain ⟨-, rfl⟩ := ok_unique hstat hstat'
    obtain ⟨-, rfl⟩ := ok_unique hserr hserr'
    obtain ⟨-, rfl⟩ := ok_unique hsout hsout'
    exact ⟨trivial, trivial, hserrWhole, hsoutWhole, hend⟩

end Parts

/-! ### Answered, if nothing is ignored -/

section Answered

variable {lzo : Lzo} {env : JobEnv} {job : Job} {status : ℤ} {w w' : World}

/-- What a file whose transfer returns 0 holds. -/
theorem Whole.content {fname token : CString} {compr : Compress}
    (h : Whole lzo fname token compr w) : ∃ content, w.files fname = some content ∧
      content.length < 2 ^ 32 ∧ (fileBody lzo compr content).length < 2 ^ 32 := by
  obtain ⟨content, _, _, hfile, hlen, hfits, -, -⟩ := h
  exact ⟨content, hfile, hlen, hfits⟩

theorem DepsWhole.contents (h : DepsWhole lzo env job w) :
    ∃ deps : Option CString, (deps = if job.cppWhere = .onClient then none
        else (w.files job.depsFname).map env.cleaned) ∧
      (job.cppWhere = .onServer → deps.isSome) ∧
      ∀ content ∈ deps, content.length < 2 ^ 32 ∧
        (fileBody lzo job.compr content).length < 2 ^ 32 := by
  cases hwhere : job.cppWhere with
  | onClient =>
    refine ⟨none, rfl, fun hserver => ?_, fun _ hcontent => ?_⟩
    · cases hserver
    · cases hcontent
  | onServer =>
    obtain ⟨name, w₁, hcleanup, hwhole⟩ := h hwhere
    obtain ⟨-, deps, hfile, hcleaned⟩ := dccCleanupDotd_spec hcleanup
    obtain ⟨content, hcontent, hlen, hfits⟩ := hwhole.content
    obtain rfl := Option.some.inj (hcleaned.symm.trans hcontent)
    refine ⟨some (env.cleaned deps), ?_, fun _ => rfl, fun content hmem => ?_⟩
    · rw [if_neg (by decide), hfile]
      rfl
    · obtain rfl := Option.some.inj hmem
      exact ⟨hlen, hfits⟩

theorem ObjectWhole.contents (h : ObjectWhole lzo env job w) :
    ∃ (obj : CString) (deps : Option CString),
      fixedObject env job w.files job.tempO = some obj ∧
      (deps = if job.cppWhere = .onClient then none
        else (fixedObject env job w.files job.depsFname).map env.cleaned) ∧
      (job.cppWhere = .onServer → deps.isSome) ∧
      ∀ content ∈ obj :: deps.toList, content.length < 2 ^ 32 ∧
        (fileBody lzo job.compr content).length < 2 ^ 32 := by
  obtain ⟨w₁, w₂, hfix, hwhole, hsend, hdeps⟩ := h
  obtain ⟨hfiles, -⟩ := fixDebugInfo_spec hfix
  obtain ⟨obj, hobj, hobjLen⟩ := hwhole.content
  obtain ⟨deps, heq, hsome, hdepsLen⟩ := hdeps.contents
  rw [hfiles] at hobj
  rw [dccXFile_files hsend, hfiles] at heq
  refine ⟨obj, deps, hobj, heq, hsome, fun content hmem => ?_⟩
  rcases mem_cons.mp hmem with rfl | hmem
  · exact hobjLen
  · exact hdepsLen content (Option.mem_toList.mp hmem)

/-- An answer whose transfers return 0 has contents. -/
theorem AnswerWhole.contents (h : AnswerWhole lzo env job status w) :
    ∃ c : Contents, c.Of env job status w.files ∧ ∀ content ∈ c.all, content.length < 2 ^ 32 ∧
      (fileBody lzo job.compr content).length < 2 ^ 32 := by
  obtain ⟨w₁, w₂, w₃, w₄, hdone, hstat, hserrWhole, hserr, hsoutWhole, hsout, hend⟩ := h
  have hfiles2 : w₂.files = w.files :=
    ((dccXTokenInt_sent hstat).files rfl).trans ((dccXTokenInt_sent hdone).files rfl)
  have hfiles3 := (dccXFile_files hserr).trans hfiles2
  have hfiles4 := (dccXFile_files hsout).trans hfiles3
  obtain ⟨serr, hserrFile, hserrLen⟩ := hserrWhole.content
  obtain ⟨sout, hsoutFile, hsoutLen⟩ := hsoutWhole.content
  rw [hfiles2] at hserrFile
  rw [hfiles3] at hsoutFile
  cases hwrong : wentWrong status with
  | true =>
    refine ⟨⟨serr, sout, none, none⟩, ⟨hserrFile, hsoutFile, ?_, ?_, ?_, ?_⟩, ?_⟩
    · rw [hwrong, if_pos rfl]
    · intro hright
      rw [hwrong] at hright
      cases hright
    · rw [hwrong, if_pos (.inl rfl)]
    · intro hright
      rw [hwrong] at hright
      cases hright
    · simp only [Contents.all, Option.toList_none, append_nil, mem_cons,
        not_mem_nil, or_false, forall_eq_or_imp, forall_eq]
      exact ⟨hserrLen, hsoutLen⟩
  | false =>
    rw [hwrong, if_neg Bool.false_ne_true] at hend
    obtain ⟨obj, deps, hobj, hdeps, hsome, hlen⟩ := hend.contents
    rw [hfiles4] at hobj hdeps
    refine ⟨⟨serr, sout, some obj, deps⟩, ⟨hserrFile, hsoutFile, ?_, fun _ => rfl, ?_, ?_⟩, ?_⟩
    · rw [hwrong, if_neg Bool.false_ne_true, hobj]
    · simpa [hwrong] using hdeps
    · exact fun _ => hsome
    · intro content hmem
      simp only [Contents.all, Option.toList_some, cons_append, nil_append,
        mem_cons] at hmem
      rcases hmem with rfl | rfl | hmem
      · exact hserrLen
      · exact hsoutLen
      · exact hlen content (mem_cons.mpr hmem)

/-- A job that got to a status sends an answer. -/
theorem sendAnswer_of_run {w₁ w₂ : World} (h : dccRunJob lzo env w = some (.ok (), w'))
    (hreceive : receiveJob lzo env w = some (.ok (some job), w₁))
    (hcompile : compileJob env job w₁ = some (.ok (some status), w₂)) :
    sendAnswer lzo env job status w₂ = some (.ok (), w') ∧ w₂.sent = w.sent := by
  rw [dccRunJob, bind_of_ok hreceive] at h
  replace h := (bind_of_ok hcompile).symm.trans h
  refine ⟨h, ?_⟩
  exact (compileJob_keeps blind_hushed (fun _ _ => rfl) env job hcompile).trans
    (receiveJob_keeps blind_hushed lzo env hreceive)

/-- **A job that returned 0 was answered in full if none of the calls failed whose
results are not looked at**, and only then, as far as the files are not too long. -/
theorem dccRunJob_answers_iff (h : dccRunJob lzo env w = some (.ok (), w')) :
    (Heeded lzo env w → ∃ c, AnsweredBy lzo env w w' c) ∧
      ∀ c, AnsweredBy lzo env w w' c → (∀ content ∈ c.all, content.length < 2 ^ 32) →
        Heeded lzo env w := by
  constructor
  · rintro ⟨job, w₁, status, w₂, hreceive, hcompile, hwhole⟩
    obtain ⟨hanswer, hsent⟩ := sendAnswer_of_run h hreceive hcompile
    obtain ⟨c, hc, hlen⟩ := hwhole.contents
    refine ⟨c, job, w₁, status, w₂, hreceive, hcompile, hc, fun x hx => (hlen x hx).2, ?_⟩
    rw [← hsent]
    exact (sendAnswer_sends_iff hanswer hc hlen).whole hwhole
  · rintro c ⟨job, w₁, status, w₂, hreceive, hcompile, hc, hfits, hbytes⟩ hsmall
    obtain ⟨hanswer, hsent⟩ := sendAnswer_of_run h hreceive hcompile
    rw [← hsent] at hbytes
    have hsends := sendAnswer_sends_iff hanswer hc fun x hx => ⟨hsmall x hx, hfits x hx⟩
    exact ⟨job, w₁, status, w₂, hreceive, hcompile, hsends.sent_iff.mp hbytes⟩

end Answered

/-- A compiler that succeeds, and leaves the same in every file. -/
def JobEnv.ofHello : JobEnv where
  randomBits n := n
  letters := lit "abcdef"
  jobLifetime := 0
  status := 0
  compiled _ _ := some (lit "hi")
  fixed content := content
  cleaned content := content
  strayLine := []
  strayName := []

/-- The command of a job. -/
def helloArgv : List CString := ["gcc", "-c", "hello.c", "-o", "hello.o"].map lit

/-- A server that is sent these bytes. -/
def World.ofRequest (incoming : CString) : World where
  incoming := incoming

/-- A job for the first version of the protocol. -/
def World.ofHelloJob : World :=
  .ofRequest (packetHead (lit "DIST") 1 ++ packetArgv (lit "ARGC") (lit "ARGV") helloArgv ++
    packetString (lit "DOTI") (lit "int x;"))

/-- A small job is answered. -/
theorem dccRunJob_answers_hello :
    ∃ w', dccRunJob Lzo.runs .ofHello .ofHelloJob = some (.ok (), w') ∧
      Heeded Lzo.runs .ofHello .ofHelloJob ∧
      ∃ c, AnsweredBy Lzo.runs .ofHello .ofHelloJob w' c := by
  let c : Contents := ⟨lit "hi", lit "hi", some (lit "hi"), none⟩
  have hyields : (dccRunJob Lzo.runs .ofHello).yields .ofHelloJob
      (fun _ w' => w'.sent = c.answer Lzo.runs .none 1 0) = true := by
    decide +kernel
  obtain ⟨_, w', hrun, hsent⟩ := exists_of_yields hyields
  have hreceives : (receiveJob Lzo.runs .ofHello).yields .ofHelloJob
      (fun job w₁ => job.any fun job => job.protover = 1 &&
        (compileJob .ofHello job).yields w₁ (fun status w₂ => status = some 0 &&
          w₂.files job.errFname = some (lit "hi") && w₂.files job.outFname = some (lit "hi") &&
            w₂.files job.tempO = some (lit "hi"))) = true := by
    decide +kernel
  obtain ⟨job, w₁, hreceive, hcompiles⟩ := exists_of_yields hreceives
  cases job with
  | none => cases hcompiles
  | some job =>
    simp only [Option.any_some, Bool.and_eq_true, decide_eq_true_eq] at hcompiles
    obtain ⟨hprotover, hcompiles⟩ := hcompiles
    obtain ⟨status, w₂, hcompile, hfiles⟩ := exists_of_yields hcompiles
    simp only [Bool.and_eq_true, decide_eq_true_eq] at hfiles
    obtain ⟨⟨⟨rfl, hserr⟩, hsout⟩, hobj⟩ := hfiles
    have hwhere : job.cppWhere = .onClient := by rw [Job.cppWhere, hprotover]; rfl
    have hcompr : job.compr = .none := by rw [Job.compr, hprotover]; rfl
    have hc : c.Of .ofHello job 0 w₂.files := by
      refine ⟨hserr, hsout, ?_, fun _ => rfl, ?_, fun _ hserver => ?_⟩
      · rw [if_neg (by decide), fixedObject, hwhere]
        exact hobj.symm
      · rw [if_pos (.inr hwhere)]
      · rw [hwhere] at hserver
        cases hserver
    have hanswered : AnsweredBy Lzo.runs .ofHello .ofHelloJob w' c := by
      refine ⟨job, w₁, 0, w₂, hreceive, hcompile, hc, ?_, ?_⟩
      · rw [hcompr, Contents.Fits]
        decide
      · rw [hcompr, hprotover]
        exact of_decide_eq_true hsent
    exact ⟨w', hrun, (dccRunJob_answers_iff hrun).2 c hanswered (by decide), c, hanswered⟩

/-- A job for the third version of the protocol that ends where the files should
begin. -/
def World.ofCutJob : World :=
  .ofRequest (packetHead (lit "DIST") 3 ++ packetString (lit "CDIR") (lit "/") ++
    packetArgv (lit "ARGC") (lit "ARGV") helloArgv)

/-- **0 is returned and nothing is sent**, if the files cannot be received. -/
theorem dccRunJob_forgets_answer :
    ∃ w', dccRunJob Lzo.runs .ofHello .ofCutJob = some (.ok (), w') ∧
      ¬∃ c, AnsweredBy Lzo.runs .ofHello .ofCutJob w' c := by
  have hyields : (dccRunJob Lzo.runs .ofHello).yields .ofCutJob
      (fun _ w' => w'.sent = []) = true := by
    decide +kernel
  obtain ⟨_, w', hrun, hsent⟩ := exists_of_yields hyields
  refine ⟨w', hrun, ?_⟩
  rintro ⟨c, job, _, status, _, -, -, -, -, hbytes⟩
  have hnil : [] = c.answer Lzo.runs job.compr job.protover status :=
    (of_decide_eq_true hsent).symm.trans hbytes
  have hhead := congrArg List.length hnil
  rw [Contents.answer, length_append, packetHead_length rfl, length_nil] at hhead
  omega

end Distcc
