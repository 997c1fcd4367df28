import Distcc.Format

/-!
# The response, on the client

Model of `dcc_retrieve_results` and the functions it calls in `src/clirpc.c`, and of
`dcc_add_file_to_log_email` (`src/emaillog.c`).

What a response is, says `IsResponse`. Whatever a server sends,
`dcc_retrieve_results` returns 0 for a complete response and, besides, in three cases
in which it is none: `dcc_r_result_header` lacks braces and never looks at the version;
the failure of `dcc_add_file_to_log_email` is answered with a `ret` that is still 0; and
what is kept of the result for `DOTD` is whether it was 0. Apart from these, 0 means a
complete response (`dccRetrieveResults_isResponse_iff`).
-/

namespace Distcc

open CString List Prog

/-! ### The log for the maintainers -/

/-- A single `write`, of all or nothing. -/
def writeExactly (dst : Sink) (bs : CString) : Io Unit := do
  match ← write dst bs with
  | .error _ => Prog.fail ExitCode.ioError.failure
  | .ok n => if n = bs.length then pure () else Prog.fail ExitCode.ioError.failure

/-- A heading in the log. -/
def writeHeading (title description : CString) : Io Unit := do
  writeExactly .email title
  writeExactly .email description
  writeExactly .email (lit "\n")

/-- The file is copied into the log, between two headings. -/
def logFile (description fname : CString) : Io Unit := do
  let fsize ← dccOpenRead fname
  writeHeading (lit "\nBEGIN ") description
  dccPumpReadwrite .email .file (fsize.getD 0)
  writeHeading (lit "\nEND ") description
  let _ ← syscall
  pure ()

/-- `dcc_add_file_to_log_email` -/
def dccAddFileToLogEmail (description fname : CString) : Io Unit := do
  let w ← Prog.get
  if w.neverSendEmail then pure () else logFile description fname

/-! ### The response -/

/-- `dcc_r_result_header`. The `return` after the token is not part of the `if`, so that
the version is never compared. -/
def dccRResultHeader (_expectVer : Protover) : Io Unit := do
  let _vers ← dccRTokenInt (lit "DONE")
  pure ()

/-- `dcc_r_cc_status` -/
def dccRCcStatus : Io ℕ := dccRTokenInt (lit "STAT")

section

variable (lzo : Lzo) (outputFname : CString) (depsFname : Option CString)
  (serverStderrFname : CString) (host : Hostdef)

/-- `dcc_retrieve_results`, up to the errors of the compiler. -/
def retrieveStderr : Io ℕ := do
  dccRResultHeader host.protover
  let status ← dccRCcStatus
  let len ← dccRTokenInt (lit "SERR")
  dccRFile lzo serverStderrFname len host.compr
  pure status

/-- If the compiler succeeded, the object is always retrieved, even if it has no bytes. -/
def retrieveObject (status oLen : ℕ) : Io Unit :=
  if status = 0 then dccRFileTimed lzo outputFname oLen host.compr else pure ()

/-- `dcc_retrieve_results`, from the output of the compiler to the object. -/
def retrieveOutput (status : ℕ) : Io Unit := do
  let len ← dccRTokenInt (lit "SOUT")
  dccRBulk lzo .stdout len host.compr
  let oLen ← dccRTokenInt (lit "DOTO")
  retrieveObject lzo outputFname host status oLen

/-- `dcc_retrieve_results`, the dependencies. `ret` is the result of a comparison, and
0 is returned without them. -/
def retrieveDeps (status : ℕ) : Io Unit :=
  if status = 0 ∧ host.cppWhere = .onServer then do
    match ← (dccRTokenInt (lit "DOTD")).attempt with
    | .error _ => pure ()
    | .ok len =>
      match depsFname with
      | none => pure ()
      | some fname => dccRFileTimed lzo fname len host.compr
  else pure ()

/-- `dcc_retrieve_results` -/
def dccRetrieveResults : Io ℕ := do
  let status ← retrieveStderr lzo serverStderrFname host
  match ← (dccAddFileToLogEmail (lit "server-side stderr") serverStderrFname).attempt with
  | .error _ => pure status
  | .ok () => do
    retrieveOutput lzo outputFname host status
    retrieveDeps lzo depsFname host status
    pure status

/-! ### What a response is -/

/-- The version, the status and the errors of the compiler. -/
def stderrFormat : Format ℕ :=
  (Format.anyHead (lit "DONE")).seq fun _ =>
  (Format.head (lit "STAT")).seq fun status =>
  (Format.head (lit "SERR")).seq fun len =>
  (Format.file lzo host.compr serverStderrFname len).seq fun _ => .done status

/-- The output of the compiler, and the object. -/
def outputFormat (status : ℕ) : Format Unit :=
  (Format.head (lit "SOUT")).seq fun len =>
  (Format.output lzo host.compr len).seq fun _ =>
  (Format.head (lit "DOTO")).seq fun oLen =>
  if status = 0 then .file lzo host.compr outputFname oLen else .done ()

/-- The dependencies. -/
def depsFormat (status : ℕ) : Format Unit :=
  if status = 0 ∧ host.cppWhere = .onServer then
    (Format.head (lit "DOTD")).seq fun len =>
    match depsFname with
    | none => .done ()
    | some fname => .file lzo host.compr fname len
  else .done ()

/-- **A complete response with this status**, of the version that was asked for. -/
structure IsResponse (status : ℕ) (d : Delta) : Prop where
  version : IsHead (lit "DONE") host.protover.toNat (d.took.take 12)
  parts : ((stderrFormat lzo serverStderrFname host).seq fun status =>
    (outputFormat lzo outputFname host status).seq fun _ =>
    (depsFormat lzo depsFname host status).seq fun _ => .done status) status d

end

/-! ### The log stays among ourselves -/

section Log

theorem writeExactly_silent (bs : CString) : (writeExactly .email bs).Keeps World.Silent := by
  have hwrite : (write .email bs).Keeps World.Silent := by
    intro w r w' h
    obtain ⟨_, -, ⟨_, -, hsame, -⟩ | ⟨k, -, -, hsame, -⟩⟩ := Prog.Total.spec_ok (write_total ..) h
    · exact hsame.step
    · exact hsame.step_of ⟨World.does_zero rfl rfl rfl rfl rfl rfl, fun _ => rfl, fun _ => rfl⟩
  refine hwrite.bind fun res => ?_
  cases res with
  | error e => exact keeps_fail _
  | ok n =>
    dsimp only
    split
    · exact keeps_pure _
    · exact keeps_fail _

theorem writeHeading_silent (title description : CString) :
    (writeHeading title description).Keeps World.Silent :=
  (writeExactly_silent title).bind fun _ => (writeExactly_silent description).bind fun _ =>
    writeExactly_silent _

theorem dccOpenRead_silent (fname : CString) : (dccOpenRead fname).Keeps World.Silent := by
  intro w r w' h
  rcases dccOpenRead_spec h with ⟨_, -, hstep⟩ | ⟨-, hsame⟩ | ⟨content, -, -, hsame⟩
  · exact hstep
  · exact hsame.step
  · exact (w.step_opened content).zero_trans hsame.step

theorem pumpToEmail_silent (n : ℕ) :
    (dccPumpReadwrite .email .file n).Keeps World.Silent := by
  have hmoved {w w' : World} {k : ℕ} {bs : CString}
      (hsame : ((w.drop k .file).put bs .email).Same w') : w.Silent w' :=
    hsame.step_of ⟨World.does_zero rfl rfl rfl rfl rfl rfl, fun _ => rfl, fun _ => rfl⟩
  intro w r w' h
  rcases (dccPumpReadwrite_total ..).spec h with ⟨-, -, hsame⟩ | ⟨_, _, _, -, -, -, -, hsame, -⟩
  · exact hmoved hsame
  · exact hmoved hsame

/-- **`dcc_add_file_to_log_email`** does nothing a peer would see. -/
theorem dccAddFileToLogEmail_silent (description fname : CString) :
    (dccAddFileToLogEmail description fname).Keeps World.Silent := by
  have hcall : syscall.Keeps World.Silent := fun _ _ _ h => (syscall_keeps h).step
  have hlog : (logFile description fname).Keeps World.Silent :=
    (dccOpenRead_silent fname).bind fun _ => (writeHeading_silent _ _).bind fun _ =>
      (pumpToEmail_silent _).bind fun _ => (writeHeading_silent _ _).bind fun _ =>
        hcall.bind fun _ => keeps_pure _
  intro w r w' h
  rw [dccAddFileToLogEmail, get_bind] at h
  split at h
  · exact keeps_pure _ h
  · exact hlog h

end Log

/-! ### The parts -/

section Parts

variable (lzo : Lzo) (outputFname : CString) (depsFname : Option CString)
  (serverStderrFname : CString) (host : Hostdef) (status : ℕ)

open Format

theorem follows_retrieveStderr :
    Follows (retrieveStderr lzo serverStderrFname host)
      (stderrFormat lzo serverStderrFname host) := by
  have hdone : Follows (dccRResultHeader host.protover) (anyHead (lit "DONE")) := by
    intro w _ w' h
    obtain ⟨n, w₁, hrun, hrest⟩ := bind_eq_ok_iff.mp h
    obtain ⟨-, rfl⟩ := pure_eq_some_iff.mp hrest
    obtain ⟨d, hstep, hhead⟩ := follows_dccRTokenInt _ hrun
    exact ⟨d, hstep, n, hhead⟩
  exact hdone.bind fun _ => (follows_dccRTokenInt _).bind fun _ =>
    (follows_dccRTokenInt _).bind fun _ => (follows_dccRFile _ _ _ _).bind fun _ => follows_pure _

theorem follows_retrieveOutput :
    Follows (retrieveOutput lzo outputFname host status)
      (outputFormat lzo outputFname host status) := by
  refine (follows_dccRTokenInt _).bind fun _ => (follows_dccRBulk _ _ _).bind fun _ =>
    (follows_dccRTokenInt _).bind fun oLen => ?_
  unfold retrieveObject
  split
  · exact follows_dccRFile _ _ _ _
  · exact follows_pure _

theorem delimits_stderrFormat : (stderrFormat lzo serverStderrFname host).Delimits :=
  (delimits_anyHead _).seq fun _ => (delimits_head _).seq fun _ => (delimits_head _).seq fun _ =>
    (delimits_file _ _ _ _).seq fun _ => delimits_done _

theorem delimits_outputFormat : (outputFormat lzo outputFname host status).Delimits := by
  refine (delimits_head _).seq fun _ => (delimits_output _ _ _).seq fun _ =>
    (delimits_head _).seq fun _ => ?_
  split
  · exact delimits_file _ _ _ _
  · exact delimits_done _

/-- The output begins with a head. -/
theorem took_ne_nil_of_outputFormat {d : Delta}
    (h : outputFormat lzo outputFname host status () d) : d.took ≠ [] := by
  obtain ⟨_, _, d₂, ⟨buf, hhead, rfl⟩, -, rfl⟩ := h
  intro hnil
  have hbuf : buf = [] := (append_eq_nil_iff.mp hnil).1
  rw [hbuf] at hhead
  exact absurd hhead.length (by decide)

theorem length_took_of_stderrFormat {d : Delta}
    (h : stderrFormat lzo serverStderrFname host status d) : 12 ≤ d.took.length := by
  obtain ⟨_, _, d₂, ⟨_, buf, hhead, rfl⟩, -, rfl⟩ := h
  have hlen := hhead.length
  simp only [Delta.add_took, Delta.takes, length_append]
  omega

variable {lzo outputFname depsFname serverStderrFname host status} {w w' : World}

/-- The dependencies are read if there are any to read, or the head of theirs is not
found, which is overlooked. -/
theorem retrieveDeps_spec (h : retrieveDeps lzo depsFname host status w = some (.ok (), w')) :
    ((status = 0 → host.cppWhere = .onServer →
        ∃ len w₁, dccRTokenInt (lit "DOTD") w = some (.ok len, w₁)) ∧
      ∃ d, w.Step d w' ∧ depsFormat lzo depsFname host status () d) ∨
      (status = 0 ∧ host.cppWhere = .onServer) ∧
        ∃ e, dccRTokenInt (lit "DOTD") w = some (.error e, w') := by
  unfold retrieveDeps at h
  unfold depsFormat
  split at h
  · case isTrue hdeps =>
    rw [if_pos hdeps]
    obtain ⟨ret, w₁, htoken, hrest⟩ := attempt_bind_cases h
    rcases ret with e | len
    · obtain ⟨-, rfl⟩ := pure_eq_some_iff.mp hrest
      exact .inr ⟨hdeps, e, htoken⟩
    · obtain ⟨d₁, hstep1, hhead⟩ := follows_dccRTokenInt _ htoken
      refine .inl ⟨fun _ _ => ⟨len, w₁, htoken⟩, ?_⟩
      cases depsFname with
      | none =>
        obtain ⟨-, rfl⟩ := pure_eq_some_iff.mp hrest
        exact ⟨d₁ + 0, hstep1.trans (.refl w₁), len, d₁, 0, hhead, ⟨rfl, rfl⟩, rfl⟩
      | some fname =>
        obtain ⟨d₂, hstep2, hfile⟩ := follows_dccRFile _ _ _ _ hrest
        exact ⟨d₁ + d₂, hstep1.trans hstep2, len, d₁, d₂, hhead, hfile, rfl⟩
  · case isFalse hdeps =>
    rw [if_neg hdeps]
    obtain ⟨-, rfl⟩ := pure_eq_some_iff.mp h
    exact .inl ⟨fun hzero hserver => absurd ⟨hzero, hserver⟩ hdeps, 0, .refl w, rfl, rfl⟩

end Parts

/-! ### Complete responses -/

section Complete

variable {lzo : Lzo} {outputFname : CString} {depsFname : Option CString}
  {serverStderrFname : CString} {host : Hostdef} {status : ℕ} {w w' : World}

open Format

/-- The version, in the bytes that are there and in those that are read. -/
theorem take_took {d : Delta} (hstep : w.Step d w') (hlen : 12 ≤ d.took.length) :
    d.took.take 12 = w.incoming.take 12 := by
  rw [hstep.incoming, take_append_of_le_length hlen]

/-- If the errors of the compiler could not be put in the log, what was read is not a
response, for it ends before the output. -/
theorem not_isResponse_of_log {w₁ : World} {d₁ d : Delta} {status₁ : ℕ}
    (hformat : stderrFormat lzo serverStderrFname host status₁ d₁) (hstep1 : w.Step d₁ w₁)
    (hsilent : w₁.Silent w') (hstep : w.Step d w') :
    ¬IsResponse lzo outputFname depsFname serverStderrFname host status d := by
  intro hresponse
  obtain ⟨_, d₁', _, hformat', ⟨_, d₂', _, houtput, -, rfl⟩, rfl⟩ := hresponse.parts
  have htook := (hstep1.trans_zero hsilent).took_eq hstep
  rw [Delta.add_took, Delta.add_took] at htook
  have happend : d₁.took ++ [] = d₁'.took ++ (d₂'.took ++ _) := (append_nil _).trans htook
  obtain ⟨-, heq⟩ := delimits_stderrFormat _ _ _ hformat hformat' happend
  rw [heq] at happend
  have hnil := append_cancel_left happend
  exact took_ne_nil_of_outputFormat _ _ _ _ houtput (append_eq_nil_iff.mp hnil.symm).1

/-- If the head of the dependencies was not found, it was not there to be read. -/
theorem not_isResponse_of_deps {w₃ : World} {d₁₂ d : Delta} {e : Failure}
    (hparts : ((stderrFormat lzo serverStderrFname host).seq fun status =>
      (outputFormat lzo outputFname host status).seq fun _ => .done status) status d₁₂)
    (hstep12 : w.Step d₁₂ w₃) (hdeps : status = 0 ∧ host.cppWhere = .onServer)
    (htoken : dccRTokenInt (lit "DOTD") w₃ = some (.error e, w')) (hstep : w.Step d w') :
    ¬IsResponse lzo outputFname depsFname serverStderrFname host status d := by
  intro hresponse
  obtain ⟨s, d₁', _, hformat', ⟨_, d₂', _, houtput,
    ⟨_, d₃', _, hdeps', ⟨rfl, rfl⟩, rfl⟩, rfl⟩, rfl⟩ :=
    hresponse.parts
  rw [depsFormat, if_pos hdeps] at hdeps'
  obtain ⟨n, _, d₄', ⟨buf, hhead, rfl⟩, -, rfl⟩ := hdeps'
  rcases dccRTokenInt_spec htoken with ⟨_, hr, -⟩ | ⟨_, k, -, hsame, hshort⟩
  · cases hr
  have hstep' := hstep12.trans (World.step_of_drop hsame)
  have htook := hstep'.took_eq hstep
  have hparts' : ((stderrFormat lzo serverStderrFname host).seq fun status =>
      (outputFormat lzo outputFname host status).seq fun _ => .done status) status (d₁' + d₂') :=
    ⟨status, d₁', d₂', hformat', ⟨(), d₂', 0, houtput, ⟨rfl, rfl⟩, (add_zero _).symm⟩, rfl⟩
  have hdelimits := (delimits_stderrFormat lzo serverStderrFname host).seq fun status =>
    (delimits_outputFormat lzo outputFname host status).seq fun _ => delimits_done status
  have happend : d₁₂.took ++ w₃.incoming.take k = (d₁' + d₂').took ++ (buf ++ d₄'.took) := by
    simpa [Delta.takes] using htook
  obtain ⟨-, heq⟩ := hdelimits hparts hparts' happend
  rw [heq] at happend
  have hbytes := append_cancel_left happend
  -- so the head was there, and more than it was read
  have hlen := congrArg List.length hbytes
  rw [length_append, hhead.length, length_take] at hlen
  have htake : w₃.incoming.take 12 = buf := by
    have htake' := congrArg (List.take 12) hbytes
    rwa [take_take, min_eq_left (by omega), ← hhead.length, take_left, hhead.length]
      at htake'
  have hk := hshort n (htake ▸ hhead)
  omega

/-- **A response that `dcc_retrieve_results` returned 0 for is complete exactly if** the
version is right, the errors of the compiler could be put in the log for the
maintainers, and the head of the dependencies was found where there should be one. -/
theorem dccRetrieveResults_isResponse_iff
    (h : dccRetrieveResults lzo outputFname depsFname serverStderrFname host w =
      some (.ok status, w')) :
    (∃ d, w.Step d w' ∧ IsResponse lzo outputFname depsFname serverStderrFname host status d) ↔
      IsHead (lit "DONE") host.protover.toNat (w.incoming.take 12) ∧
      ∃ w₁ w₂ w₃, retrieveStderr lzo serverStderrFname host w = some (.ok status, w₁) ∧
        dccAddFileToLogEmail (lit "server-side stderr") serverStderrFname w₁ =
          some (.ok (), w₂) ∧
        retrieveOutput lzo outputFname host status w₂ = some (.ok (), w₃) ∧
        (status = 0 → host.cppWhere = .onServer →
          ∃ len w₄, dccRTokenInt (lit "DOTD") w₃ = some (.ok len, w₄)) := by
  obtain ⟨status₁, w₁, hstderr, hrest⟩ := bind_eq_ok_iff.mp h
  obtain ⟨ret, w₂, hlog, hrest2⟩ := attempt_bind_cases hrest
  have hsilent := dccAddFileToLogEmail_silent _ _ hlog
  obtain ⟨d₁, hstep1, hformat1⟩ := follows_retrieveStderr _ _ _ hstderr
  have hlen1 := length_took_of_stderrFormat _ _ _ _ hformat1
  rcases ret with e | _
  · -- the log could not be written, and neither side holds
    obtain ⟨-, rfl⟩ := pure_eq_some_iff.mp hrest2
    constructor
    · rintro ⟨d, hstep, hresponse⟩
      exact absurd hresponse (not_isResponse_of_log hformat1 hstep1 hsilent hstep)
    · rintro ⟨-, w₁', _, _, hstderr', hlog', -⟩
      obtain ⟨-, rfl⟩ := run_unique hstderr hstderr'
      cases (run_unique hlog hlog').1
  obtain ⟨_, w₃, houtput, hrest3⟩ := bind_eq_ok_iff.mp hrest2
  obtain ⟨_, w₄, hdeps, hend⟩ := bind_eq_ok_iff.mp hrest3
  obtain ⟨rfl, rfl⟩ := pure_eq_ok_iff.mp hend
  obtain ⟨d₂, hstep2, hformat2⟩ := follows_retrieveOutput _ _ _ _ houtput
  have hstep12 : w.Step (d₁ + d₂) w₃ := (hstep1.trans_zero hsilent).trans hstep2
  have hlen (d : Delta) : 12 ≤ (d₁ + d).took.length := by
    rw [Delta.add_took, length_append]
    omega
  rcases retrieveDeps_spec hdeps with ⟨hfound, d₃, hstep3, hformat3⟩ | ⟨hserver, e, htoken⟩
  · have hstep : w.Step (d₁ + (d₂ + d₃)) w₄ := by
      rw [← add_assoc]
      exact hstep12.trans hstep3
    constructor
    · rintro ⟨d, hstep', hresponse⟩
      refine ⟨?_, w₁, w₂, w₃, hstderr, hlog, houtput, hfound⟩
      have hversion := hresponse.version
      rwa [← hstep.took_eq hstep', take_took hstep (hlen _)] at hversion
    · rintro ⟨hversion, -⟩
      refine ⟨_, hstep, ?_, ?_⟩
      · rwa [take_took hstep (hlen _)]
      · exact ⟨status₁, d₁, _, hformat1, ⟨(), d₂, _, hformat2,
          ⟨(), d₃, 0, hformat3, ⟨rfl, rfl⟩, (add_zero _).symm⟩, rfl⟩, rfl⟩
  · have hparts : ((stderrFormat lzo serverStderrFname host).seq fun status =>
        (outputFormat lzo outputFname host status).seq fun _ => .done status) status₁
          (d₁ + d₂) :=
      ⟨status₁, d₁, d₂, hformat1, ⟨(), d₂, 0, hformat2, ⟨rfl, rfl⟩, (add_zero _).symm⟩, rfl⟩
    constructor
    · rintro ⟨d, hstep, hresponse⟩
      exact absurd hresponse (not_isResponse_of_deps hparts hstep12 hserver htoken hstep)
    · rintro ⟨-, w₁', w₂', w₃', hstderr', hlog', houtput', hfound⟩
      obtain ⟨-, rfl⟩ := run_unique hstderr hstderr'
      obtain ⟨-, rfl⟩ := run_unique hlog hlog'
      obtain ⟨-, rfl⟩ := run_unique houtput houtput'
      obtain ⟨_, _, htoken'⟩ := hfound hserver.1 hserver.2
      cases (run_unique htoken htoken').1

end Complete

/-- A server of this version has sent an object of three bytes. -/
def World.ofResponse (version : ℕ) : World where
  neverSendEmail := true
  incoming := packetHead (lit "DONE") version ++ packetHead (lit "STAT") 0 ++
    packetString (lit "SERR") [] ++ packetString (lit "SOUT") [] ++
    packetString (lit "DOTO") (lit "obj")

/-- A small response is complete. -/
theorem dccRetrieveResults_isResponse_hello :
    ∃ w', dccRetrieveResults Lzo.runs (lit "a.o") none (lit "err") (Hostdef.ofName (lit "fast"))
        (World.ofResponse 1) = some (.ok 0, w') ∧
      ∃ d, (World.ofResponse 1).Step d w' ∧
        IsResponse Lzo.runs (lit "a.o") none (lit "err") (Hostdef.ofName (lit "fast")) 0 d := by
  let host := Hostdef.ofName (lit "fast")
  have hrun : (dccRetrieveResults Lzo.runs (lit "a.o") none (lit "err") host).yields
      (World.ofResponse 1) (fun status _ => status = 0) = true := by
    decide +kernel
  obtain ⟨_, w', hrun, hstatus⟩ := exists_of_yields hrun
  obtain rfl := of_decide_eq_true hstatus
  refine ⟨w', hrun, (dccRetrieveResults_isResponse_iff hrun).mpr ⟨?_, ?_⟩⟩
  · exact ⟨rfl, by decide, by decide⟩
  · have hparts : (retrieveStderr Lzo.runs (lit "err") host).yields (World.ofResponse 1)
        (fun status w₁ => status = 0 &&
          (dccAddFileToLogEmail (lit "server-side stderr") (lit "err")).yields w₁
            (fun _ w₂ => (retrieveOutput Lzo.runs (lit "a.o") host 0).yields w₂
              (fun _ _ => true))) = true := by
      decide +kernel
    obtain ⟨_, w₁, hstderr, hrest⟩ := exists_of_yields hparts
    obtain ⟨hzero, hrest⟩ := Bool.and_eq_true_iff.mp hrest
    obtain ⟨_, w₂, hlog, hrest⟩ := exists_of_yields hrest
    obtain ⟨_, w₃, houtput, -⟩ := exists_of_yields hrest
    obtain rfl := of_decide_eq_true hzero
    exact ⟨w₁, w₂, w₃, hstderr, hlog, houtput, nofun⟩

/-- **0 is returned for a response of another version.** -/
theorem dccRetrieveResults_accepts_version :
    ∃ w', dccRetrieveResults Lzo.runs (lit "a.o") none (lit "err") (Hostdef.ofName (lit "fast"))
        (World.ofResponse 7) = some (.ok 0, w') ∧
      ¬∃ d, (World.ofResponse 7).Step d w' ∧
        IsResponse Lzo.runs (lit "a.o") none (lit "err") (Hostdef.ofName (lit "fast")) 0 d := by
  have hrun : (dccRetrieveResults Lzo.runs (lit "a.o") none (lit "err")
      (Hostdef.ofName (lit "fast"))).yields (World.ofResponse 7)
        (fun status _ => status = 0) = true := by
    decide +kernel
  obtain ⟨_, w', hrun, hstatus⟩ := exists_of_yields hrun
  obtain rfl := of_decide_eq_true hstatus
  refine ⟨w', hrun, ?_⟩
  rintro ⟨d, hstep, hresponse⟩
  have hlen := hresponse.version.length
  rw [length_take] at hlen
  have hvalue := hresponse.version.value
  rw [take_took hstep (by omega)] at hvalue
  exact absurd hvalue (by decide)

end Distcc
