import Distcc.Bulk.Transmit
import Distcc.Filename

/-!
# The client's half of a request

Model of the sending functions of `src/clirpc.c`, of `dcc_send_header` and the rest of
what `dcc_compile_remote` (`src/remote.c`) sends, and of `dcc_get_original_fname`
(`src/include_server_if.c`).

A request is a version, a working directory if the server is to preprocess, the
arguments of the compiler, and either the preprocessed source or the files it is made
of. When nothing fails, the bytes that are sent are those of `requestBytes`
(`sendRequest_sends`).
-/

namespace Distcc

open CString Prog

/-! ### The functions -/

/-- `MAXPATHLEN` -/
def maxPathLen : ℕ := 4096

/-- `dcc_x_req_header` -/
def dccXReqHeader (protover : Protover) : Io Unit := dccXTokenInt (lit "DIST") protover.toNat

/-- `dcc_argv_len`, which counts in an `unsigned`. -/
def dccArgvLen (argv : List CString) : ℕ := argv.length % 2 ^ 32

/-- The same number as an `int`. -/
def argcInt (argv : List CString) : ℤ := (dccArgvLen argv : ℤ).bmod (2 ^ 32)

/-- `dcc_x_argv`. The number of arguments is sent as an `unsigned`, and counted up to as
an `int`. -/
def dccXArgv (argcToken argvToken : CString) (argv : List CString) : Io Unit := do
  match ← (dccXTokenInt argcToken (argcInt argv % 2 ^ 32).toNat).attempt with
  | .error _ => Prog.fail ExitCode.protocolError.failure
  | .ok () => Prog.forEach (dccXTokenString argvToken) (argv.take (argcInt argv).toNat)

/-- `getcwd`, into a buffer of `MAXPATHLEN` bytes. -/
def getcwd : Io (Option CString) := do
  match ← syscall with
  | .error _ => pure none
  | .ok () => do
    let w ← Prog.get
    pure (if w.cwd.length < maxPathLen then some w.cwd else none)

/-- `dcc_x_cwd`. If the directory is not known, nothing is sent, and that is no error. -/
def dccXCwd : Io Unit := do
  match ← getcwd with
  | none => pure ()
  | some cwd => dccXTokenString (lit "CDIR") cwd

/-- The server gets to know the working directory if it is to preprocess. -/
def sendCwd (host : Hostdef) : Io Unit :=
  if host.cppWhere = .onServer then dccXCwd else pure ()

/-- `dcc_send_header` -/
def dccSendHeader (argv : List CString) (host : Hostdef) : Io Unit := do
  dccXReqHeader host.protover
  sendCwd host
  dccXArgv (lit "ARGC") (lit "ARGV") argv

/-- `dcc_read_link`: `readlink` fills a buffer of `MAXPATHLEN` bytes at most. -/
def dccReadLink (fname : CString) : Io CString := do
  match ← syscall with
  | .error _ => Prog.fail ExitCode.ioError.failure
  | .ok () => do
    let w ← Prog.get
    match w.links fname with
    | none => Prog.fail ExitCode.ioError.failure
    | some target => pure (target.take maxPathLen)

/-- `dcc_is_link` -/
def dccIsLink (fname : CString) : Io Bool := do
  match ← syscall with
  | .error _ => Prog.fail ExitCode.ioError.failure
  | .ok () => do
    let w ← Prog.get
    match w.links fname, w.files fname with
    | some _, _ => pure true
    | none, some _ => pure false
    | none, none => Prog.fail ExitCode.ioError.failure

/-- What is left of an absolute name without its first directories. -/
def dropDirs : ℕ → CString → Option CString
  | 0, work => some work
  | n + 1, work =>
    match work.tail.dropWhile (· ≠ '/'.toUInt8) with
    | [] => none
    | rest => dropDirs n rest

/-- A name without this extension. -/
def stripExten (extension work : CString) : CString :=
  if dccFindExtension work = some extension then work.take (work.length - extension.length)
  else work

/-- The name on the client of a file in the directory of the include server, which is
three directories deep. -/
def originalFname (fname : CString) : Option CString :=
  (dropDirs 3 fname).map fun work => stripExten (lit ".lzo") (stripExten (lit ".abs") work)

/-- `dcc_get_original_fname` -/
def dccGetOriginalFname (fname : CString) : Io CString := do
  if ← alloc then
    match originalFname fname with
    | none => Prog.fail Failure.one
    | some work => do if ← alloc then pure work else Prog.fail ExitCode.outOfMemory.failure
  else Prog.fail ExitCode.outOfMemory.failure

section

variable (lzo : Lzo)

/-- A turn of the loop in `dcc_x_many_files`. The file should be compressed already. -/
def xManyFilesTurn (fname : CString) : Io Unit := do
  let originalFname ← dccGetOriginalFname fname
  if ← dccIsLink fname then
    let linkPointsTo ← dccReadLink fname
    dccXTokenString (lit "NAME") originalFname
    dccXTokenString (lit "LINK") linkPointsTo
  else
    dccXTokenString (lit "NAME") originalFname
    dccXFile lzo fname (lit "FILE") .none

/-- `dcc_x_many_files`. Whether the number of files could be sent is not looked at. -/
def dccXManyFiles (nFiles : ℕ) (fnames : List CString) : Io Unit := do
  let _ ← (dccXTokenInt (lit "NFIL") nFiles).attempt
  Prog.forEach (xManyFilesTurn lzo) fnames

/-- What `dcc_compile_remote` sends. -/
def sendRequest (argv : List CString) (cppFname : CString) (files : List CString)
    (host : Hostdef) : Io Unit := do
  dccSendHeader argv host
  if host.cppWhere = .onServer then dccXManyFiles lzo (dccArgvLen files) files
  else dccXFile lzo cppFname (lit "DOTI") host.compr

end

/-! ### What is asked for -/

/-- A file the server is to have. -/
inductive Entry where
  /-- A symbolic link. -/
  | link (name target : CString)
  /-- A file with this text in it. -/
  | file (name text : CString)
  deriving DecidableEq, Repr

/-- What the compiler is to work on. -/
inductive Payload where
  /-- The preprocessed source. -/
  | source (content : CString)
  /-- The files it is made of. -/
  | files (entries : List Entry)
  deriving DecidableEq, Repr

section

variable (lzo : Lzo)

/-- The include server has put the entry under this name, a file compressed. -/
def Entry.At (w : World) (fname : CString) : Entry → Prop
  | .link name target => originalFname fname = some name ∧ w.links fname = some target
  | .file name text =>
    originalFname fname = some name ∧ w.links fname = none ∧
      w.files fname = some (lzo.compress text)

/-- The entry as it is sent. -/
def Entry.packets : Entry → CString
  | .link name target => packetString (lit "NAME") name ++ packetString (lit "LINK") target
  | .file name text =>
    packetString (lit "NAME") name ++ packetString (lit "FILE") (lzo.compress text)

/-- Names are C strings whose length can be sent, a target is no longer than a path can
be, and a body can be unpacked. -/
def Entry.Fits : Entry → Prop
  | .link name target =>
    (name.NulFree ∧ name.length < 2 ^ 32) ∧ target.NulFree ∧ target.length ≤ maxPathLen
  | .file name text =>
    (name.NulFree ∧ name.length < 2 ^ 32) ∧ (lzo.compress text).length < 2 ^ 29

/-- The payload is there for the client to send. -/
def Payload.At (w : World) (host : Hostdef) (cppFname : CString) (fnames : List CString) :
    Payload → Prop
  | .source content => host.cppWhere = .onClient ∧ w.files cppFname = some content
  | .files entries => host.cppWhere = .onServer ∧ List.Forall₂ (Entry.At lzo w) fnames entries

/-- Every body that is sent can be unpacked, and every number that is sent is one of 32
bits. -/
def Payload.Fits (compr : Compress) : Payload → Prop
  | .source content => (fileBody lzo compr (sentText compr content)).length < 2 ^ 29
  | .files entries => entries.length < 2 ^ 32 ∧ ∀ e ∈ entries, e.Fits lzo

/-- The payload as it is sent. -/
def Payload.packets (compr : Compress) : Payload → CString
  | .source content => fileFrame lzo (lit "DOTI") compr content
  | .files entries => packetHead (lit "NFIL") entries.length ++ entries.flatMap (Entry.packets lzo)

/-- The arguments that are sent: none, if the `int` that counts them is negative. -/
def argvSent (argv : List CString) : List CString := if argv.length < 2 ^ 31 then argv else []

/-- A request, as it is sent. -/
def requestBytes (host : Hostdef) (cwd : CString) (argv : List CString) (payload : Payload) :
    CString :=
  packetHead (lit "DIST") host.protover.toNat ++
    ((if host.cppWhere = .onServer then packetString (lit "CDIR") cwd else []) ++
      (packetHead (lit "ARGC") argv.length ++
        ((argvSent argv).flatMap (packetString (lit "ARGV")) ++ payload.packets lzo host.compr)))

/-- **A client that is about to send a request**, on a system where nothing fails and the
working directory is known. -/
structure Client.Ready (w : World) (host : Hostdef) (argv : List CString) (cppFname : CString)
    (fnames : List CString) (payload : Payload) : Prop where
  benign : w.Benign
  features : dccGetFeaturesFromProtover host.protover.toNat = (host.compr, host.cppWhere, false)
  cwd : w.cwd.NulFree ∧ w.cwd.length < maxPathLen
  argc : argv.length < 2 ^ 32
  argv : ∀ a ∈ argv, a.NulFree ∧ a.length < 2 ^ 32
  there : payload.At lzo w host cppFname fnames
  fits : payload.Fits lzo host.compr

end

/-! ### What is sent -/

section Sends

variable {lzo : Lzo} {w : World} {argv fnames : List CString}

theorem dccArgvLen_of_lt (h : argv.length < 2 ^ 32) :
    dccArgvLen argv = argv.length := Nat.mod_eq_of_lt h

/-- From 2³¹ arguments on, the `int` is negative. -/
theorem argcInt_of_lt (h : argv.length < 2 ^ 32) :
    argcInt argv = if argv.length < 2 ^ 31 then (argv.length : ℤ) else argv.length - 2 ^ 32 := by
  unfold argcInt
  rw [dccArgvLen_of_lt h]
  generalize argv.length = n at *
  have hmod : (n : ℤ) % ((2 ^ 32 : ℕ) : ℤ) = n := by omega
  rw [Int.bmod, hmod]
  split <;> split <;> omega

/-- Sent as an `unsigned`, it is the number of arguments again. -/
theorem argcInt_mod (h : argv.length < 2 ^ 32) : (argcInt argv % 2 ^ 32).toNat = argv.length := by
  rw [argcInt_of_lt h]
  split <;> omega

theorem take_argcInt (h : argv.length < 2 ^ 32) :
    argv.take (argcInt argv).toNat = argvSent argv := by
  rw [argcInt_of_lt h, argvSent]
  split
  · rw [Int.toNat_natCast, List.take_length]
  · have hneg : ((argv.length : ℤ) - 2 ^ 32).toNat = 0 := by omega
    rw [hneg, List.take_zero]

/-- Strings are sent one by one. -/
theorem forEach_dccXTokenString_sends {token : CString} (h4 : token.length = 4)
    (words : List CString) (hw : w.Benign) :
    ∃ w', Prog.forEach (dccXTokenString token) words w = some (.ok (), w') ∧
      w.Step (.gives (words.flatMap (packetString token))) w' := by
  refine forEach_sends (P := fun _ => True) (fun _ _ _ _ _ => trivial) ?_ hw trivial
  exact List.forall₂_same.mpr fun word _ w hw _ => dccXTokenString_sends h4 word hw

theorem dccXArgv_sends {argcToken argvToken : CString}
    (hargc : argcToken.length = 4) (hargv : argvToken.length = 4) (hlen : argv.length < 2 ^ 32)
    (hw : w.Benign) :
    ∃ w', dccXArgv argcToken argvToken argv w = some (.ok (), w') ∧
      w.Step (.gives (packetHead argcToken argv.length ++
        (argvSent argv).flatMap (packetString argvToken))) w' := by
  obtain ⟨w₁, hhead, hsame⟩ := dccXTokenInt_sends hargc argv.length hw
  have hstep := World.step_of_put hsame
  obtain ⟨w', hwords, hstep'⟩ :=
    forEach_dccXTokenString_sends hargv (argvSent argv) (hstep.benign hw)
  refine ⟨w', ?_, hstep.trans hstep'⟩
  rw [dccXArgv, argcInt_mod hlen, take_argcInt hlen,
    bind_of_ok (attempt_eq_ok_iff.mpr hhead)]
  exact hwords

theorem dccXCwd_sends (hcwd : w.cwd.length < maxPathLen) (hw : w.Benign) :
    ∃ w', dccXCwd w = some (.ok (), w') ∧
      w.Step (.gives (packetString (lit "CDIR") w.cwd)) w' := by
  obtain ⟨w₁, hcall, hsame⟩ := syscall_succeeds hw
  have hcwd1 : w₁.cwd = w.cwd := hsame.step.cwd
  have hget : getcwd w = some (.ok (some w.cwd), w₁) := by
    rw [getcwd, bind_of_ok hcall]
    dsimp only
    rw [get_bind, hcwd1, if_pos hcwd]
    rfl
  obtain ⟨w', hrun, hstep⟩ := dccXTokenString_sends (rfl : (lit "CDIR").length = 4) w.cwd
    (hsame.benign hw)
  exact ⟨w', (bind_of_ok hget).trans hrun, hsame.step.zero_trans hstep⟩

theorem dccGetOriginalFname_returns {fname name : CString} (h : originalFname fname = some name)
    (hw : w.Benign) :
    ∃ w', dccGetOriginalFname fname w = some (.ok name, w') ∧ w.Same w' := by
  obtain ⟨w₁, hsame, hrun⟩ := alloc_then_of_benign (match originalFname fname with
    | none => Prog.fail Failure.one
    | some work => do if ← alloc then pure work else Prog.fail ExitCode.outOfMemory.failure)
    ExitCode.outOfMemory.failure hw
  obtain ⟨w₂, hsame', hrun'⟩ := alloc_then_of_benign (pure name) ExitCode.outOfMemory.failure
    (hsame.benign hw)
  refine ⟨w₂, ?_, hsame.trans hsame'⟩
  rw [h] at hrun
  rw [dccGetOriginalFname, h]
  exact hrun.trans hrun'

theorem dccReadLink_returns {fname target : CString} (h : w.links fname = some target)
    (hlen : target.length ≤ maxPathLen) (hw : w.Benign) :
    ∃ w', dccReadLink fname w = some (.ok target, w') ∧ w.Same w' := by
  obtain ⟨w₁, hcall, hsame⟩ := syscall_succeeds hw
  have hlink : w₁.links fname = some target := by
    rw [hsame.step.links rfl, h]
  refine ⟨w₁, ?_, hsame⟩
  rw [dccReadLink, bind_of_ok hcall]
  dsimp only
  rw [get_bind, hlink]
  dsimp only
  rw [List.take_of_length_le hlen]
  rfl

theorem dccIsLink_returns (fname : CString) (isLink : Bool)
    (h : if isLink then w.links fname ≠ none else w.links fname = none ∧ w.files fname ≠ none)
    (hw : w.Benign) : ∃ w', dccIsLink fname w = some (.ok isLink, w') ∧ w.Same w' := by
  obtain ⟨w₁, hcall, hsame⟩ := syscall_succeeds hw
  refine ⟨w₁, ?_, hsame⟩
  rw [dccIsLink, bind_of_ok hcall]
  dsimp only
  rw [get_bind, hsame.step.links rfl, hsame.step.files rfl]
  cases isLink with
  | true =>
    obtain ⟨target, htarget⟩ := Option.ne_none_iff_exists'.mp h
    rw [htarget]
    rfl
  | false =>
    obtain ⟨content, hcontent⟩ := Option.ne_none_iff_exists'.mp h.2
    rw [h.1, hcontent]
    rfl

/-- An entry is sent. -/
theorem xManyFilesTurn_sends {fname : CString} {e : Entry} (hat : e.At lzo w fname)
    (hfits : e.Fits lzo) (hw : w.Benign) :
    ∃ w', xManyFilesTurn lzo fname w = some (.ok (), w') ∧
      w.Step (.gives (e.packets lzo)) w' := by
  cases e with
  | link name target =>
    obtain ⟨w₁, hname, hsame1⟩ := dccGetOriginalFname_returns hat.1 hw
    have hlink1 : w₁.links fname = some target := by rw [hsame1.step.links rfl, hat.2]
    obtain ⟨w₂, hislink, hsame2⟩ := dccIsLink_returns fname true (by simp [hlink1])
      (hsame1.benign hw)
    have hlink2 : w₂.links fname = some target := by rw [hsame2.step.links rfl, hlink1]
    obtain ⟨w₃, hread, hsame3⟩ := dccReadLink_returns hlink2 hfits.2.2
      ((hsame1.trans hsame2).benign hw)
    have hsame := (hsame1.trans hsame2).trans hsame3
    obtain ⟨w₄, hsendName, hstep4⟩ := dccXTokenString_sends (rfl : (lit "NAME").length = 4) name
      (hsame.benign hw)
    obtain ⟨w', hsendLink, hstep'⟩ := dccXTokenString_sends (rfl : (lit "LINK").length = 4) target
      (hstep4.benign (hsame.benign hw))
    refine ⟨w', ?_, hsame.step.zero_trans (hstep4.trans hstep')⟩
    rw [xManyFilesTurn, bind_of_ok hname, bind_of_ok hislink, if_pos rfl,
      bind_of_ok hread, bind_of_ok hsendName]
    exact hsendLink
  | file name text =>
    obtain ⟨w₁, hname, hsame1⟩ := dccGetOriginalFname_returns hat.1 hw
    have hlink1 : w₁.links fname = none := by rw [hsame1.step.links rfl, hat.2.1]
    have hfile1 : w₁.files fname = some (lzo.compress text) := by
      rw [hsame1.step.files rfl, hat.2.2]
    obtain ⟨w₂, hislink, hsame2⟩ := dccIsLink_returns fname false (by simp [hlink1, hfile1])
      (hsame1.benign hw)
    have hsame := hsame1.trans hsame2
    obtain ⟨w₃, hsendName, hstep3⟩ := dccXTokenString_sends (rfl : (lit "NAME").length = 4) name
      (hsame.benign hw)
    have hfile3 : w₃.files fname = some (lzo.compress text) := by
      rw [hstep3.files rfl, hsame2.step.files rfl, hfile1]
    obtain ⟨w', hsendFile, hstep'⟩ := dccXFile_sends lzo .none hfile3
      (rfl : (lit "FILE").length = 4) (hstep3.benign (hsame.benign hw))
    refine ⟨w', ?_, hsame.step.zero_trans (hstep3.trans hstep')⟩
    rw [xManyFilesTurn, bind_of_ok hname, bind_of_ok hislink, if_neg Bool.false_ne_true,
      bind_of_ok hsendName]
    exact hsendFile

theorem Entry.At.congr {w' : World} {fname : CString} {e : Entry} (h : e.At lzo w fname)
    (hfiles : w'.files = w.files) (hlinks : w'.links = w.links) : e.At lzo w' fname := by
  cases e with
  | link name target => exact ⟨h.1, by rw [hlinks, h.2]⟩
  | file name text => exact ⟨h.1, by rw [hlinks, h.2.1], by rw [hfiles, h.2.2]⟩

theorem dccXManyFiles_sends {entries : List Entry}
    (hat : List.Forall₂ (Entry.At lzo w) fnames entries) (hlen : entries.length < 2 ^ 32)
    (hfits : ∀ e ∈ entries, e.Fits lzo) (hw : w.Benign) :
    ∃ w', dccXManyFiles lzo (dccArgvLen fnames) fnames w = some (.ok (), w') ∧
      w.Step (.gives ((Payload.files entries).packets lzo .lzo1x)) w' := by
  rw [← hat.length_eq] at hlen
  obtain ⟨w₁, hhead, hsame⟩ := dccXTokenInt_sends (rfl : (lit "NFIL").length = 4) fnames.length hw
  have hstep := World.step_of_put hsame
  -- every turn finds the files where they were before
  have hturns : List.Forall₂ (fun fname e => ∀ w₂ : World, w₂.Benign →
      (w₂.files = w.files ∧ w₂.links = w.links) →
        ∃ w', xManyFilesTurn lzo fname w₂ = some (.ok (), w') ∧
          w₂.Step (.gives (e.packets lzo)) w') fnames entries := by
    have hboth := (List.forall₂_and_left _ _).mpr ⟨hfits, hat.flip⟩
    refine hboth.flip.imp ?_
    rintro fname e ⟨hfit, hthere⟩ w₂ hw2 ⟨hfiles, hlinks⟩
    exact xManyFilesTurn_sends (Entry.At.congr hthere hfiles hlinks) hfit hw2
  obtain ⟨w', hrun, hstep'⟩ :=
    forEach_sends (P := fun w₂ => w₂.files = w.files ∧ w₂.links = w.links)
    (fun _ _ _ hP hgave => ⟨(hgave.files rfl).trans hP.1, (hgave.links rfl).trans hP.2⟩) hturns
    (hstep.benign hw) ⟨hstep.files rfl, hstep.links rfl⟩
  refine ⟨w', ?_, ?_⟩
  · rw [dccXManyFiles, dccArgvLen_of_lt hlen,
      bind_of_ok (attempt_eq_ok_iff.mpr hhead)]
    exact hrun
  · rw [Payload.packets, ← hat.length_eq]
    exact hstep.trans hstep'

theorem dccSendHeader_sends (host : Hostdef)
    (hcwd : w.cwd.length < maxPathLen) (hlen : argv.length < 2 ^ 32) (hw : w.Benign) :
    ∃ w', dccSendHeader argv host w = some (.ok (), w') ∧
      w.Step (.gives (packetHead (lit "DIST") host.protover.toNat ++
        ((if host.cppWhere = .onServer then packetString (lit "CDIR") w.cwd else []) ++
          (packetHead (lit "ARGC") argv.length ++
            (argvSent argv).flatMap (packetString (lit "ARGV")))))) w' := by
  obtain ⟨w₁, hhead, hsame⟩ := dccXTokenInt_sends (rfl : (lit "DIST").length = 4)
    host.protover.toNat hw
  have hstep := World.step_of_put hsame
  have hw1 := hstep.benign hw
  obtain ⟨w₂, hdir, hstep2⟩ : ∃ w₂,
      sendCwd host w₁ = some (.ok (), w₂) ∧
        w₁.Step (.gives (if host.cppWhere = .onServer then packetString (lit "CDIR") w.cwd else []))
          w₂ := by
    unfold sendCwd
    split
    · rw [← hstep.cwd] at hcwd ⊢
      exact dccXCwd_sends hcwd hw1
    · exact ⟨w₁, rfl, .refl w₁⟩
  obtain ⟨w', hargv, hstep'⟩ := dccXArgv_sends (rfl : (lit "ARGC").length = 4)
    (rfl : (lit "ARGV").length = 4) hlen (hstep2.benign hw1)
  refine ⟨w', ?_, hstep.trans (hstep2.trans hstep')⟩
  rw [dccSendHeader, dccXReqHeader, bind_of_ok hhead, bind_of_ok hdir]
  exact hargv

/-- **When nothing fails, the client sends these bytes.** -/
theorem sendRequest_sends {host : Hostdef} {cppFname : CString} {payload : Payload}
    (h : Client.Ready lzo w host argv cppFname fnames payload) :
    ∃ w', sendRequest lzo argv cppFname fnames host w = some (.ok (), w') ∧
      w.Step (.gives (requestBytes lzo host w.cwd argv payload)) w' := by
  obtain ⟨w₁, hhead, hstep⟩ := dccSendHeader_sends host h.cwd.2 h.argc h.benign
  have hw1 := hstep.benign h.benign
  obtain ⟨w', hrun, hstep'⟩ : ∃ w',
      (if host.cppWhere = .onServer then dccXManyFiles lzo (dccArgvLen fnames) fnames
        else dccXFile lzo cppFname (lit "DOTI") host.compr) w₁ = some (.ok (), w') ∧
        w₁.Step (.gives (payload.packets lzo host.compr)) w' := by
    cases payload with
    | source content =>
      obtain ⟨hwhere, hfile⟩ := h.there
      rw [← hstep.files rfl] at hfile
      rw [if_neg (by simp [hwhere])]
      exact dccXFile_sends lzo host.compr hfile (rfl : (lit "DOTI").length = 4) hw1
    | files entries =>
      obtain ⟨hwhere, hat⟩ := h.there
      have hat1 : List.Forall₂ (Entry.At lzo w₁) fnames entries :=
        hat.imp fun _ _ hthere => hthere.congr (hstep.files rfl) (hstep.links rfl)
      rw [if_pos hwhere]
      exact dccXManyFiles_sends hat1 h.fits.1 h.fits.2 hw1
  refine ⟨w', (bind_of_ok hhead).trans hrun, ?_⟩
  have hall := hstep.trans hstep'
  rw [Delta.gives_add] at hall
  simpa [requestBytes] using hall

end Sends

end Distcc
