import Distcc.Bulk.Receive
import Distcc.Request.Client

/-!
# The server's half of a request

Model of `src/srvrpc.c`, and of the calls by which `dcc_run_job` (`src/serve.c`) reads a
request. The version the client sends tells the server what comes after it.
-/

namespace Distcc

open CString Prog

/-! ### The functions -/

/-- `dcc_r_request_header`. That there is no version 0 is not checked here. -/
def dccRRequestHeader : Io ℕ := do
  let vers ← dccRTokenInt (lit "DIST")
  if vers > 3 then Prog.fail ExitCode.protocolError.failure else pure vers

/-- `dcc_r_cwd` -/
def dccRCwd : Io CString := dccRTokenString (lit "CDIR")

/-- `prepend_dir_to_name` -/
def prependDirToName (dirname path : CString) : Io CString := do
  if ← alloc then pure (dirname ++ path) else Prog.fail ExitCode.outOfMemory.failure

/-- `dcc_add_cleanup`, for something that is of no use without it. -/
def addCleanupOrUnlink (name : CString) : Io Unit := do
  match ← (dccAddCleanup name).attempt with
  | .ok () => pure ()
  | .error ret => do
    let _ ← unlink name
    Prog.fail ret

/-- A link is made, and put on the record. -/
def World.linked (w : World) (target name : CString) : World :=
  { w with
    links := Function.update w.links name (some target)
    log := w.log ++ [.symlink target name]
    calls := w.calls ++ [.symlink target name] }

/-- `symlink` -/
def symlink (target name : CString) : Io (Except Errno Unit) := change (·.linked target name)

/-- The target of a link: an absolute one is put into the directory as well. -/
def placeTarget (dirname linkTarget : CString) : Io CString :=
  if linkTarget.head? = some '/'.toUInt8 then prependDirToName dirname linkTarget
  else pure linkTarget

/-- A link, in `dcc_r_many_files`. -/
def receiveLink (dirname name : CString) (linkLen : ℕ) : Io Unit := do
  let linkTarget ← dccRStrAlloc linkLen
  let linkTarget ← placeTarget dirname linkTarget
  dccMkTmpAncestorDirs name
  match ← symlink linkTarget name with
  | .error _ => Prog.fail Failure.one
  | .ok () => addCleanupOrUnlink name

section

variable (lzo : Lzo)

/-- A link or a file, in `dcc_r_many_files`. -/
def receiveEntry (dirname name : CString) (compr : Compress) (token : CString)
    (linkOrFileLen : ℕ) : Io Unit :=
  if token = lit "LINK" then receiveLink dirname name linkOrFileLen
  else if token = lit "FILE" then do
    dccRFile lzo name linkOrFileLen compr
    addCleanupOrUnlink name
  else mismatch

/-- A turn of the loop in `dcc_r_many_files`. -/
def rManyFilesTurn (dirname : CString) (compr : Compress) : Io Unit := do
  let name ← dccRTokenString (lit "NAME")
  let name ← prependDirToName dirname name
  let (token, linkOrFileLen) ← dccRSometokenInt
  receiveEntry lzo dirname name compr token linkOrFileLen

/-- `dcc_r_many_files` -/
def dccRManyFiles (dirname : CString) (compr : Compress) : Io Unit := do
  let nFiles ← dccRTokenInt (lit "NFIL")
  let _ ← Prog.times (rManyFilesTurn lzo dirname compr) nFiles
  pure ()

/-- What a request tells the server, apart from the files. -/
structure Received where
  /-- The version of the protocol. -/
  protover : ℕ
  /-- The working directory of the client. -/
  cwd : Option CString
  /-- The arguments of the compiler. -/
  argv : List CString
  deriving DecidableEq, Repr

/-- The working directory, if it is sent. -/
def readCwd (cppWhere : CppWhere) : Io (Option CString) :=
  match cppWhere with
  | .onClient => pure none
  | .onServer => do
    let cwd ← dccRCwd
    pure (some cwd)

/-- The payload: the files go to the directory, the source to `tempI`. -/
def readPayload (dirname tempI : CString) (compr : Compress) (cppWhere : CppWhere) : Io Unit :=
  match cppWhere with
  | .onClient => dccRTokenFile lzo (lit "DOTI") tempI compr
  | .onServer => dccRManyFiles lzo dirname compr

/-- The calls by which `dcc_run_job` reads a request. -/
def readRequest (dirname tempI : CString) : Io Received := do
  let protover ← dccRRequestHeader
  let (compr, cppWhere, _) := dccGetFeaturesFromProtover protover
  let cwd ← readCwd cppWhere
  let argv ← dccRArgv (lit "ARGC") (lit "ARGV")
  readPayload lzo dirname tempI compr cppWhere
  pure ⟨protover, cwd, argv⟩

end

/-! ### What is made of a request -/

/-- The target of a link, as the server makes it. -/
def placedTarget (dirname target : CString) : CString :=
  if target.head? = some '/'.toUInt8 then dirname ++ target else target

/-- What the server makes of an entry. -/
def Entry.effect (dirname : CString) : Entry → Effect
  | .link name target => .symlink (placedTarget dirname target) (dirname ++ name)
  | .file name text => .file (dirname ++ name) text

/-- What the server makes of a payload. -/
def Payload.effects (dirname tempI : CString) : Payload → List Effect
  | .source content => [.file tempI content]
  | .files entries => entries.map (Entry.effect dirname)

/-- The payload that comes out of the bytes that are sent for one. -/
def Payload.arrives (compr : Compress) : Payload → Payload
  | .source content => .source (sentText compr content)
  | .files entries => .files entries

section Reads

variable {lzo : Lzo} {w : World} {dirname tempI rest : CString}

theorem dccRRequestHeader_reads (protover : Protover) (hw : w.Benign)
    (hin : w.incoming = packetHead (lit "DIST") protover.toNat ++ rest) :
    ∃ w', dccRRequestHeader w = some (.ok protover.toNat, w') ∧
      w.Step (.takes (packetHead (lit "DIST") protover.toNat)) w' := by
  have hle : protover.toNat ≤ 3 := by cases protover <;> decide
  obtain ⟨w', hrun, hstep⟩ := dccRTokenInt_reads rfl (by omega) hw hin
  refine ⟨w', ?_, hstep⟩
  rw [dccRRequestHeader, bind_of_ok hrun, if_neg (by omega)]
  rfl

theorem prependDirToName_returns (dirname path : CString) (hw : w.Benign) :
    ∃ w', prependDirToName dirname path w = some (.ok (dirname ++ path), w') ∧ w.Same w' := by
  obtain ⟨w', hsame, hrun⟩ :=
    alloc_then_of_benign (pure (dirname ++ path)) ExitCode.outOfMemory.failure hw
  exact ⟨w', hrun, hsame⟩

theorem placeTarget_returns (dirname target : CString) (hw : w.Benign) :
    ∃ w', placeTarget dirname target w = some (.ok (placedTarget dirname target), w') ∧
      w.Same w' := by
  unfold placeTarget placedTarget
  split
  · exact prependDirToName_returns dirname target hw
  · exact ⟨w, rfl, .refl w⟩

theorem addCleanupOrUnlink_returns (name : CString) (hw : w.Benign) :
    ∃ w', addCleanupOrUnlink name w = some (.ok (), w') ∧ w.Same w' := by
  obtain ⟨w', hsame, hrun⟩ := alloc_then_of_benign (pure ()) ExitCode.outOfMemory.failure hw
  have hadd : dccAddCleanup name w = some (.ok (), w') := hrun
  exact ⟨w', bind_of_ok (attempt_eq_ok_iff.mpr hadd), hsame⟩

theorem World.does_linked (w : World) (target name : CString) :
    w.Does (.makes (.symlink target name)) (w.linked target name) := by
  refine ⟨rfl, ?_, ?_, rfl, rfl, List.suffix_refl _⟩
  all_goals exact (List.append_nil _).symm

/-- A link is received. -/
theorem receiveLink_reads (name : CString) {target : CString} (hnul : target.NulFree)
    (hw : w.Benign) (hin : w.incoming = target ++ rest) :
    ∃ w', receiveLink dirname name target.length w = some (.ok (), w') ∧
      w.Step (.takes target + .makes (.symlink (placedTarget dirname target) name)) w' := by
  obtain ⟨w₁, hread, hstep⟩ := dccRStrAlloc_reads hnul hw hin
  have hw1 := hstep.benign hw
  obtain ⟨w₂, hplace, hsame2⟩ := placeTarget_returns dirname target hw1
  obtain ⟨w₃, hdirs⟩ := dccMkTmpAncestorDirs_returns name (hsame2.benign hw1)
  have hstep3 : w.Step (.takes target) w₃ :=
    (hstep.trans_zero hsame2.step).trans_zero (dccMkTmpAncestorDirs_silent name hdirs)
  obtain ⟨w₄, hlink, hsame4⟩ := change_succeeds (·.linked (placedTarget dirname target) name)
    (hstep3.benign hw)
  have hdoes : w.Does (.takes target + .makes (.symlink (placedTarget dirname target) name))
      (w₄.linked (placedTarget dirname target) name) :=
    (hsame4.does hstep3.toDoes).trans (World.does_linked _ _ _)
  obtain ⟨w', hadd, hsame'⟩ := addCleanupOrUnlink_returns name (hdoes.benign hw)
  refine ⟨w', ?_, (hsame'.does hdoes).step (List.cons_ne_nil _ _)⟩
  rw [receiveLink, bind_of_ok hread, bind_of_ok hplace, bind_of_ok hdirs, symlink,
    bind_of_ok hlink]
  exact hadd

/-- The name of an entry is received, and what it is. -/
theorem rManyFilesTurn_head (lzo : Lzo) (dirname : CString) {name token : CString} {n : ℕ}
    (hname : name.NulFree) (hlen : name.length < 2 ^ 32) (h4 : token.length = 4)
    (hnul : token.NulFree) (hn : n < 2 ^ 32) (hw : w.Benign)
    (hin : w.incoming = packetString (lit "NAME") name ++ (packetHead token n ++ rest)) :
    ∃ w₁, w.Step (.takes (packetString (lit "NAME") name ++ packetHead token n)) w₁ ∧
      rManyFilesTurn lzo dirname .lzo1x w =
        receiveEntry lzo dirname (dirname ++ name) .lzo1x token n w₁ := by
  obtain ⟨w₁, hread, hstep1⟩ := dccRTokenString_reads rfl hname hlen hw hin
  have hw1 := hstep1.benign hw
  obtain ⟨w₂, hdir, hsame⟩ := prependDirToName_returns dirname name hw1
  have hin2 : w₂.incoming = packetHead token n ++ rest :=
    (hsame.input .connection).trans (hstep1.incoming_eq hin)
  obtain ⟨w₃, htoken, hstep3⟩ := dccRSometokenInt_reads h4 hnul hn (hsame.benign hw1) hin2
  refine ⟨w₃, (hstep1.trans_zero hsame.step).trans hstep3, ?_⟩
  rw [rManyFilesTurn, bind_of_ok hread, bind_of_ok hdir, bind_of_ok htoken]

/-- An entry is received. -/
theorem rManyFilesTurn_reads {e : Entry} (hfits : e.Fits lzo) (hw : w.Benign)
    (hin : w.incoming = e.packets lzo ++ rest) :
    ∃ w', rManyFilesTurn lzo dirname .lzo1x w = some (.ok (), w') ∧
      w.Step (.takes (e.packets lzo) + .makes (e.effect dirname)) w' := by
  cases e with
  | link name target =>
    obtain ⟨⟨hname, hlen⟩, hnul, hpath⟩ := hfits
    rw [maxPathLen] at hpath
    have hin1 : w.incoming = (packetString (lit "NAME") name ++
        packetHead (lit "LINK") target.length) ++ (target ++ rest) :=
      hin.trans (by simp [Entry.packets, packetString])
    obtain ⟨w₁, hstep, hrun⟩ := rManyFilesTurn_head lzo dirname hname hlen rfl (by decide)
      (by omega) hw
      (hin1.trans (List.append_assoc _ _ _))
    obtain ⟨w', hlink, hstep'⟩ := receiveLink_reads (dirname ++ name) hnul (hstep.benign hw)
      (hstep.incoming_eq hin1)
    refine ⟨w', hrun.trans hlink, ?_⟩
    have hall := hstep.trans hstep'
    rwa [← add_assoc, Delta.takes_add, List.append_assoc] at hall
  | file name text =>
    obtain ⟨⟨hname, hlen⟩, hbody⟩ := hfits
    have hin1 : w.incoming = (packetString (lit "NAME") name ++
        packetHead (lit "FILE") (lzo.compress text).length) ++ (lzo.compress text ++ rest) :=
      hin.trans (by simp [Entry.packets, packetString])
    obtain ⟨w₁, hstep, hrun⟩ := rManyFilesTurn_head lzo dirname hname hlen rfl (by decide)
      (by omega) hw
      (hin1.trans (List.append_assoc _ _ _))
    have hpacked : Packed lzo .lzo1x text (lzo.compress text) := .inr rfl
    obtain ⟨w₂, hfile, hstep2⟩ := dccRFile_reads (dirname ++ name) hpacked hbody
      (hstep.benign hw) (hstep.incoming_eq hin1)
    obtain ⟨w', hadd, hsame⟩ := addCleanupOrUnlink_returns (dirname ++ name)
      (hstep2.benign (hstep.benign hw))
    refine ⟨w', hrun.trans ((bind_of_ok hfile).trans hadd), ?_⟩
    have hall := (hstep.trans hstep2).trans_zero hsame.step
    rwa [← add_assoc, Delta.takes_add, List.append_assoc] at hall

theorem dccRManyFiles_reads (dirname : CString) {entries : List Entry}
    (hlen : entries.length < 2 ^ 32) (hfits : ∀ e ∈ entries, e.Fits lzo) (hw : w.Benign)
    (hin : w.incoming = (Payload.files entries).packets lzo .lzo1x ++ rest) :
    ∃ w', dccRManyFiles lzo dirname .lzo1x w = some (.ok (), w') ∧
      w.Step (.takes ((Payload.files entries).packets lzo .lzo1x) +
        { made := entries.map (Entry.effect dirname) }) w' := by
  rw [Payload.packets, List.append_assoc] at hin
  obtain ⟨w₁, hhead, hstep⟩ := dccRTokenInt_reads rfl hlen hw hin
  have hturn (e : Entry) (he : e ∈ entries) (w : World) (rest : CString) (hw : w.Benign)
      (hin : w.incoming =
        (.takes (e.packets lzo) + .makes (e.effect dirname) : Delta).took ++ rest) :
      ∃ w', rManyFilesTurn lzo dirname .lzo1x w = some (.ok (), w') ∧
        w.Step (.takes (e.packets lzo) + .makes (e.effect dirname)) w' := by
    have hin' : w.incoming = e.packets lzo ++ rest := by
      simpa [Delta.takes, Delta.makes] using hin
    exact rManyFilesTurn_reads (hfits e he) hw hin'
  have hin1 : w₁.incoming = (.takes (entries.flatMap (Entry.packets lzo)) +
      { made := entries.map (Entry.effect dirname) } : Delta).took ++ rest := by
    simpa [Delta.takes] using hstep.incoming_eq hin
  obtain ⟨w', hturns, hstep'⟩ := times_reads
    (Delta.sum_takes_makes (Entry.packets lzo) (Entry.effect dirname) entries) hturn
    (hstep.benign hw) hin1
  refine ⟨w', ?_, ?_⟩
  · rw [dccRManyFiles, bind_of_ok hhead, bind_of_ok hturns]
    rfl
  · have hall := hstep.trans hstep'
    rwa [← add_assoc, Delta.takes_add] at hall

/-- The payload is received as far as it was sent. -/
theorem readPayload_reads (dirname tempI : CString) {host : Hostdef} {payload : Payload}
    (hfeatures :
      dccGetFeaturesFromProtover host.protover.toNat = (host.compr, host.cppWhere, false))
    (hat : ∃ w₀ cppFname fnames, payload.At lzo w₀ host cppFname fnames)
    (hfits : payload.Fits lzo host.compr) (hw : w.Benign)
    (hin : w.incoming = payload.packets lzo host.compr ++ rest) :
    ∃ w', readPayload lzo dirname tempI host.compr host.cppWhere w = some (.ok (), w') ∧
      w.Step (.takes (payload.packets lzo host.compr) +
        { made := (payload.arrives host.compr).effects dirname tempI }) w' := by
  obtain ⟨w₀, cppFname, fnames, hat⟩ := hat
  cases payload with
  | source content =>
    rw [hat.1]
    exact dccRTokenFile_reads tempI (rfl : (lit "DOTI").length = 4) (packed_fileBody _) hfits hw hin
  | files entries =>
    rw [hat.1] at hfeatures ⊢
    rw [lzo1x_of_onServer hfeatures] at hin ⊢
    exact dccRManyFiles_reads dirname hfits.1 hfits.2 hw hin

/-- The part of a request before the arguments. -/
theorem readRequest_head (lzo : Lzo) (dirname tempI : CString) {host : Hostdef} {cwd : CString}
    (hfeatures :
      dccGetFeaturesFromProtover host.protover.toNat = (host.compr, host.cppWhere, false))
    (hcwd : cwd.NulFree ∧ cwd.length < maxPathLen) (hw : w.Benign)
    (hin : w.incoming = packetHead (lit "DIST") host.protover.toNat ++
      ((if host.cppWhere = .onServer then packetString (lit "CDIR") cwd else []) ++ rest)) :
    ∃ w₁, w.Step (.takes (packetHead (lit "DIST") host.protover.toNat ++
        (if host.cppWhere = .onServer then packetString (lit "CDIR") cwd else []))) w₁ ∧
      readRequest lzo dirname tempI w = (do
        let argv ← dccRArgv (lit "ARGC") (lit "ARGV")
        readPayload lzo dirname tempI host.compr host.cppWhere
        pure ⟨host.protover.toNat, if host.cppWhere = .onServer then some cwd else none, argv⟩ :
          Io Received) w₁ := by
  obtain ⟨w₁, hhead, hstep⟩ := dccRRequestHeader_reads host.protover hw hin
  have hw1 := hstep.benign hw
  have hin1 := hstep.incoming_eq hin
  obtain ⟨w₂, hdir, hstep2⟩ : ∃ w₂, readCwd host.cppWhere w₁ =
      some (.ok (if host.cppWhere = .onServer then some cwd else none), w₂) ∧
        w₁.Step (.takes (if host.cppWhere = .onServer then packetString (lit "CDIR") cwd else []))
          w₂ := by
    cases hwhere : host.cppWhere with
    | onClient => exact ⟨w₁, rfl, .refl w₁⟩
    | onServer =>
      rw [hwhere, if_pos rfl] at hin1
      have hlen : cwd.length < 2 ^ 32 := hcwd.2.trans (by decide)
      obtain ⟨w₂, hread, hstep2⟩ := dccRTokenString_reads rfl hcwd.1 hlen hw1 hin1
      exact ⟨w₂, (bind_of_ok hread).trans rfl, hstep2⟩
  refine ⟨w₂, hstep.trans hstep2, ?_⟩
  rw [readRequest, bind_of_ok hhead, hfeatures]
  dsimp only
  rw [bind_of_ok hdir]

end Reads

end Distcc
