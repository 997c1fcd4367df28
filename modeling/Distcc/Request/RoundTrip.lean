import Distcc.Request.Server

/-!
# A request makes it to the server

What the client sends and what the server reads meet at `requestBytes`: the
client writes these bytes (`sendRequest_sends`), and of these bytes the server
makes the request again (`readRequest_reads`).

There are two exceptions, both about sizes. The client counts its arguments with an
`int`, so that from 2³¹ of them on it sends their number and no argument; and it
compresses as much of the source as an `unsigned` says there is of it. That nothing
else can go wrong is `roundTrips_iff`.
-/

namespace Distcc

open CString List

variable (lzo : Lzo)

/-- **A request makes it**: it is sent, and every server on which nothing fails reads
these bytes and no others, gets the version, the working directory and the arguments
from them, and makes the files. -/
def RoundTrips (client : World) (host : Hostdef) (argv : List CString) (cppFname : CString)
    (fnames : List CString) (payload : Payload) (dirname tempI : CString) : Prop :=
  ∃ client' bs, sendRequest lzo argv cppFname fnames host client = some (.ok (), client') ∧
    client'.sent = client.sent ++ bs ∧
    ∀ (server : World) (rest : CString), server.Benign → server.incoming = bs ++ rest →
      ∃ server', readRequest lzo dirname tempI server =
          some (.ok ⟨host.protover.toNat,
            if host.cppWhere = .onServer then some client.cwd else none, argv⟩, server') ∧
        server'.incoming = rest ∧ server'.log = server.log ++ payload.effects dirname tempI

section

variable {lzo} {client server : World} {host : Hostdef} {argv fnames : List CString}
  {cppFname dirname tempI rest : CString} {payload : Payload}

/-- **Of the bytes the client sends, the server makes the request**, if there are not too
many arguments. -/
theorem readRequest_reads (dirname tempI : CString)
    (h : Client.Ready lzo client host argv cppFname fnames payload) (hargc : argv.length < 2 ^ 31)
    (hserver : server.Benign)
    (hin : server.incoming = requestBytes lzo host client.cwd argv payload ++ rest) :
    ∃ server', readRequest lzo dirname tempI server =
        some (.ok ⟨host.protover.toNat,
          if host.cppWhere = .onServer then some client.cwd else none, argv⟩, server') ∧
      server.Step (.takes (requestBytes lzo host client.cwd argv payload) +
        { made := (payload.arrives host.compr).effects dirname tempI }) server' := by
  have hbytes : requestBytes lzo host client.cwd argv payload =
      (packetHead (lit "DIST") host.protover.toNat ++
        (if host.cppWhere = .onServer then packetString (lit "CDIR") client.cwd else [])) ++
          (packetArgv (lit "ARGC") (lit "ARGV") argv ++ payload.packets lzo host.compr) := by
    have hsent : argvSent argv = argv := if_pos hargc
    simp [requestBytes, hsent, packetArgv]
  rw [hbytes, append_assoc] at hin
  obtain ⟨w₁, hstep1, hrun⟩ := readRequest_head lzo dirname tempI h.features h.cwd hserver
    (hin.trans (append_assoc _ _ _))
  have hw1 := hstep1.benign hserver
  have hin1 := (hstep1.incoming_eq hin).trans (append_assoc _ _ _)
  obtain ⟨w₂, hargv, hstep2⟩ := dccRArgv_reads rfl rfl h.argc h.argv hw1 hin1
  obtain ⟨server', hpayload, hstep'⟩ := readPayload_reads dirname tempI h.features
    ⟨client, cppFname, fnames, h.there⟩ h.fits (hstep2.benign hw1) (hstep2.incoming_eq hin1)
  refine ⟨server', ?_, ?_⟩
  · rw [hrun, Prog.bind_of_ok hargv, Prog.bind_of_ok hpayload]
    rfl
  · have hall := hstep1.trans (hstep2.trans hstep')
    rwa [← add_assoc (Delta.takes _) (Delta.takes _), Delta.takes_add, ← add_assoc, Delta.takes_add,
      append_assoc _ (packetArgv _ _ _), ← hbytes] at hall

/-- No payload begins with an argument. -/
theorem Payload.take_packets (compr : Compress) (payload : Payload) (rest : CString) :
    (payload.packets lzo compr ++ rest).take 4 ≠ lit "ARGV" := by
  cases payload with
  | source content =>
    have htake : ((Payload.source content).packets lzo compr ++ rest).take 4 = lit "DOTI" := rfl
    rw [htake]
    decide
  | files entries =>
    have htake : ((Payload.files entries).packets lzo compr ++ rest).take 4 = lit "NFIL" := rfl
    rw [htake]
    decide

/-- If the number of arguments is followed by something else, reading them fails. -/
theorem dccRArgv_fails {n : ℕ} (hn : 0 < n) (hlt : n < 2 ^ 32) (hserver : server.Benign)
    (hin : server.incoming = packetHead (lit "ARGC") n ++ rest) (hrest : rest.take 4 ≠ lit "ARGV")
    {words : List CString} {server' : World} :
    dccRArgv (lit "ARGC") (lit "ARGV") server ≠ some (.ok words, server') := by
  intro hrun
  obtain ⟨w₁, hhead, hstep⟩ := dccRTokenInt_reads rfl hlt hserver hin
  rw [dccRArgv, Prog.bind_of_ok (Prog.attempt_eq_ok_iff.mpr hhead)] at hrun
  rcases alloc_then_cases hrun with ⟨hr, -⟩ | ⟨w₂, hsame, htimes⟩
  · cases hr
  obtain ⟨m, rfl⟩ := Nat.exists_eq_add_of_lt hn
  rw [Nat.zero_add, Prog.times] at htimes
  obtain ⟨_, _, hfirst, -⟩ := Prog.bind_eq_ok_iff.mp htimes
  obtain ⟨_, _, htoken, -⟩ := Prog.bind_eq_ok_iff.mp hfirst
  have hin2 : w₂.incoming = rest := (hsame.input .connection).trans (hstep.incoming_eq hin)
  rcases dccRTokenInt_spec htoken with ⟨val, -, hishead, -⟩ | ⟨_, _, hr, -⟩
  · have htake := hishead.token
    rw [hin2, take_take] at htake
    exact hrest htake
  · cases hr

/-- Nobody makes a request of a number of arguments without arguments. -/
theorem readRequest_fails (dirname tempI : CString)
    (h : Client.Ready lzo client host argv cppFname fnames payload) (hargc : ¬argv.length < 2 ^ 31)
    (hserver : server.Benign)
    (hin : server.incoming = requestBytes lzo host client.cwd argv payload ++ rest)
    {received : Received} {server' : World} :
    readRequest lzo dirname tempI server ≠ some (.ok received, server') := by
  intro hread
  have hbytes : requestBytes lzo host client.cwd argv payload =
      (packetHead (lit "DIST") host.protover.toNat ++
        (if host.cppWhere = .onServer then packetString (lit "CDIR") client.cwd else [])) ++
          (packetHead (lit "ARGC") argv.length ++ payload.packets lzo host.compr) := by
    have hsent : argvSent argv = [] := if_neg hargc
    simp [requestBytes, hsent]
  rw [hbytes, append_assoc] at hin
  obtain ⟨w₁, hstep1, hrun⟩ := readRequest_head lzo dirname tempI h.features h.cwd hserver
    (hin.trans (append_assoc _ _ _))
  have hin1 := (hstep1.incoming_eq hin).trans (append_assoc _ _ _)
  rw [hrun] at hread
  obtain ⟨_, _, hargv, -⟩ := Prog.bind_eq_ok_iff.mp hread
  exact dccRArgv_fails (by omega) h.argc (hstep1.benign hserver) hin1
    (payload.take_packets host.compr rest) hargv

section

variable (h : Client.Ready lzo client host argv cppFname fnames payload)
include h

variable (htrip : RoundTrips lzo client host argv cppFname fnames payload dirname tempI)
include htrip

/-- A client sends one sequence of bytes. -/
theorem RoundTrips.reads (hserver : server.Benign)
    (hin : server.incoming = requestBytes lzo host client.cwd argv payload ++ rest) :
    ∃ server', readRequest lzo dirname tempI server =
        some (.ok ⟨host.protover.toNat,
          if host.cppWhere = .onServer then some client.cwd else none, argv⟩, server') ∧
      server'.incoming = rest ∧ server'.log = server.log ++ payload.effects dirname tempI := by
  obtain ⟨client', hsend, hstep⟩ := sendRequest_sends h
  obtain ⟨_, bs, hsend', hsent, hreads⟩ := htrip
  obtain ⟨-, rfl⟩ := Prog.run_unique hsend hsend'
  have hbs : bs = requestBytes lzo host client.cwd argv payload :=
    append_cancel_left (hsent.symm.trans hstep.sent)
  rw [← hbs] at hin
  exact hreads server rest hserver hin

/-- The arguments can be counted by an `int`. -/
theorem RoundTrips.argc_lt : argv.length < 2 ^ 31 := by
  by_contra hargc
  let server : World := { incoming := requestBytes lzo host client.cwd argv payload }
  have hserver : server.Benign := nofun
  have hin : server.incoming = requestBytes lzo host client.cwd argv payload ++ [] :=
    (append_nil _).symm
  obtain ⟨server', hread, -⟩ := htrip.reads h hserver hin
  exact readRequest_fails dirname tempI h hargc hserver hin hread

/-- The source can be measured by an `unsigned`. -/
theorem RoundTrips.source_lt {content : CString} (hsource : payload = .source content) :
    content.length < 2 ^ 32 := by
  subst hsource
  let server : World := { incoming := requestBytes lzo host client.cwd argv (.source content) }
  have hserver : server.Benign := nofun
  have hin : server.incoming = requestBytes lzo host client.cwd argv (.source content) ++ [] :=
    (append_nil _).symm
  obtain ⟨server', hread, -, hlog⟩ := htrip.reads h hserver hin
  obtain ⟨_, hread', hstep⟩ := readRequest_reads dirname tempI h (htrip.argc_lt h) hserver hin
  obtain ⟨-, rfl⟩ := Prog.run_unique hread hread'
  have heffects := append_cancel_left (hlog.symm.trans hstep.log)
  have htext : sentText host.compr content = content := by
    have hone : [Effect.file tempI content] = [.file tempI (sentText host.compr content)] :=
      heffects
    exact (Effect.file.inj (List.cons.inj hone).1).2.symm
  have hfits : (fileBody lzo host.compr (sentText host.compr content)).length < 2 ^ 29 := h.fits
  rw [htext] at hfits
  exact length_lt_of_sentText htext (hfits.trans (by decide))

end

/-- **A request makes it to the server exactly if** there are fewer than 2³¹ arguments,
and a source is shorter than 2³² bytes. -/
theorem roundTrips_iff (h : Client.Ready lzo client host argv cppFname fnames payload) :
    RoundTrips lzo client host argv cppFname fnames payload dirname tempI ↔
      argv.length < 2 ^ 31 ∧ ∀ content, payload = .source content → content.length < 2 ^ 32 := by
  constructor
  · intro htrip
    exact ⟨htrip.argc_lt h, fun _ hsource => htrip.source_lt h hsource⟩
  · rintro ⟨hargc, hsource⟩
    obtain ⟨client', hsend, hstep⟩ := sendRequest_sends h
    refine ⟨client', _, hsend, hstep.sent, ?_⟩
    intro server rest hserver hin
    obtain ⟨server', hread, hstep'⟩ := readRequest_reads dirname tempI h hargc hserver hin
    have harrives : payload.arrives host.compr = payload := by
      cases payload with
      | source content => rw [Payload.arrives, sentText_of_lt (hsource content rfl)]
      | files entries => rfl
    rw [harrives] at hstep'
    refine ⟨server', hread, hstep'.incoming_eq ?_, hstep'.log⟩
    simpa [Delta.takes, Delta.gives] using hin

end

/-! ### Two requests -/

/-- A host that is sent requests of this version. -/
def Hostdef.ofProtover (protover : Protover) : Hostdef :=
  { Hostdef.ofName (lit "fast") with
    protover := protover
    compr := (dccGetFeaturesFromProtover protover.toNat).1
    cppWhere := (dccGetFeaturesFromProtover protover.toNat).2.1
    hostname_localhost := nofun }

/-- The include server has mirrored a header and a link to it. -/
def World.ofMirror : World where
  files := Function.update (fun _ => none) (lit "/dev/shm/inc/usr/a.h.lzo")
    (some (packRuns (lit "int a;")))
  links := Function.update (fun _ => none) (lit "/dev/shm/inc/usr/b.h") (some (lit "/usr/a.h"))
  cwd := lit "/home"

/-- A header and a link to it make it to the server. -/
theorem roundTrips_headers :
    RoundTrips Lzo.runs World.ofMirror (Hostdef.ofProtover .ver3) [lit "cc", lit "-c", lit "x.c"]
      [] [lit "/dev/shm/inc/usr/a.h.lzo", lit "/dev/shm/inc/usr/b.h"]
      (.files [.file (lit "/usr/a.h") (lit "int a;"), .link (lit "/usr/b.h") (lit "/usr/a.h")])
      (lit "/tmp/srv") [] := by
  refine (roundTrips_iff ?_).mpr ⟨by decide, nofun⟩
  refine ⟨nofun, rfl, by decide, by decide, by decide, ⟨rfl, ?_⟩, by decide, ?_⟩
  · exact .cons ⟨by decide, rfl, rfl⟩ (.cons ⟨by decide, rfl⟩ .nil)
  · intro e he
    rcases mem_pair.mp he with rfl | rfl
    · exact ⟨by decide, by decide⟩
    · exact ⟨by decide, by decide⟩

/-- A source of 2³² blanks. -/
def blanks : CString := List.replicate (2 ^ 32) 32

theorem length_blanks : blanks.length = 2 ^ 32 := length_replicate

/-- The preprocessor has written them. -/
def World.ofBlanks : World where
  files := Function.update (fun _ => none) (lit "x.i") (some blanks)

/-- **A source of 2³² bytes is taken for an empty one**: its size as an `unsigned` is 0. -/
theorem not_roundTrips_blanks :
    ¬RoundTrips Lzo.runs World.ofBlanks (Hostdef.ofProtover .ver2) [lit "cc", lit "-c"]
      (lit "x.i") [] (.source blanks) [] (lit "tmp.i") := by
  intro htrip
  have hsent : sentText .lzo1x blanks = [] := by
    rw [sentText, length_blanks, Nat.mod_self, take_zero]
  have hfits : (Payload.source blanks).Fits Lzo.runs .lzo1x := by
    rw [Payload.Fits, hsent]
    decide
  have hready : Client.Ready Lzo.runs World.ofBlanks (Hostdef.ofProtover .ver2)
      [lit "cc", lit "-c"] (lit "x.i") [] (.source blanks) :=
    ⟨forall_mem_nil _, rfl, by decide, by decide, by decide, ⟨rfl, rfl⟩, hfits⟩
  have hlt := htrip.source_lt hready rfl
  rw [length_blanks] at hlt
  exact lt_irrefl _ hlt

end Distcc
