import Distcc.Hosts
import Distcc.Lzo
import Distcc.Pump
import Distcc.Rpc

/-!
# Sending files

Model of the sending half of `src/bulk.c`. A file goes over the connection as a packet
whose body is what the file holds, or what LZO makes of it (`fileBody`).

`dcc_x_file` finds out the size of the file, and from there on looks at no result: it
returns 0 even if only a part of the body was sent. It returns 0 for a complete packet
exactly if the transfer of the body did, and the file and its body can be measured in
32 bits (`dccXFile_isPacket_iff`).
-/

namespace Distcc

open CString List Prog

/-! ### The functions -/

/-- A file is open for reading, and its place is at the beginning. -/
def World.opened (w : World) (content : CString) : World := { w with reading := content }

/-- `open`, for reading. -/
def openRead (fname : CString) : Io (Except Errno Unit) := do
  match ← syscall with
  | .error e => pure (.error e)
  | .ok () => do
    let w ← Prog.get
    match w.files fname with
    | none => pure (.error .noent)
    | some content => do
      Prog.modify (·.opened content)
      pure (.ok ())

/-- `dcc_open_read`: the size of the file, or nothing if there is none. -/
def dccOpenRead (fname : CString) : Io (Option ℕ) := do
  match ← openRead fname with
  | .error .noent => pure none
  | .error _ => Prog.fail ExitCode.ioError.failure
  | .ok () => do
    match ← syscall with
    | .error _ => do
      let _ ← dccClose.attempt
      Prog.fail ExitCode.ioError.failure
    | .ok () => do
      let w ← Prog.get
      pure (some w.reading.length)

section

variable (lzo : Lzo)

/-- `dcc_x_file_lzo1x` -/
def dccXFileLzo1x (token : CString) (inLen : ℕ) : Io Unit := do
  -- as a special case, send 0 as 0
  if inLen = 0 then dccXTokenInt token 0
  else do
    let outBuf ← dccCompressFileLzo1x lzo inLen
    dccXTokenInt token outBuf.length
    dccWritex .connection outBuf

/-- The first part of `dcc_x_file`: the file is opened, and without compression the
head is sent. -/
def dccXFileHead (fname token : CString) (compression : Compress) : Io ℕ := do
  match ← (dccOpenRead fname).attempt with
  | .error _ => Prog.fail ExitCode.ioError.failure
  | .ok none => Prog.fail ExitCode.ioError.failure
  | .ok (some fSize) =>
    match compression with
    | .none => do
      match ← (dccXTokenInt token fSize).attempt with
      | .error ret => do
        let _ ← dccClose.attempt
        Prog.fail ret
      | .ok () => pure fSize
    | .lzo1x => pure fSize

/-- The transfer in `dcc_x_file`. The size is a `size_t` for the one, and an `unsigned`
for the other. -/
def dccXFileBody (token : CString) (fSize : ℕ) : Compress → Io Unit
  | .none => dccPumpSendfile .connection fSize
  | .lzo1x => dccXFileLzo1x lzo token (fSize % 2 ^ 32)

/-- `dcc_x_file` -/
def dccXFile (fname token : CString) (compression : Compress) : Io Unit := do
  let fSize ← dccXFileHead fname token compression
  -- the result of the transfer is stored, and never looked at
  let _ ← (dccXFileBody lzo token fSize compression).attempt
  let _ ← dccClose.attempt
  pure ()

/-- What is to be sent of a file. -/
def fileBody : Compress → CString → CString
  | .none, content => content
  | .lzo1x, content => if content = [] then [] else lzo.compress content

/-- As much of a file as is sent. -/
def sentText : Compress → CString → CString
  | .none, content => content
  | .lzo1x, content => content.take (content.length % 2 ^ 32)

/-- The bytes that `dcc_x_file` writes if no call fails. -/
def fileFrame (token : CString) (compression : Compress) (content : CString) : CString :=
  packetString token (fileBody lzo compression (sentText compression content))

end

/-! ### What they do -/

section Specs

variable {lzo : Lzo} {w w' : World} {fname token : CString} {compression : Compress}

theorem World.step_opened (w : World) (content : CString) : w.Step 0 (w.opened content) :=
  ⟨does_zero rfl rfl rfl rfl rfl rfl, fun _ => rfl, fun _ => rfl⟩

theorem openRead_spec {r : Except Failure (Except Errno Unit)}
    (h : openRead fname w = some (r, w')) :
    (∃ e, r = .ok (.error e) ∧ w.Same w') ∨
      ∃ content, r = .ok (.ok ()) ∧ w.files fname = some content ∧ (w.opened content).Same w' := by
  obtain ⟨res, w₁, hsame, hrest⟩ := syscall_then_cases h
  cases res with
  | error e =>
    obtain ⟨rfl, rfl⟩ := pure_eq_some_iff.mp hrest
    exact .inl ⟨e, rfl, hsame⟩
  | ok u =>
    have hfiles : w₁.files = w.files := by rw [hsame.eq]
    dsimp only at hrest
    rw [get_bind, hfiles] at hrest
    split at hrest
    · obtain ⟨rfl, rfl⟩ := pure_eq_some_iff.mp hrest
      exact .inl ⟨_, rfl, hsame⟩
    · case h_2 content hcontent =>
      obtain ⟨rfl, rfl⟩ := Prod.mk.inj (Option.some.inj hrest)
      refine .inr ⟨content, rfl, hcontent, ?_, hsame.script⟩
      rw [hsame.eq]
      rfl

/-- **`dcc_open_read`** fails, finds no file, or opens it. -/
theorem dccOpenRead_spec {r : Except Failure (Option ℕ)} (h : dccOpenRead fname w = some (r, w')) :
    (∃ e, r = .error e ∧ w.Step 0 w') ∨ (r = .ok none ∧ w.Same w') ∨
      ∃ content, r = .ok (some content.length) ∧ w.files fname = some content ∧
        (w.opened content).Same w' := by
  rcases bind_cases h with ⟨_, rfl, hopen⟩ | ⟨res, w₁, hopen, hrest⟩
  · rcases openRead_spec hopen with ⟨_, hr, -⟩ | ⟨_, hr, -⟩ <;> cases hr
  rcases openRead_spec hopen with ⟨e, hr, hsame⟩ | ⟨content, hr, hfile, hsame⟩
  · obtain rfl := Except.ok.inj hr
    by_cases he : e = .noent
    · subst he
      obtain ⟨rfl, rfl⟩ := pure_eq_some_iff.mp hrest
      exact .inr (.inl ⟨rfl, hsame⟩)
    · have hfail : (Prog.fail ExitCode.ioError.failure : Io (Option ℕ)) w₁ = some (r, w') := by
        cases e with
        | noent => exact absurd rfl he
        | again => exact hrest
        | intr => exact hrest
        | other => exact hrest
      obtain ⟨rfl, rfl⟩ := fail_eq_some_iff.mp hfail
      exact .inl ⟨_, rfl, hsame.step⟩
  · obtain rfl := Except.ok.inj hr
    obtain ⟨res, w₂, hsame', hstat⟩ := syscall_then_cases hrest
    cases res with
    | error e =>
      obtain ⟨w₃, hclosed, hfail⟩ := close_then_cases hstat
      obtain ⟨rfl, rfl⟩ := fail_eq_some_iff.mp hfail
      exact .inl ⟨_, rfl,
        (w.step_opened content).zero_trans ((hsame.trans hsame').trans hclosed).step⟩
    | ok u =>
      have hall := hsame.trans hsame'
      replace hstat : (pure (some w₂.reading.length) : Io (Option ℕ)) w₂ = some (r, w') := hstat
      have hreading : w₂.reading = content := hall.input .file
      rw [hreading] at hstat
      obtain ⟨rfl, rfl⟩ := pure_eq_some_iff.mp hstat
      exact .inr (.inr ⟨content, rfl, hfile, hall⟩)

/-- Reading from the file only. -/
theorem World.step_of_drop_file {n : ℕ} (h : (w.drop n .file).Same w') : w.Step 0 w' :=
  h.step_of ⟨does_zero rfl rfl rfl rfl rfl rfl, fun _ => rfl, fun _ => rfl⟩

/-- **`dcc_x_file_lzo1x`** writes a packet; if it fails, it has written less. -/
theorem dccXFileLzo1x_spec {inLen : ℕ} {r : Except Failure Unit}
    (hlen : inLen ≤ w.reading.length) (h : dccXFileLzo1x lzo token inLen w = some (r, w')) :
    let body := fileBody lzo .lzo1x (w.reading.take inLen)
    (r = .ok () ∧ token.length = 4 ∧ w.Step (.gives (packetString token body)) w') ∨
      ∃ e k, r = .error e ∧ k < 12 + body.length ∧
        w.Step (.gives ((packetString token body).take k)) w' := by
  intro body
  unfold dccXFileLzo1x at h
  split at h
  · case isTrue hzero =>
    have hbody : body = [] := by simp [body, hzero, fileBody]
    rw [hbody, packetString, length_nil, append_nil]
    rcases dccXTokenInt_spec h with ⟨rfl, h4, hsame⟩ | ⟨e, k, rfl, hk, -, hsame⟩
    · exact .inl ⟨rfl, h4, World.step_of_put hsame⟩
    · exact .inr ⟨e, k, rfl, hk, World.step_of_put hsame⟩
  · case isFalse hpos =>
    have hbody : body = lzo.compress (w.reading.take inLen) := by
      refine if_neg (fun hnil => ?_)
      have := congrArg List.length hnil
      rw [length_take_of_le hlen] at this
      exact hpos this
    rcases bind_cases h with ⟨e, rfl, hcompress⟩ | ⟨outBuf, w₁, hcompress, hrest⟩
    · rcases (dccCompressFileLzo1x_total ..).spec hcompress with ⟨-, hr, -⟩ | ⟨_, i, -, hsame, -⟩
      · cases hr
      · exact .inr ⟨e, 0, rfl, by omega, World.step_of_drop_file hsame⟩
    rcases (dccCompressFileLzo1x_total ..).spec hcompress with ⟨-, hr, hsame⟩ | ⟨_, _, hr, -⟩
    · obtain rfl := Except.ok.inj hr
      rw [← hbody] at hrest
      have hread := World.step_of_drop_file hsame
      rcases dccXTokenString_spec hrest with ⟨rfl, h4, hsame'⟩ | ⟨e, k, rfl, hk, hsame'⟩
      · exact .inl ⟨rfl, h4, hread.zero_trans (World.step_of_put hsame')⟩
      · exact .inr ⟨e, k, rfl, hk, hread.zero_trans (World.step_of_put hsame')⟩
    · cases hr

/-- The first part of `dcc_x_file`: with compression it writes nothing yet. -/
theorem dccXFileHead_spec {fSize : ℕ}
    (h : dccXFileHead fname token compression w = some (.ok fSize, w')) :
    ∃ content, w.files fname = some content ∧ fSize = content.length ∧ w'.reading = content ∧
      match compression with
      | .none => token.length = 4 ∧ w.Step (.gives (packetHead token fSize)) w'
      | .lzo1x => w.Step 0 w' := by
  obtain ⟨ret, w₁, hopen, hrest⟩ := attempt_bind_cases h
  rcases dccOpenRead_spec hopen with ⟨e, rfl, -⟩ | ⟨rfl, -⟩ | ⟨content, rfl, hfile, hsame⟩
  · cases hrest
  · cases hrest
  have hstep : w.Step 0 w₁ := (w.step_opened content).zero_trans hsame.step
  have hreading : w₁.reading = content := hsame.input .file
  cases compression with
  | lzo1x =>
    obtain ⟨hr, rfl⟩ := pure_eq_some_iff.mp hrest
    exact ⟨content, hfile, (Except.ok.inj hr).symm, hreading, hstep⟩
  | none =>
    obtain ⟨ret, w₂, hhead, hrest2⟩ := attempt_bind_cases hrest
    rcases dccXTokenInt_spec hhead with ⟨rfl, h4, hsame'⟩ | ⟨e, _, rfl, -⟩
    · obtain ⟨rfl, rfl⟩ := pure_eq_ok_iff.mp hrest2
      have hreading' : w₂.reading = w₁.reading := hsame'.input .file
      exact ⟨content, hfile, rfl, hreading'.trans hreading, h4,
        hstep.zero_trans (World.step_of_put hsame')⟩
    · obtain ⟨_, -, hfail⟩ := close_then_cases hrest2
      cases hfail

/-- A part of the file was sent without compression. -/
theorem World.step_of_sendfile {i : ℕ} {bs : CString}
    (h : ((w.drop i .file).put bs .connection).Same w') : w.Step (.gives bs) w' :=
  (step_of_drop_file (World.Same.refl (w.drop i .file))).zero_trans (step_of_put h)

/-- **What `dcc_x_file` does when it returns 0**: the whole packet is sent if the
transfer of the body returned 0 too, and else less than that. -/
theorem dccXFile_spec (h : dccXFile lzo fname token compression w = some (.ok (), w')) :
    ∃ content w₁ ret w₂, w.files fname = some content ∧
      dccXFileHead fname token compression w = some (.ok content.length, w₁) ∧
      dccXFileBody lzo token content.length compression w₁ = some (ret, w₂) ∧
      ((ret = .ok () ∧ token.length = 4 ∧
          w.Step (.gives (fileFrame lzo token compression content)) w') ∨
        ∃ e k, ret = .error e ∧
          k < 12 + (fileBody lzo compression (sentText compression content)).length ∧
            w.Step (.gives ((fileFrame lzo token compression content).take k)) w') := by
  obtain ⟨fSize, w₁, hhead, hrest⟩ := bind_eq_ok_iff.mp h
  obtain ⟨ret, w₂, hbody, hrest2⟩ := attempt_bind_cases hrest
  obtain ⟨w₃, hclosed, hend⟩ := close_then_cases hrest2
  obtain ⟨-, rfl⟩ := pure_eq_some_iff.mp hend
  obtain ⟨content, hfile, rfl, hreading, hstep⟩ := dccXFileHead_spec hhead
  refine ⟨content, w₁, ret, w₂, hfile, hhead, hbody, ?_⟩
  have hclose {d : Delta} (hd : w.Step d w₂) : w.Step d w₃ := hd.trans_zero hclosed.step
  cases compression with
  | none =>
    obtain ⟨h4, hstep⟩ := hstep
    have h12 := packetHead_length (n := content.length) h4
    rcases (dccPumpSendfile_total ..).spec hbody with
      ⟨rfl, -, i, hsame⟩ | ⟨e, i, j, hj, rfl, hsame, -⟩
    · rw [hreading, take_length] at hsame
      exact .inl ⟨rfl, h4, hclose (hstep.trans (World.step_of_sendfile hsame))⟩
    · rw [hreading] at hsame
      refine .inr ⟨e, 12 + j, rfl, ?_, hclose ?_⟩
      · exact Nat.add_lt_add_left hj 12
      · rw [← h12, fileFrame, packetString, sentText, fileBody, take_length_add_append]
        exact hstep.trans (World.step_of_sendfile hsame)
  | lzo1x =>
    have hle : content.length % 2 ^ 32 ≤ w₁.reading.length := by
      rw [hreading]
      exact Nat.mod_le _ _
    have hcases := dccXFileLzo1x_spec hle hbody
    rw [hreading] at hcases
    rcases hcases with ⟨rfl, h4, hsent⟩ | ⟨e, k, rfl, hk, hsent⟩
    · exact .inl ⟨rfl, h4, hclose (hstep.zero_trans hsent)⟩
    · exact .inr ⟨e, k, rfl, hk, hclose (hstep.zero_trans hsent)⟩

end Specs

/-! ### When nothing fails -/

section Sends

variable {lzo : Lzo} {w : World} {fname token content : CString} {compression : Compress}

theorem openRead_opens (hfile : w.files fname = some content) (hw : w.Benign) :
    ∃ w', openRead fname w = some (.ok (.ok ()), w') ∧ (w.opened content).Same w' := by
  obtain ⟨w₁, hcall, hsame⟩ := syscall_succeeds hw
  have hfile1 : w₁.files fname = some content := by
    rw [hsame.eq]
    exact hfile
  have hrun : openRead fname w = some (.ok (.ok ()), w₁.opened content) := by
    rw [openRead, bind_of_ok hcall]
    dsimp only
    rw [get_bind, hfile1]
    rfl
  refine ⟨_, hrun, ?_, hsame.script⟩
  rw [hsame.eq]
  rfl

theorem dccOpenRead_opens (hfile : w.files fname = some content) (hw : w.Benign) :
    ∃ w', dccOpenRead fname w = some (.ok (some content.length), w') ∧
      (w.opened content).Same w' := by
  obtain ⟨w₁, hopen, hsame⟩ := openRead_opens hfile hw
  have hw1 : w₁.Benign := hsame.benign hw
  obtain ⟨w₂, hstat, hsame'⟩ := syscall_succeeds hw1
  have hall := hsame.trans hsame'
  have hreading : w₂.reading = content := hall.input .file
  refine ⟨w₂, ?_, hall⟩
  rw [dccOpenRead, bind_of_ok hopen]
  dsimp only
  rw [bind_of_ok hstat]
  dsimp only
  rw [get_bind, hreading]
  rfl

theorem dccXFileLzo1x_returns (lzo : Lzo) {inLen : ℕ} (h4 : token.length = 4)
    (hlen : inLen ≤ w.reading.length) (hw : w.Benign) :
    ∃ w', dccXFileLzo1x lzo token inLen w = some (.ok (), w') := by
  unfold dccXFileLzo1x
  split
  · obtain ⟨w', hrun, -⟩ := dccXTokenInt_sends h4 0 hw
    exact ⟨w', hrun⟩
  · obtain ⟨_, w₁, hcompress, ⟨-, rfl, hsame⟩ | ⟨_, _, -, -, hnot⟩⟩ :=
      dccCompressFileLzo1x_total lzo inLen w
    · obtain ⟨w', hrun, -⟩ := dccXTokenString_sends h4 (lzo.compress (w.reading.take inLen))
        (hsame.benign (hw.drop .file _))
      exact ⟨w', (bind_of_ok hcompress).trans hrun⟩
    · exact absurd ⟨hw, hlen⟩ hnot

theorem dccXFileHead_returns (compression : Compress) (hfile : w.files fname = some content)
    (h4 : token.length = 4) (hw : w.Benign) :
    ∃ w', dccXFileHead fname token compression w = some (.ok content.length, w') ∧ w'.Benign ∧
      w'.reading = content := by
  obtain ⟨w₁, hopen, hsame⟩ := dccOpenRead_opens hfile hw
  have hw1 : w₁.Benign := hsame.benign hw
  have hreading : w₁.reading = content := hsame.input .file
  rw [dccXFileHead, bind_of_ok (attempt_eq_ok_iff.mpr hopen)]
  cases compression with
  | lzo1x => exact ⟨w₁, rfl, hw1, hreading⟩
  | none =>
    obtain ⟨w₂, hhead, hsame'⟩ := dccXTokenInt_sends h4 content.length hw1
    exact ⟨w₂, bind_of_ok (attempt_eq_ok_iff.mpr hhead),
      hsame'.benign (hw1.put .connection _), (hsame'.input .file).trans hreading⟩

theorem dccXFileBody_returns (lzo : Lzo) (compression : Compress) (h4 : token.length = 4)
    (hw : w.Benign) :
    ∃ w', dccXFileBody lzo token w.reading.length compression w = some (.ok (), w') ∧
      w'.Benign := by
  cases compression with
  | none =>
    obtain ⟨w', hrun⟩ := dccPumpSendfile_returns .connection hw le_rfl
    refine ⟨w', hrun, ?_⟩
    obtain ⟨-, i, hsame⟩ := dccPumpSendfile_ok hrun
    exact (World.step_of_sendfile hsame).benign hw
  | lzo1x =>
    have hle : w.reading.length % 2 ^ 32 ≤ w.reading.length := Nat.mod_le _ _
    obtain ⟨w', hrun⟩ := dccXFileLzo1x_returns lzo h4 hle hw
    refine ⟨w', hrun, ?_⟩
    rcases dccXFileLzo1x_spec hle hrun with ⟨-, -, hstep⟩ | ⟨_, _, hr, -⟩
    · exact hstep.benign hw
    · cases hr

/-- **When nothing fails, `dcc_x_file` sends a packet.** -/
theorem dccXFile_sends (lzo : Lzo) (compression : Compress) (hfile : w.files fname = some content)
    (h4 : token.length = 4) (hw : w.Benign) :
    ∃ w', dccXFile lzo fname token compression w = some (.ok (), w') ∧
      w.Step (.gives (fileFrame lzo token compression content)) w' := by
  obtain ⟨w₁, hhead, hw1, hreading⟩ := dccXFileHead_returns compression hfile h4 hw
  obtain ⟨w₂, hbody, hw2⟩ := dccXFileBody_returns lzo compression h4 hw1
  rw [hreading] at hbody
  obtain ⟨w', hclose⟩ := dccClose_returns hw2
  have hrun : dccXFile lzo fname token compression w = some (.ok (), w') := by
    rw [dccXFile, bind_of_ok hhead, bind_of_ok (attempt_eq_ok_iff.mpr hbody),
      bind_of_ok (attempt_eq_ok_iff.mpr hclose)]
    rfl
  refine ⟨w', hrun, ?_⟩
  obtain ⟨_, w₁', _, _, hfile', hhead', hbody', hcases⟩ := dccXFile_spec hrun
  obtain rfl := Option.some.inj (hfile.symm.trans hfile')
  obtain ⟨-, rfl⟩ := run_unique hhead hhead'
  obtain ⟨rfl, -⟩ := run_unique hbody hbody'
  rcases hcases with ⟨-, -, hstep⟩ | ⟨_, _, hr, -⟩
  · exact hstep
  · cases hr

end Sends

/-! ### Complete packets -/

section Complete

variable {lzo : Lzo} {w w' : World} {fname token content : CString} {compression : Compress}

theorem sentText_of_lt (h : content.length < 2 ^ 32) : sentText compression content = content := by
  cases compression with
  | none => rfl
  | lzo1x => rw [sentText, Nat.mod_eq_of_lt h, take_length]

/-- If a part of what is sent is the body, then the whole file is sent. -/
theorem sentText_eq_self
    (h : fileBody lzo compression content <+:
      fileBody lzo compression (sentText compression content)) :
    sentText compression content = content := by
  cases compression with
  | none => rfl
  | lzo1x =>
    by_cases hnil : content = []
    · simp [hnil, sentText]
    · rw [fileBody, fileBody, if_neg hnil] at h
      split at h
      · exact absurd (prefix_nil.mp h) (lzo.compress_ne_nil content)
      · exact (lzo.compress_prefix_free _ _ h).symm

theorem length_lt_of_sentText (h : sentText compression content = content)
    (hlen : (fileBody lzo compression content).length < 2 ^ 32) : content.length < 2 ^ 32 := by
  cases compression with
  | none => exact hlen
  | lzo1x =>
    have hle := congrArg List.length h
    rw [sentText, length_take] at hle
    omega

/-- **A packet that `dcc_x_file` returned 0 for is complete exactly if** the transfer of
the body returned 0, and neither the file nor its body is longer than 32 bits tell. -/
theorem dccXFile_isPacket_iff (h : dccXFile lzo fname token compression w = some (.ok (), w')) :
    (∃ content bs, w.files fname = some content ∧ w'.sent = w.sent ++ bs ∧
      IsPacket token (fileBody lzo compression content) bs) ↔
    ∃ content w₁ w₂, w.files fname = some content ∧ content.length < 2 ^ 32 ∧
      (fileBody lzo compression content).length < 2 ^ 32 ∧
      dccXFileHead fname token compression w = some (.ok content.length, w₁) ∧
      dccXFileBody lzo token content.length compression w₁ = some (.ok (), w₂) := by
  obtain ⟨content, w₁, ret, w₂, hfile, hhead, hbody, hcases⟩ := dccXFile_spec h
  constructor
  · rintro ⟨_, bs, hfile', hsent, hpacket⟩
    obtain rfl := Option.some.inj (hfile.symm.trans hfile')
    have h4 := hpacket.head.token_length
    have hlen := hpacket.head.lt
    have hframe : (fileFrame lzo token compression content).drop 12 =
        fileBody lzo compression (sentText compression content) := drop_packetString h4
    rcases hcases with ⟨rfl, -, hstep⟩ | ⟨e, k, -, hk, hstep⟩
    · obtain rfl := append_cancel_left (hsent.symm.trans hstep.sent)
      have hbody' := hpacket.body.symm.trans hframe
      have hbegins : fileBody lzo compression content <+:
          fileBody lzo compression (sentText compression content) :=
        ⟨[], (append_nil _).trans hbody'⟩
      have htext := sentText_eq_self hbegins
      exact ⟨content, w₁, w₂, hfile, length_lt_of_sentText htext hlen, hlen, hhead, hbody⟩
    · -- the packet would be a part of itself
      obtain rfl := append_cancel_left (hsent.symm.trans hstep.sent)
      have h12 := hpacket.head.length
      have hpart := hpacket.body
      simp only [Delta.gives] at h12 hpart
      rw [length_take, length_take] at h12
      rw [drop_take, hframe] at hpart
      have hbegins := take_prefix (k - 12)
        (fileBody lzo compression (sentText compression content))
      rw [hpart] at hbegins
      rw [sentText_eq_self hbegins] at hk hpart
      have hle := congrArg List.length hpart
      rw [length_take] at hle
      omega
  · rintro ⟨_, w₁', w₂', hfile', hlen, hlen', hhead', hbody'⟩
    obtain rfl := Option.some.inj (hfile.symm.trans hfile')
    obtain rfl : w₁ = w₁' := by
      rw [hhead] at hhead'
      exact (Prod.mk.inj (Option.some.inj hhead')).2
    rcases hcases with ⟨rfl, h4, hstep⟩ | ⟨e, _, rfl, -⟩
    · refine ⟨content, _, hfile, hstep.sent, ?_⟩
      simp only [Delta.gives]
      rw [fileFrame, sentText_of_lt hlen]
      exact isPacket_packetString h4 hlen'
    · rw [hbody] at hbody'
      cases (Prod.mk.inj (Option.some.inj hbody')).1

end Complete

/-- A world with one small file. -/
def World.ofHello (script : List Reply) : World where
  script := script
  files := Function.update (fun _ => none) (lit "hello.i") (some (lit "hi"))

/-- A small file is sent in full. -/
theorem dccXFile_isPacket_hello :
    ∃ w', dccXFile Lzo.runs (lit "hello.i") (lit "DOTI") .lzo1x (World.ofHello []) =
        some (.ok (), w') ∧
      ∃ content w₁ w₂, (World.ofHello []).files (lit "hello.i") = some content ∧
        content.length < 2 ^ 32 ∧ (fileBody Lzo.runs .lzo1x content).length < 2 ^ 32 ∧
        dccXFileHead (lit "hello.i") (lit "DOTI") .lzo1x (World.ofHello []) =
          some (.ok content.length, w₁) ∧
        dccXFileBody Lzo.runs (lit "DOTI") content.length .lzo1x w₁ = some (.ok (), w₂) := by
  have hyields : (dccXFile Lzo.runs (lit "hello.i") (lit "DOTI") .lzo1x).yields (World.ofHello [])
      (fun _ w' => w'.sent = packetString (lit "DOTI") (packRuns (lit "hi"))) = true := by
    decide +kernel
  obtain ⟨_, w', hrun, hsent⟩ := exists_of_yields hyields
  refine ⟨w', hrun, (dccXFile_isPacket_iff hrun).mp ⟨lit "hi", _, rfl, of_decide_eq_true hsent, ?_⟩⟩
  exact isPacket_packetString rfl (by decide)

/-- What the system answers if a file is opened and measured, its head is written, and
then `sendfile` sends one byte and fails. -/
def brokenSendfile : List Reply := [.full, .full, .full, .short 0, .error .other]

/-- **0 is returned for half a body.** -/
theorem dccXFile_truncates :
    ∃ w', dccXFile Lzo.runs (lit "hello.i") (lit "DOTI") .none (World.ofHello brokenSendfile) =
        some (.ok (), w') ∧
      ¬∃ content bs, (World.ofHello brokenSendfile).files (lit "hello.i") = some content ∧
        w'.sent = (World.ofHello brokenSendfile).sent ++ bs ∧
          IsPacket (lit "DOTI") (fileBody Lzo.runs .none content) bs := by
  have hyields : (dccXFile Lzo.runs (lit "hello.i") (lit "DOTI") .none).yields
      (World.ofHello brokenSendfile)
      (fun _ w' => w'.sent = packetHead (lit "DOTI") 2 ++ lit "h") = true := by
    decide +kernel
  obtain ⟨_, w', hrun, hsent⟩ := exists_of_yields hyields
  refine ⟨w', hrun, ?_⟩
  rintro ⟨content, bs, hfile, hsent', hpacket⟩
  obtain rfl : lit "hi" = content := Option.some.inj hfile
  have hbody := hpacket.body
  rw [show bs = w'.sent from hsent'.symm, of_decide_eq_true hsent] at hbody
  exact absurd hbody (by decide)

end Distcc
