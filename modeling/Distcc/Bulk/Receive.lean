import Distcc.Bulk.Transmit
import Distcc.Tempfile

/-!
# Receiving files

Model of the receiving half of `src/bulk.c`, and of `dcc_r_bulk` (`src/pump.c`). A file
that was received is on the record of the world, once it is closed.

Whatever bytes come in, `dcc_r_file` returns 0 only if it has read the whole body and
has written to the file what is in it (`dccRFile_spec`). When nothing fails it
undoes what `dcc_x_file` does (`dccRFile_reads`).
-/

namespace Distcc

open Prog

/-! ### The functions -/

/-- Something is put on the record. -/
def World.recorded (w : World) (e : Effect) : World := { w with log := w.log ++ [e] }

/-- What `dcc_r_file` does to a file that is there already: it is removed, unless it is
empty. That it cannot be removed is no error. -/
def removeOld (filename : CString) : Io Unit := do
  match ← syscall with
  | .error _ => pure ()
  | .ok () => do
    let w ← Prog.get
    if (w.files filename).getD [] ≠ [] then
      let _ ← unlink filename
      pure ()
    else pure ()

section

variable (lzo : Lzo)

/-- `dcc_r_bulk` -/
def dccRBulk (dst : Sink) (fSize : ℕ) (compression : Compress) : Io Unit :=
  if fSize = 0 then pure ()
  else match compression with
    | .none => dccPumpReadwrite dst .connection fSize
    | .lzo1x => dccRBulkLzo1x lzo dst fSize

/-- `dcc_r_file`, from where the file is open. -/
def receiveInto (filename : CString) (len : ℕ) (compr : Compress) : Io Unit := do
  let ret ← (if len > 0 then dccRBulk lzo (.file filename) len compr else pure ()).attempt
  let closeRet ← dccClose.attempt
  match ret, closeRet with
  | .ok (), .ok () => Prog.modify fun w => w.recorded (.file filename ((w.files filename).getD []))
  | _, _ => do
    let _ ← unlink filename
    Prog.fail ExitCode.ioError.failure

/-- `dcc_r_file` -/
def dccRFile (filename : CString) (len : ℕ) (compr : Compress) : Io Unit := do
  match ← (dccMkTmpAncestorDirs filename).attempt with
  | .error _ => Prog.fail ExitCode.ioError.failure
  | .ok () => do
    removeOld filename
    match ← openWrite filename with
    | .error _ => Prog.fail ExitCode.ioError.failure
    | .ok () => receiveInto lzo filename len compr

/-- `dcc_r_file_timed` -/
def dccRFileTimed (fname : CString) (size : ℕ) (compr : Compress) : Io Unit :=
  dccRFile lzo fname size compr

/-- `dcc_r_token_file` -/
def dccRTokenFile (token fname : CString) (compr : Compress) : Io Unit := do
  let iSize ← dccRTokenInt token
  dccRFileTimed lzo fname iSize compr

/-- This is a body for a text. -/
def Packed : Compress → CString → CString → Prop
  | .none, text, body => body = text
  | .lzo1x, text, body => text = [] ∧ body = [] ∨ body = lzo.compress text

/-- This is what the receiver makes of a body. -/
def Unpacks : Compress → CString → CString → Prop
  | .none, body, text => text = body
  | .lzo1x, body, text =>
    if body = [] then text = [] else ∃ size, lzo.decompress body size = .ok text

end

/-! ### What they do -/

section Specs

variable {lzo : Lzo} {w w' : World} {filename : CString} {compr : Compress}

/-- **`dcc_r_bulk`** reads all of the body and writes what is in it. -/
theorem dccRBulk_spec {dst : Sink} {fSize : ℕ}
    (h : dccRBulk lzo dst fSize compr w = some (.ok (), w')) :
    fSize ≤ w.incoming.length ∧ ∃ text, Unpacks lzo compr (w.incoming.take fSize) text ∧
      ((w.drop fSize .connection).put text dst).Same w' := by
  unfold dccRBulk at h
  split at h
  · case isTrue hzero =>
    obtain ⟨-, rfl⟩ := pure_eq_some_iff.mp h
    subst hzero
    refine ⟨Nat.zero_le _, [], ?_, by simpa using World.Same.refl w⟩
    cases compr with
    | none => rfl
    | lzo1x => simp [Unpacks]
  · case isFalse hpos =>
    cases compr with
    | none =>
      obtain ⟨hle, hsame⟩ := dccPumpReadwrite_ok h
      exact ⟨hle, _, rfl, hsame⟩
    | lzo1x =>
      obtain ⟨hle, text, size, htext, hsame⟩ := dccRBulkLzo1x_spec hpos h
      refine ⟨hle, text, ?_, hsame⟩
      have hne : w.incoming.take fSize ≠ [] := by
        intro hnil
        have hlen := congrArg List.length hnil
        rw [List.length_take_of_le hle] at hlen
        exact hpos hlen
      exact (if_neg hne).mpr ⟨size, htext⟩

/-- Receiving into a file, as opposed to the standard output. -/
theorem World.does_put_file (w : World) (bs name : CString) : w.Does 0 (w.put bs (.file name)) :=
  does_zero rfl rfl rfl rfl rfl rfl

theorem World.does_recorded (w : World) (e : Effect) : w.Does (.makes e) (w.recorded e) := by
  refine ⟨rfl, ?_, ?_, rfl, rfl, List.suffix_refl _⟩
  all_goals exact (List.append_nil _).symm

/-- Removing what was there is something between the program and the disk. -/
theorem removeOld_spec {r : Except Failure Unit} (h : removeOld filename w = some (r, w')) :
    r = .ok () ∧ w.Does 0 w' := by
  obtain ⟨res, w₁, hsame, hrest⟩ := syscall_then_cases h
  cases res with
  | error e =>
    obtain ⟨rfl, rfl⟩ := pure_eq_some_iff.mp hrest
    exact ⟨rfl, hsame.step.toDoes⟩
  | ok u =>
    dsimp only at hrest
    rw [get_bind] at hrest
    split at hrest
    · rcases bind_pure_cases hrest with ⟨res, hrun, rfl⟩ | ⟨_, hrun, -⟩
      · rcases change_spec hrun with ⟨_, -, hsame'⟩ | ⟨w₂, -, hsame', rfl⟩
        · exact ⟨rfl, (hsame.trans hsame').step.toDoes⟩
        · exact ⟨rfl, (hsame.trans hsame').step.toDoes.trans_zero (World.does_removed w₂ filename)⟩
      · rcases change_spec hrun with ⟨_, hr, -⟩ | ⟨_, hr, -⟩ <;> cases hr
    · obtain ⟨rfl, rfl⟩ := pure_eq_some_iff.mp hrest
      exact ⟨rfl, hsame.step.toDoes⟩

/-- What was written to a new file is in it. -/
theorem World.files_put {bs text : CString} (hfile : w.files filename = some bs) :
    (w.put text (.file filename)).files filename = some (bs ++ text) := by
  simp [put, hfile]

/-- That `dcc_r_file` does not call `dcc_r_bulk` for nothing makes no difference. -/
theorem guarded_dccRBulk (dst : Sink) (len : ℕ) :
    (if len > 0 then dccRBulk lzo dst len compr else pure ()) = dccRBulk lzo dst len compr := by
  unfold dccRBulk
  by_cases hzero : len = 0
  · rw [if_neg (by omega), if_pos hzero]
  · rw [if_pos (by omega)]

/-- Into a file that is empty, the body is received. -/
theorem receiveInto_spec {len : ℕ} (hfile : w.files filename = some [])
    (h : receiveInto lzo filename len compr w = some (.ok (), w')) :
    len ≤ w.incoming.length ∧ ∃ text, Unpacks lzo compr (w.incoming.take len) text ∧
      w.Step (.takes (w.incoming.take len) + .makes (.file filename text)) w' := by
  obtain ⟨ret, w₁, hbulk, hrest⟩ := attempt_bind_cases h
  obtain ⟨closeRet, w₂, hclose, hend⟩ := attempt_bind_cases hrest
  have hok : ret = .ok () ∧
      w' = w₂.recorded (.file filename ((w₂.files filename).getD [])) := by
    rcases ret with e | _
    · obtain ⟨_, _, -, hfail⟩ := bind_eq_ok_iff.mp hend
      cases hfail
    · rcases closeRet with e | _
      · obtain ⟨_, _, -, hfail⟩ := bind_eq_ok_iff.mp hend
        cases hfail
      · exact ⟨rfl, (modify_eq_some_iff.mp hend).2.symm⟩
  obtain ⟨rfl, rfl⟩ := hok
  rw [guarded_dccRBulk] at hbulk
  obtain ⟨hle, text, htext, hsame⟩ := dccRBulk_spec hbulk
  have hall := hsame.trans (dccClose_keeps hclose)
  have hfile2 : w₂.files filename = some text := by
    have hput : ((w.drop len .connection).put text (.file filename)).files filename =
        some ([] ++ text) := World.files_put hfile
    rw [hall.eq]
    exact hput
  have hbody : w.Does (.takes (w.incoming.take len)) w₂ :=
    hall.does ((World.step_of_drop (.refl _)).toDoes.trans_zero
      (World.does_put_file _ text filename))
  refine ⟨hle, text, htext, World.Does.step ?_ (List.cons_ne_nil _ _)⟩
  rw [hfile2]
  exact hbody.trans (World.does_recorded w₂ (.file filename text))

/-- **`dcc_r_file`** reads all of the body and writes what is in it to the file. -/
theorem dccRFile_spec {len : ℕ} (h : dccRFile lzo filename len compr w = some (.ok (), w')) :
    len ≤ w.incoming.length ∧ ∃ text, Unpacks lzo compr (w.incoming.take len) text ∧
      w.Step (.takes (w.incoming.take len) + .makes (.file filename text)) w' := by
  obtain ⟨ret, w₁, hdirs, hrest⟩ := attempt_bind_cases h
  have hmkdirs := dccMkTmpAncestorDirs_silent filename hdirs
  rcases ret with e | _
  · cases hrest
  obtain ⟨_, w₂, hold, hrest2⟩ := bind_eq_ok_iff.mp hrest
  obtain ⟨-, hdoes⟩ := removeOld_spec hold
  obtain ⟨res, w₃, hopen, hrest3⟩ := bind_eq_ok_iff.mp hrest2
  rcases change_spec hopen with ⟨e, hr, -⟩ | ⟨w₄, hr, hsame', rfl⟩
  · obtain rfl := Except.ok.inj hr
    cases hrest3
  obtain rfl := Except.ok.inj hr
  have hbefore : w.Does 0 (w₄.created filename) :=
    (hsame'.does (hmkdirs.toDoes.trans_zero hdoes)).trans_zero (World.does_created w₄ filename)
  have hincoming : (w₄.created filename).incoming = w.incoming := hbefore.incoming.symm
  have hempty : (w₄.created filename).files filename = some [] := Function.update_self _ _ _
  obtain ⟨hle, text, htext, hstep⟩ := receiveInto_spec hempty hrest3
  rw [hincoming] at hle htext hstep
  exact ⟨hle, text, htext, (hbefore.zero_trans hstep.toDoes).step (List.cons_ne_nil _ _)⟩

end Specs

/-! ### When nothing fails -/

section Reads

variable {lzo : Lzo} {w : World} {filename text body rest : CString} {compr : Compress}
  (filename)

theorem packed_fileBody (text : CString) : Packed lzo compr text (fileBody lzo compr text) := by
  cases compr with
  | none => rfl
  | lzo1x =>
    by_cases hnil : text = []
    · exact .inl ⟨hnil, if_pos hnil⟩
    · exact .inr (if_neg hnil)

/-- The receiver makes of a body what it is a body for. -/
theorem Unpacks.eq {text' : CString} (h : Unpacks lzo compr body text')
    (hbody : Packed lzo compr text body) : text' = text := by
  cases compr with
  | none => exact Eq.trans h hbody
  | lzo1x =>
    rcases hbody with ⟨rfl, rfl⟩ | rfl
    · simpa [Unpacks] using h
    · rw [Unpacks, if_neg (lzo.compress_ne_nil text)] at h
      obtain ⟨size, hsize⟩ := h
      rw [lzo.decompress_compress] at hsize
      split at hsize
      · exact (LzoResult.ok.inj hsize).symm
      · cases hsize

theorem dccRBulk_reads (dst : Sink) (hbody : Packed lzo compr text body)
    (hlen : body.length < 2 ^ 29) (hw : w.Benign) (hin : w.incoming = body ++ rest) :
    ∃ w', dccRBulk lzo dst body.length compr w = some (.ok (), w') := by
  unfold dccRBulk
  split
  · exact ⟨w, rfl⟩
  · case isFalse hpos =>
    cases compr with
    | none =>
      refine dccPumpReadwrite_returns dst hw ?_
      rw [World.input, hin, List.length_append]
      exact Nat.le_add_right _ _
    | lzo1x =>
      rcases hbody with ⟨-, rfl⟩ | rfl
      · exact absurd rfl hpos
      · obtain ⟨w', hrun, -⟩ := dccRBulkLzo1x_reads hlen hw hin
        exact ⟨w', hrun⟩

theorem removeOld_returns (hw : w.Benign) : ∃ w', removeOld filename w = some (.ok (), w') := by
  obtain ⟨w₁, hstat, hsame⟩ := syscall_succeeds hw
  rw [removeOld, bind_of_ok hstat]
  dsimp only
  rw [get_bind]
  split
  · obtain ⟨w₂, hrun, -⟩ := change_succeeds (·.removed filename) (hsame.benign hw)
    exact ⟨_, (bind_of_ok hrun).trans rfl⟩
  · exact ⟨w₁, rfl⟩

theorem receiveInto_returns
    (hbody : Packed lzo compr text body) (hlen : body.length < 2 ^ 29) (hw : w.Benign)
    (hin : w.incoming = body ++ rest) :
    ∃ w', receiveInto lzo filename body.length compr w = some (.ok (), w') := by
  obtain ⟨w₁, hbulk⟩ := dccRBulk_reads (.file filename) hbody hlen hw hin
  have hw1 : w₁.Benign := by
    obtain ⟨-, _, -, hsame⟩ := dccRBulk_spec hbulk
    exact hsame.benign ((hw.drop .connection _).put (.file filename) _)
  obtain ⟨w₂, hclose⟩ := dccClose_returns hw1
  refine ⟨w₂.recorded (.file filename ((w₂.files filename).getD [])), ?_⟩
  rw [receiveInto, guarded_dccRBulk, bind_of_ok (attempt_eq_ok_iff.mpr hbulk),
    bind_of_ok (attempt_eq_ok_iff.mpr hclose)]
  rfl

/-- **When nothing fails, `dcc_r_file` receives what was sent.** -/
theorem dccRFile_reads
    (hbody : Packed lzo compr text body) (hlen : body.length < 2 ^ 29) (hw : w.Benign)
    (hin : w.incoming = body ++ rest) :
    ∃ w', dccRFile lzo filename body.length compr w = some (.ok (), w') ∧
      w.Step (.takes body + .makes (.file filename text)) w' := by
  have hreturns : ∃ w', dccRFile lzo filename body.length compr w = some (.ok (), w') := by
    obtain ⟨w₁, hdirs⟩ := dccMkTmpAncestorDirs_returns filename hw
    have hmkdirs := dccMkTmpAncestorDirs_silent filename hdirs
    have hw1 : w₁.Benign := World.Step.benign hmkdirs hw
    obtain ⟨w₂, hold⟩ := removeOld_returns filename hw1
    obtain ⟨-, hdoes⟩ := removeOld_spec hold
    have hw2 := hdoes.benign hw1
    obtain ⟨w₃, hopen, hsame'⟩ := change_succeeds (·.created filename) hw2
    have hbefore := (hsame'.does (hmkdirs.toDoes.trans_zero hdoes)).trans_zero
      (World.does_created w₃ filename)
    have hin3 : (w₃.created filename).incoming = body ++ rest :=
      hbefore.incoming.symm.trans hin
    obtain ⟨w', hrun⟩ := receiveInto_returns filename hbody hlen (hbefore.benign hw) hin3
    refine ⟨w', ?_⟩
    rw [dccRFile, bind_of_ok (attempt_eq_ok_iff.mpr hdirs)]
    dsimp only
    rw [bind_of_ok hold, openWrite, bind_of_ok hopen]
    exact hrun
  obtain ⟨w', hrun⟩ := hreturns
  obtain ⟨-, text', htext, hstep⟩ := dccRFile_spec hrun
  rw [hin, List.take_left] at htext hstep
  obtain rfl := htext.eq hbody
  exact ⟨w', hrun, hstep⟩

theorem dccRTokenFile_reads {token : CString} (h4 : token.length = 4)
    (hbody : Packed lzo compr text body) (hlen : body.length < 2 ^ 29) (hw : w.Benign)
    (hin : w.incoming = packetString token body ++ rest) :
    ∃ w', dccRTokenFile lzo token filename compr w = some (.ok (), w') ∧
      w.Step (.takes (packetString token body) + .makes (.file filename text)) w' := by
  rw [packetString, List.append_assoc] at hin
  obtain ⟨w₁, hhead, hstep⟩ := dccRTokenInt_reads h4 (by omega) hw hin
  obtain ⟨w', hrun, hstep'⟩ := dccRFile_reads filename hbody hlen (hstep.benign hw)
    (hstep.incoming_eq hin)
  refine ⟨w', (bind_of_ok hhead).trans hrun, ?_⟩
  have hboth := hstep.trans hstep'
  rwa [← add_assoc, Delta.takes_add] at hboth

end Reads

end Distcc
