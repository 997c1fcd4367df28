import Distcc.Request.Server

/-!
# What reading and writing leave alone

A bystander (`Bystander`) does not notice when a message is read from the
connection or a file is received, however that ends; what it does notice, and has to be
asked about, are the calls that change the file system. One that does not look at what
is written either does not notice when a file is sent.

Each function is settled by the rules for sequences and loops, from the functions it
calls.
-/

namespace Distcc

open CString Prog

section Keeping

variable {R : World → World → Prop} [IsPreorder World R] (hR : Bystander R) {dst : Sink}

include hR

omit [IsPreorder World R] in
theorem Bystander.syscall : Prog.Keeps R syscall := syscall_keeps.mono hR.same

omit [IsPreorder World R] in
theorem Bystander.dccClose : dccClose.attempt.Keeps R := (dccClose_keeps.mono hR.same).attempt

theorem Bystander.alloc_then {α : Type} {x : Io α} (hx : x.Keeps R) (e : Failure) :
    (do if ← alloc then x else Prog.fail e : Io α).Keeps R := by
  refine (alloc_keeps.mono hR.same).bind fun room => ?_
  cases room with
  | true => exact hx
  | false => exact keeps_fail e

/-! ### Bytes -/

theorem dccReadx_keeps (src : Source) (len : ℕ) : (dccReadx src len).Keeps R := by
  intro w r w' h
  rcases (dccReadx_total ..).spec h with ⟨-, -, hsame⟩ | ⟨_, _, -, -, -, hsame, -⟩
  · exact hR.drop_then hsame
  · exact hR.drop_then hsame

theorem dccWritex_keeps (hput : ∀ (w : World) (bs : CString), R w (w.put bs dst))
    (buf : CString) : (dccWritex dst buf).Keeps R := by
  intro w r w' h
  rcases (writeAll_total ..).spec h with ⟨-, hsame⟩ | ⟨_, _, -, -, hsame, -⟩
  · exact IsTrans.trans _ _ _ (hput w _) (hR.same hsame)
  · exact IsTrans.trans _ _ _ (hput w _) (hR.same hsame)

theorem dccPumpReadwrite_keeps
    (hput : ∀ (w : World) (bs : CString), R w (w.put bs dst)) (src : Source) (n : ℕ) :
    (dccPumpReadwrite dst src n).Keeps R := by
  intro w r w' h
  rcases (dccPumpReadwrite_total ..).spec h with ⟨-, -, hsame⟩ | ⟨_, _, _, -, -, -, -, hsame, -⟩
  · exact IsTrans.trans _ _ _ (hR.drop w _ _)
      (IsTrans.trans _ _ _ (hput _ _) (hR.same hsame))
  · exact IsTrans.trans _ _ _ (hR.drop w _ _)
      (IsTrans.trans _ _ _ (hput _ _) (hR.same hsame))

theorem dccPumpSendfile_keeps (hput : ∀ (w : World) (bs : CString), R w (w.put bs dst)) (size : ℕ) :
    (dccPumpSendfile dst size).Keeps R := by
  intro w r w' h
  rcases (dccPumpSendfile_total ..).spec h with ⟨-, -, _, hsame⟩ | ⟨_, _, _, -, -, hsame, -⟩
  · exact IsTrans.trans _ _ _ (hR.drop w _ _)
      (IsTrans.trans _ _ _ (hput _ _) (hR.same hsame))
  · exact IsTrans.trans _ _ _ (hR.drop w _ _)
      (IsTrans.trans _ _ _ (hput _ _) (hR.same hsame))

/-! ### Packets -/

theorem mismatch_keeps {α : Type} : (mismatch : Io α).Keeps R := by
  intro w r w' h
  obtain ⟨-, k, hsame⟩ := (mismatch_total _).spec h
  exact hR.drop_then hsame

theorem dccRTokenInt_keeps (token : CString) : (dccRTokenInt token).Keeps R := by
  intro w r w' h
  rcases dccRTokenInt_spec h with ⟨_, -, -, hsame⟩ | ⟨_, _, -, hsame, -⟩
  · exact hR.drop_then hsame
  · exact hR.drop_then hsame

theorem dccRSometokenInt_keeps : dccRSometokenInt.Keeps R := by
  refine (dccReadx_keeps hR .connection 12).bind fun buf => ?_
  split
  · exact mismatch_keeps hR
  · exact keeps_pure _

theorem dccRStrAlloc_keeps (l : ℕ) : (dccRStrAlloc l).Keeps R := by
  refine (alloc_keeps.mono hR.same).bind fun room => ?_
  cases room with
  | true =>
    refine (dccReadx_keeps hR .connection l).attempt.bind_result ?_ fun _ => keeps_pure _
    exact fun _ => keeps_fail _
  | false =>
    rw [if_neg Bool.false_ne_true]
    split
    · exact keeps_never
    · exact keeps_fail _

theorem dccRTokenString_keeps (token : CString) : (dccRTokenString token).Keeps R :=
  (dccRTokenInt_keeps hR token).bind fun l => dccRStrAlloc_keeps hR l

theorem dccRArgv_keeps (argcToken argvToken : CString) :
    (dccRArgv argcToken argvToken).Keeps R := by
  refine (dccRTokenInt_keeps hR argcToken).attempt.bind_result (fun _ => keeps_fail _) ?_
  exact fun argc => hR.alloc_then ((dccRTokenString_keeps hR argvToken).times argc) _

/-! ### Sending a file -/

theorem openRead_keeps (fname : CString) : (openRead fname).Keeps R := by
  intro w r w' h
  rcases openRead_spec h with ⟨_, -, hsame⟩ | ⟨content, -, -, hsame⟩
  · exact hR.same hsame
  · exact IsTrans.trans _ _ _ (hR.reading w content) (hR.same hsame)

theorem dccOpenRead_keeps (fname : CString) : (dccOpenRead fname).Keeps R := by
  refine (openRead_keeps hR fname).bind fun res => ?_
  rcases res with e | _
  · cases e with
    | noent => exact keeps_pure _
    | again => exact keeps_fail _
    | intr => exact keeps_fail _
    | other => exact keeps_fail _
  · refine hR.syscall.bind_result (fun _ => hR.dccClose.bind fun _ => keeps_fail _) fun _ => ?_
    exact keeps_get.bind fun _ => keeps_pure _

theorem dccCompressFileLzo1x_keeps (lzo : Lzo) (inLen : ℕ) :
    (dccCompressFileLzo1x lzo inLen).Keeps R := by
  intro w r w' h
  rcases (dccCompressFileLzo1x_total ..).spec h with ⟨-, -, hsame⟩ | ⟨_, _, -, hsame, -⟩
  · exact hR.drop_then hsame
  · exact hR.drop_then hsame

section Sending

variable (hsent : ∀ (w : World) (bs : CString), R w (w.put bs .connection))

include hsent

theorem dccXTokenInt_keeps (token : CString) (n : ℕ) : (dccXTokenInt token n).Keeps R := by
  unfold dccXTokenInt
  split
  · exact keeps_fail _
  · exact dccWritex_keeps hR hsent _

theorem dccXFileBody_keeps (lzo : Lzo) (token : CString) (fSize : ℕ)
    (compression : Compress) : (dccXFileBody lzo token fSize compression).Keeps R := by
  cases compression with
  | none => exact dccPumpSendfile_keeps hR hsent fSize
  | lzo1x =>
    change (dccXFileLzo1x lzo token (fSize % 2 ^ 32)).Keeps R
    unfold dccXFileLzo1x
    split
    · exact dccXTokenInt_keeps hR hsent token 0
    · refine (dccCompressFileLzo1x_keeps hR lzo _).bind fun outBuf => ?_
      exact (dccXTokenInt_keeps hR hsent token _).bind fun _ => dccWritex_keeps hR hsent outBuf

theorem dccXFileHead_keeps (fname token : CString) (compression : Compress) :
    (dccXFileHead fname token compression).Keeps R := by
  refine (dccOpenRead_keeps hR fname).attempt.bind fun ret => ?_
  rcases ret with _ | _ | fSize
  · exact keeps_fail _
  · exact keeps_fail _
  cases compression with
  | lzo1x => exact keeps_pure _
  | none =>
    refine (dccXTokenInt_keeps hR hsent token fSize).attempt.bind_result ?_ fun _ => keeps_pure _
    exact fun e => hR.dccClose.bind fun _ => keeps_fail e

theorem dccXFile_keeps (lzo : Lzo) (fname token : CString) (compression : Compress) :
    (dccXFile lzo fname token compression).Keeps R := by
  refine (dccXFileHead_keeps hR hsent fname token compression).bind fun fSize => ?_
  refine (dccXFileBody_keeps hR hsent lzo token fSize compression).attempt.bind fun _ => ?_
  exact hR.dccClose.bind fun _ => keeps_pure ()

end Sending

/-! ### Receiving a file -/

theorem decompressTurn_keeps (lzo : Lzo) (name inBuf : CString) (outSize : ℕ) :
    (decompressTurn lzo (.file name) inBuf outSize).Keeps R := by
  refine hR.alloc_then ?_ _
  unfold unpack
  split
  · exact (dccWritex_keeps hR (fun w bs => hR.put w bs name) _).bind fun _ => keeps_pure _
  · exact keeps_pure _
  · exact keeps_fail _

theorem dccRBulk_keeps (lzo : Lzo) (name : CString) (fSize : ℕ) (compr : Compress) :
    (dccRBulk lzo (.file name) fSize compr).Keeps R := by
  unfold dccRBulk
  split
  · exact keeps_pure _
  cases compr with
  | none => exact dccPumpReadwrite_keeps hR (fun w bs => hR.put w bs name) .connection fSize
  | lzo1x =>
    change (dccRBulkLzo1x lzo (.file name) fSize).Keeps R
    unfold dccRBulkLzo1x
    split
    · exact keeps_pure _
    · refine hR.alloc_then ?_ _
      refine (dccReadx_keeps hR .connection fSize).bind fun inBuf => ?_
      exact keeps_loopFor (decompressTurn_keeps hR lzo name inBuf) _

theorem prependDirToName_keeps (dirname path : CString) :
    (prependDirToName dirname path).Keeps R :=
  hR.alloc_then (keeps_pure _) _

theorem placeTarget_keeps (dirname target : CString) : (placeTarget dirname target).Keeps R := by
  unfold placeTarget
  split
  · exact prependDirToName_keeps hR dirname target
  · exact keeps_pure _

theorem dccRRequestHeader_keeps : dccRRequestHeader.Keeps R := by
  refine (dccRTokenInt_keeps hR _).bind fun vers => ?_
  split
  · exact keeps_fail _
  · exact keeps_pure _

variable {name : CString} (hremove : ∀ w : World, R w (w.removed name))

include hremove

theorem removeOld_keeps : (removeOld name).Keeps R := by
  refine hR.syscall.bind_result (fun _ => keeps_pure _) fun _ => ?_
  refine keeps_get.bind fun w => ?_
  split
  · exact (change_keeps hR.same hremove).bind fun _ => keeps_pure _
  · exact keeps_pure _

theorem receiveInto_keeps (lzo : Lzo) (len : ℕ) (compr : Compress) :
    (receiveInto lzo name len compr).Keeps R := by
  unfold receiveInto
  rw [guarded_dccRBulk]
  refine (dccRBulk_keeps hR lzo name len compr).attempt.bind fun ret => ?_
  refine hR.dccClose.bind fun closeRet => ?_
  have hunlink : (do
      let _ ← unlink name
      Prog.fail ExitCode.ioError.failure : Io Unit).Keeps R :=
    (change_keeps hR.same hremove).bind fun _ => keeps_fail _
  rcases ret with _ | _
  · exact hunlink
  · rcases closeRet with _ | _
    · exact hunlink
    · exact keeps_modify fun w => hR.log w _

/-! ### Receiving many files -/

theorem addCleanupOrUnlink_keeps : (addCleanupOrUnlink name).Keeps R := by
  refine ((dccAddCleanup_keeps name).mono hR.same).attempt.bind_result ?_ fun _ => keeps_pure _
  exact fun e => (change_keeps hR.same hremove).bind fun _ => keeps_fail e

variable (hdirs : (dccMkTmpAncestorDirs name).Keeps R)

include hdirs

theorem receiveLink_keeps (dirname : CString) (linkLen : ℕ)
    (hlink : ∀ (w : World) (target : CString), R w (w.linked target name)) :
    (receiveLink dirname name linkLen).Keeps R := by
  refine (dccRStrAlloc_keeps hR linkLen).bind fun target => ?_
  refine (placeTarget_keeps hR dirname target).bind fun target => ?_
  refine hdirs.bind fun _ => ?_
  refine (change_keeps hR.same fun w => hlink w target).bind_result (fun _ => keeps_fail _) ?_
  exact fun _ => addCleanupOrUnlink_keeps hR hremove

variable (hcreate : ∀ w : World, R w (w.created name))

include hcreate

theorem dccRFile_keeps (lzo : Lzo) (len : ℕ) (compr : Compress) :
    (dccRFile lzo name len compr).Keeps R := by
  refine hdirs.attempt.bind_result (fun _ => keeps_fail _) fun _ => ?_
  refine (removeOld_keeps hR hremove).bind fun _ => ?_
  refine (change_keeps hR.same hcreate).bind_result (fun _ => keeps_fail _) fun _ => ?_
  exact receiveInto_keeps hR hremove lzo len compr

theorem dccRTokenFile_keeps (lzo : Lzo) (token : CString) (compr : Compress) :
    (dccRTokenFile lzo token name compr).Keeps R :=
  (dccRTokenInt_keeps hR token).bind fun len =>
    dccRFile_keeps hR hremove hdirs hcreate lzo len compr

theorem receiveEntry_keeps (hlink : ∀ (w : World) (target : CString), R w (w.linked target name))
    (lzo : Lzo) (dirname : CString) (compr : Compress) (token : CString) (len : ℕ) :
    (receiveEntry lzo dirname name compr token len).Keeps R := by
  unfold receiveEntry
  split
  · exact receiveLink_keeps hR hremove hdirs dirname len hlink
  split
  · refine (dccRFile_keeps hR hremove hdirs hcreate lzo len compr).bind fun _ => ?_
    exact addCleanupOrUnlink_keeps hR hremove
  · exact mismatch_keeps hR

end Keeping

end Distcc
