import Distcc.Base.Numeral
import Distcc.Io

/-!
# Packets

Model of `src/rpc.c`. Requests and responses are built of little packets, each of a
token of four letters, a number in eight digits of base 16 – a value, or the length
of what follows – and perhaps a body.

The writer's head of a packet is `packetHead`. The reader takes any twelve
bytes that `strtoul` can make something of (`IsHead`), and the writer's among
them for what was meant (`isHead_packetHead`).
-/

namespace Distcc

open CString List Prog

/-- The head of a packet, as it is written. Of the number, 32 bits are. -/
def packetHead (token : CString) (param : ℕ) : CString := token ++ hexWord param

/-- A packet, as it is written. -/
def packetString (token buf : CString) : CString := packetHead token buf.length ++ buf

/-- The number in the head of a packet, as it is read: what `strtoul` makes of the
last eight bytes, if it needs them all. -/
def tokenValue (buf : CString) : Option ℕ :=
  match strtoul (buf.drop 4) with
  | (n, []) => some (n % 2 ^ 32)
  | _ => none

/-- These bytes are read as the head of a packet with this token and this number. -/
structure IsHead (token : CString) (val : ℕ) (buf : CString) : Prop where
  length : buf.length = 12
  token : buf.take 4 = token
  value : tokenValue buf = some val

section Heads

variable {token buf : CString} {m n : ℕ}

theorem IsHead.unique (h : IsHead token m buf) (h' : IsHead token n buf) : m = n :=
  Option.some.inj (h.value.symm.trans h'.value)

theorem IsHead.token_length (h : IsHead token n buf) : token.length = 4 := by
  rw [← h.token, length_take, h.length]
  rfl

/-- The number is one of 32 bits. -/
theorem IsHead.lt (h : IsHead token n buf) : n < 2 ^ 32 := by
  have hvalue := h.value
  unfold tokenValue at hvalue
  split at hvalue
  · rw [← Option.some.inj hvalue]
    exact Nat.mod_lt _ (by decide)
  · cases hvalue

variable (h : token.length = 4) {body : CString}
include h

theorem packetHead_length : (packetHead token n).length = 12 := by
  rw [packetHead, length_append, h, hexWord_length]

/-- **What is written is what is read.** -/
theorem isHead_packetHead (hn : n < 2 ^ 32) : IsHead token n (packetHead token n) := by
  refine ⟨packetHead_length h, ?_, ?_⟩
  · rw [packetHead, ← h, take_left]
  · rw [tokenValue, packetHead, ← h, drop_left, strtoul_hexWord hn]
    exact congrArg some (Nat.mod_eq_of_lt hn)

/-- These bytes are a packet with this token and this body: a head that tells the
length of the body, and the body. -/
structure IsPacket (token body bs : CString) : Prop where
  head : IsHead token body.length (bs.take 12)
  body : bs.drop 12 = body

theorem take_packetString : (packetString token body).take 12 = packetHead token body.length := by
  rw [← packetHead_length (n := body.length) h, packetString, take_left]

theorem drop_packetString : (packetString token body).drop 12 = body := by
  rw [← packetHead_length (n := body.length) h, packetString, drop_left]

theorem isPacket_packetString
    (hlen : body.length < 2 ^ 32) : IsPacket token body (packetString token body) := by
  refine ⟨?_, drop_packetString h⟩
  rw [take_packetString h]
  exact isHead_packetHead h hlen

end Heads

/-! ### Transmitting -/

/-- `dcc_x_token_int` -/
def dccXTokenInt (token : CString) (param : ℕ) : Io Unit :=
  if token.length ≠ 4 then Prog.fail ExitCode.protocolError.failure
  else dccWritex .connection (packetHead token param)

/-- `dcc_x_token_string` -/
def dccXTokenString (token buf : CString) : Io Unit := do
  dccXTokenInt token buf.length
  dccWritex .connection buf

/-- `dcc_x_result_header` -/
def dccXResultHeader (protover : ℕ) : Io Unit := dccXTokenInt (lit "DONE") protover

/-- `dcc_x_cc_status`: the status of a process is an `int`. -/
def dccXCcStatus (status : ℤ) : Io Unit :=
  dccXTokenInt (lit "STAT") (status % 2 ^ 32).toNat

/-! ### Receiving -/

/-- `dcc_explain_mismatch`: what more there is to read at once, for the log. -/
def dccExplainMismatch (buflen : ℕ) : Io Unit := do
  let _ ← read .connection (199 - buflen)
  pure ()

/-- The end of a function that received no packet head. -/
def mismatch {α : Type} : Io α := do
  dccExplainMismatch 12
  Prog.fail ExitCode.protocolError.failure

/-- `dcc_r_token_int` -/
def dccRTokenInt (expected : CString) : Io ℕ :=
  if expected.length ≠ 4 then Prog.fail ExitCode.protocolError.failure
  else do
    let buf ← dccReadx .connection 12
    if buf.take 4 ≠ expected then mismatch
    else match tokenValue buf with
      | none => mismatch
      | some val => pure val

/-- `dcc_r_sometoken_int`: the token is copied with `strncpy`, up to a NUL. -/
def dccRSometokenInt : Io (CString × ℕ) := do
  let buf ← dccReadx .connection 12
  match tokenValue buf with
  | none => mismatch
  | some val => pure (ofBuffer (buf.take 4), val)

/-- `dcc_r_str_alloc`, and what a reader of the buffer as a string sees. Without
memory, nothing can be read into the buffer, and the NUL at its end cannot be
written. -/
def dccRStrAlloc (l : ℕ) : Io CString := do
  if ← alloc then
    match ← (dccReadx .connection l).attempt with
    | .ok buf => pure (ofBuffer buf)
    | .error _ => Prog.fail ExitCode.outOfMemory.failure
  else if l = 0 then Prog.never
  else Prog.fail ExitCode.outOfMemory.failure

/-- `dcc_r_token_string` -/
def dccRTokenString (token : CString) : Io CString := do
  let l ← dccRTokenInt token
  dccRStrAlloc l

/-- `dcc_r_argv` -/
def dccRArgv (argcToken argvToken : CString) : Io (List CString) := do
  match ← (dccRTokenInt argcToken).attempt with
  | .error _ => Prog.fail ExitCode.protocolError.failure
  | .ok argc =>
    if ← alloc then Prog.times (dccRTokenString argvToken) argc
    else Prog.fail ExitCode.outOfMemory.failure

/-! ### What they do -/

section Specs

variable {w w' : World} {token : CString} {r : Except Failure Unit}

/-- **`dcc_x_token_int`** writes a head; if it fails, it has written less. -/
theorem dccXTokenInt_spec {param : ℕ} (h : dccXTokenInt token param w = some (r, w')) :
    (r = .ok () ∧ token.length = 4 ∧ (w.put (packetHead token param) .connection).Same w') ∨
      ∃ e k, r = .error e ∧ k < 12 ∧ k ≤ (packetHead token param).length ∧
        (w.put ((packetHead token param).take k) .connection).Same w' := by
  unfold dccXTokenInt at h
  split at h
  · obtain ⟨rfl, rfl⟩ := fail_eq_some_iff.mp h
    exact .inr ⟨_, 0, rfl, by decide, Nat.zero_le _, by simpa using World.Same.refl w⟩
  · case isFalse hlen =>
    have hlen' := packetHead_length (n := param) (not_not.mp hlen)
    rcases (writeAll_total ..).spec h with ⟨rfl, hsame⟩ | ⟨e, k, rfl, hk, hsame, -⟩
    · exact .inl ⟨rfl, not_not.mp hlen, hsame⟩
    · exact .inr ⟨e, k, rfl, hlen' ▸ hk, hk.le, hsame⟩

/-- **`dcc_x_token_string`** writes a packet; if it fails, it has written less. -/
theorem dccXTokenString_spec {buf : CString} (h : dccXTokenString token buf w = some (r, w')) :
    (r = .ok () ∧ token.length = 4 ∧ (w.put (packetString token buf) .connection).Same w') ∨
      ∃ e k, r = .error e ∧ k < 12 + buf.length ∧
        (w.put ((packetString token buf).take k) .connection).Same w' := by
  rcases bind_cases h with ⟨e, rfl, hhead⟩ | ⟨_, w₁, hhead, hbody⟩
  · rcases dccXTokenInt_spec hhead with ⟨hr, -⟩ | ⟨_, k, -, hk, hle, hsame⟩
    · cases hr
    · refine .inr ⟨e, k, rfl, by omega, ?_⟩
      rwa [packetString, take_append_of_le_length hle]
  rcases dccXTokenInt_spec hhead with ⟨-, h4, hsame⟩ | ⟨_, _, hr, -⟩
  · have h12 := packetHead_length (n := buf.length) h4
    rcases (writeAll_total ..).spec hbody with ⟨rfl, hsame'⟩ | ⟨e, k, rfl, hk, hsame', -⟩
    · refine .inl ⟨rfl, h4, ?_⟩
      have hall := (hsame.put buf .connection).trans hsame'
      rwa [World.put_put] at hall
    · refine .inr ⟨e, 12 + k, rfl, by omega, ?_⟩
      have hall := (hsame.put (buf.take k) .connection).trans hsame'
      rw [← h12, packetString, take_length_add_append]
      rwa [World.put_put] at hall
  · cases hr

theorem dccExplainMismatch_total (n : ℕ) (w : World) :
    (dccExplainMismatch n).Total w fun _ w' => ∃ k, (w.drop k .connection).Same w' := by
  obtain ⟨res, w', hread, hres⟩ := read_total .connection (199 - n) w
  refine ⟨_, w', bind_of_ok hread, ?_⟩
  rcases hres with ⟨_, -, hsame, -⟩ | ⟨k, -, -, hsame, -⟩
  · exact ⟨0, by simpa using hsame⟩
  · exact ⟨k, hsame⟩

theorem mismatch_total {α : Type} (w : World) : (mismatch : Io α).Total w fun r w' =>
    (∃ e, r = .error e) ∧ ∃ k, (w.drop k .connection).Same w' :=
  (dccExplainMismatch_total 12 w).bind (fun _ w' hsame => ⟨_, w', rfl, ⟨_, rfl⟩, hsame⟩)
    fun e _ hsame => ⟨⟨e, rfl⟩, hsame⟩

/-- **`dcc_r_token_int`** reads a head with the token it expects; if it fails, what it
read does not begin with one. -/
theorem dccRTokenInt_spec {r : Except Failure ℕ} (h : dccRTokenInt token w = some (r, w')) :
    (∃ val, r = .ok val ∧ IsHead token val (w.incoming.take 12) ∧
      (w.drop 12 .connection).Same w') ∨
      ∃ e k, r = .error e ∧ (w.drop k .connection).Same w' ∧
        ∀ val, IsHead token val (w.incoming.take 12) → k < 12 := by
  unfold dccRTokenInt at h
  split at h
  · case isTrue hlen =>
    obtain ⟨rfl, rfl⟩ := fail_eq_some_iff.mp h
    exact .inr ⟨_, 0, rfl, by simpa using World.Same.refl w, fun _ _ => by decide⟩
  rcases bind_cases h with ⟨e, rfl, hread⟩ | ⟨buf, w₁, hread, hrest⟩
  · rcases (dccReadx_total ..).spec hread with ⟨-, hr, -⟩ | ⟨_, k, -, hk, -, hsame, -⟩
    · cases hr
    · exact .inr ⟨e, k, rfl, hsame, fun _ _ => hk⟩
  obtain ⟨hle, rfl, hsame⟩ := dccReadx_ok hread
  have hfails {r : Except Failure ℕ} (hnot : ∀ val, ¬IsHead token val (w.incoming.take 12))
      (hrun : mismatch w₁ = some (r, w')) : ∃ e k, r = .error e ∧
        (w.drop k .connection).Same w' ∧
          ∀ val, IsHead token val (w.incoming.take 12) → k < 12 := by
    obtain ⟨⟨e, rfl⟩, k, hsame'⟩ := (mismatch_total w₁).spec hrun
    have hdrop := hsame.drop k .connection
    rw [World.drop_drop] at hdrop
    exact ⟨e, 12 + k, rfl, hdrop.trans hsame', fun val hhead => absurd hhead (hnot val)⟩
  split at hrest
  · case isTrue htoken => exact .inr (hfails (fun _ hhead => htoken hhead.token) hrest)
  · case isFalse htoken =>
    split at hrest
    · case h_1 hnone =>
      refine .inr (hfails (fun val hhead => ?_) hrest)
      cases hnone.symm.trans hhead.value
    · case h_2 val hval =>
      obtain ⟨rfl, rfl⟩ := pure_eq_some_iff.mp hrest
      have hlen : (w.incoming.take 12).length = 12 := length_take_of_le hle
      exact .inl ⟨val, rfl, ⟨hlen, not_not.mp htoken, hval⟩, hsame⟩

end Specs

/-! ### Both ends, when nothing fails -/

section Ends

variable {w : World} {token : CString}

section

variable (h4 : token.length = 4)
include h4

theorem dccXTokenInt_sends (n : ℕ) (hw : w.Benign) :
    ∃ w', dccXTokenInt token n w = some (.ok (), w') ∧
      (w.put (packetHead token n) .connection).Same w' := by
  obtain ⟨w', hrun, hsame⟩ := writeAll_returns false .connection (packetHead token n) hw
  refine ⟨w', ?_, hsame⟩
  rw [dccXTokenInt, if_neg (not_not.mpr h4)]
  exact hrun

theorem dccXTokenString_sends (buf : CString) (hw : w.Benign) :
    ∃ w', dccXTokenString token buf w = some (.ok (), w') ∧
      w.Step (.gives (packetString token buf)) w' := by
  obtain ⟨w₁, hhead, hsame⟩ := dccXTokenInt_sends h4 buf.length hw
  obtain ⟨w', hbody, hsame'⟩ :=
    writeAll_returns false .connection buf (hsame.benign (hw.put _ _))
  exact ⟨w', (bind_of_ok hhead).trans hbody,
    (World.step_of_put hsame).trans (World.step_of_put hsame')⟩

theorem dccRTokenInt_reads {n : ℕ} {rest : CString} (hn : n < 2 ^ 32)
    (hw : w.Benign) (hin : w.incoming = packetHead token n ++ rest) :
    ∃ w', dccRTokenInt token w = some (.ok n, w') ∧ w.Step (.takes (packetHead token n)) w' := by
  obtain ⟨w', hrun, hsame⟩ := dccReadx_reads hw hin
  have hstep := World.step_of_read hin hsame
  rw [packetHead_length h4] at hrun
  have hhead := isHead_packetHead h4 hn
  refine ⟨w', ?_, hstep⟩
  rw [dccRTokenInt, if_neg (not_not.mpr h4), bind_of_ok hrun,
    if_neg (not_not.mpr hhead.token), hhead.value]
  rfl

theorem dccRSometokenInt_reads {n : ℕ} {rest : CString}
    (hnul : token.NulFree) (hn : n < 2 ^ 32) (hw : w.Benign)
    (hin : w.incoming = packetHead token n ++ rest) :
    ∃ w', dccRSometokenInt w = some (.ok (token, n), w') ∧
      w.Step (.takes (packetHead token n)) w' := by
  obtain ⟨w', hrun, hsame⟩ := dccReadx_reads hw hin
  have hstep := World.step_of_read hin hsame
  rw [packetHead_length h4] at hrun
  have hhead := isHead_packetHead h4 hn
  refine ⟨w', ?_, hstep⟩
  rw [dccRSometokenInt, bind_of_ok hrun, hhead.value, hhead.token, ofBuffer_eq_self hnul]
  rfl

end

theorem dccRStrAlloc_reads {s rest : CString} (hs : s.NulFree) (hw : w.Benign)
    (hin : w.incoming = s ++ rest) :
    ∃ w', dccRStrAlloc s.length w = some (.ok s, w') ∧ w.Step (.takes s) w' := by
  obtain ⟨b, w₁, halloc, hsame, hok⟩ := alloc_total w
  rw [hok hw] at halloc
  have hin1 : w₁.incoming = s ++ rest := (hsame.input .connection).trans hin
  obtain ⟨w', hrun, hsame'⟩ := dccReadx_reads (hsame.benign hw) hin1
  have hstep := World.step_of_read hin1 hsame'
  refine ⟨w', ?_, ?_⟩
  · rw [dccRStrAlloc, bind_of_ok halloc, if_pos rfl,
      bind_of_ok (attempt_eq_ok_iff.mpr hrun)]
    exact pure_eq_some_iff.mpr ⟨congrArg Except.ok (ofBuffer_eq_self hs), rfl⟩
  · exact hsame.step.zero_trans hstep

theorem dccRTokenString_reads {s rest : CString} (h4 : token.length = 4) (hs : s.NulFree)
    (hlen : s.length < 2 ^ 32) (hw : w.Benign)
    (hin : w.incoming = packetString token s ++ rest) :
    ∃ w', dccRTokenString token w = some (.ok s, w') ∧
      w.Step (.takes (packetString token s)) w' := by
  rw [packetString, append_assoc] at hin
  obtain ⟨w₁, hhead, hstep⟩ := dccRTokenInt_reads h4 hlen hw hin
  obtain ⟨w', hbody, hstep'⟩ := dccRStrAlloc_reads hs (hstep.benign hw) (hstep.incoming_eq hin)
  exact ⟨w', (bind_of_ok hhead).trans hbody, hstep.trans hstep'⟩

/-- Reading so many packets of one kind. -/
theorem times_reads {α β : Type} {x : Io α} {val : β → α} {delta : β → Delta} {bs : List β}
    {d : Delta} {rest : CString} (hd : (bs.map delta).sum = d)
    (hx : ∀ b ∈ bs, ∀ (w : World) (rest : CString), w.Benign →
      w.incoming = (delta b).took ++ rest →
        ∃ w', x w = some (.ok (val b), w') ∧ w.Step (delta b) w')
    (hw : w.Benign) (hin : w.incoming = d.took ++ rest) :
    ∃ w', Prog.times x bs.length w = some (.ok (bs.map val), w') ∧ w.Step d w' := by
  induction bs generalizing w d with
  | nil =>
    rw [← hd]
    exact ⟨w, rfl, .refl w⟩
  | cons b bs ih =>
    rw [map_cons, sum_cons] at hd
    rw [← hd] at hin ⊢
    rw [Delta.add_took, append_assoc] at hin
    obtain ⟨w₁, hfirst, hstep⟩ := hx b mem_cons_self w _ hw hin
    obtain ⟨w', hothers, hstep'⟩ := ih rfl (fun c hc => hx c (mem_cons_of_mem _ hc))
      (hstep.benign hw) (hstep.incoming_eq hin)
    refine ⟨w', ?_, hstep.trans hstep'⟩
    exact (bind_of_ok hfirst).trans ((bind_of_ok hothers).trans rfl)

/-- Writing a packet for every element of a list, from a file system that stays as it
is. -/
theorem forEach_sends {α β : Type} {x : α → Io Unit} {enc : β → CString} {P : World → Prop}
    (hP : ∀ ⦃w w' : World⦄ ⦃bs⦄, P w → w.Step (.gives bs) w' → P w') {as : List α} {bs : List β}
    (hx : List.Forall₂ (fun a b => ∀ w : World, w.Benign → P w →
      ∃ w', x a w = some (.ok (), w') ∧ w.Step (.gives (enc b)) w') as bs)
    (hw : w.Benign) (hPw : P w) :
    ∃ w', Prog.forEach x as w = some (.ok (), w') ∧ w.Step (.gives (bs.flatMap enc)) w' := by
  induction hx generalizing w with
  | nil => exact ⟨w, rfl, (World.Same.refl w).step⟩
  | cons hfirst _ ih =>
    obtain ⟨w₁, hrun, hstep⟩ := hfirst w hw hPw
    obtain ⟨w', hothers, hstep'⟩ := ih (hstep.benign hw) (hP hPw hstep)
    exact ⟨w', (bind_of_ok hrun).trans hothers, hstep.trans hstep'⟩

/-- A vector, as it is written. -/
def packetArgv (argcToken argvToken : CString) (argv : List CString) : CString :=
  packetHead argcToken argv.length ++ argv.flatMap (packetString argvToken)

theorem dccRArgv_reads {argcToken argvToken rest : CString} {argv : List CString}
    (hargc : argcToken.length = 4) (hargv : argvToken.length = 4) (hcount : argv.length < 2 ^ 32)
    (hwords : ∀ a ∈ argv, a.NulFree ∧ a.length < 2 ^ 32) (hw : w.Benign)
    (hin : w.incoming = packetArgv argcToken argvToken argv ++ rest) :
    ∃ w', dccRArgv argcToken argvToken w = some (.ok argv, w') ∧
      w.Step (.takes (packetArgv argcToken argvToken argv)) w' := by
  rw [packetArgv, append_assoc] at hin
  obtain ⟨w₁, hhead, hstep⟩ := dccRTokenInt_reads hargc hcount hw hin
  obtain ⟨w₂, hsame, halloc⟩ := alloc_then_of_benign
    (Prog.times (dccRTokenString argvToken) argv.length) ExitCode.outOfMemory.failure
    (hstep.benign hw)
  have hin2 : w₂.incoming = argv.flatMap (packetString argvToken) ++ rest :=
    (hsame.input .connection).trans (hstep.incoming_eq hin)
  have hread (a : CString) (ha : a ∈ argv) (w : World) (rest : CString) (hw : w.Benign)
      (hin : w.incoming = (Delta.takes (packetString argvToken a)).took ++ rest) :
      ∃ w', dccRTokenString argvToken w = some (.ok (id a), w') ∧
        w.Step (.takes (packetString argvToken a)) w' :=
    dccRTokenString_reads hargv (hwords a ha).1 (hwords a ha).2 hw hin
  obtain ⟨w', hwords', hstep'⟩ := times_reads (Delta.sum_takes (packetString argvToken) argv) hread
    (hsame.benign (hstep.benign hw)) hin2
  rw [map_id] at hwords'
  refine ⟨w', ?_, ?_⟩
  · rw [dccRArgv, bind_of_ok (attempt_eq_ok_iff.mpr hhead)]
    exact halloc.trans hwords'
  · exact (hstep.trans_zero hsame.step).trans hstep'

end Ends

end Distcc
