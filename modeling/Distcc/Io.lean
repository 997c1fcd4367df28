import Distcc.Kernel

/-!
# Reading and writing exactly

Model of `src/io.c`: waiting for a descriptor, and the two loops that read or write
an exact number of bytes whatever the system makes of each call.

Each loop is given as many turns as it can need: a turn uses up a reply of the
script, or moves a byte. So it always comes to an end. Whatever the system does, a loop
that returns 0 has moved all its bytes, one that fails not all of them, and in a benign
world none fails (`dccReadx_total`, `writeAll_total`).
-/

namespace Distcc

open List Prog

/-- A loop of as many turns as the replies there are and `size` more. -/
def loopFor {α β : Type} (size : ℕ) (turn : β → Io (β ⊕ α)) (b : β) : Io α :=
  ⟨fun w => Prog.loop turn (w.script.length + size + 1) b w⟩

section Loops

variable {α β : Type} {size : ℕ} {turn : β → Io (β ⊕ α)} {b : β} {w w' : World}
  {Q : Except Failure α → World → Prop} {I : β → World → Prop}

theorem keeps_loopFor {R : World → World → Prop} [IsPreorder World R]
    (hturn : ∀ b, (turn b).Keeps R) (b : β) : (loopFor size turn b).Keeps R :=
  fun w _ _ h => Prog.Keeps.loop hturn (w.script.length + size + 1) b h

theorem loopFor_rule (hnext : ∀ ⦃b w b' w'⦄, I b w → turn b w = some (.ok (.inl b'), w') → I b' w')
    (hdone : ∀ ⦃b w a w'⦄, I b w → turn b w = some (.ok (.inr a), w') → Q (.ok a) w')
    (hfail : ∀ ⦃b w e w'⦄, I b w → turn b w = some (.error e, w') → Q (.error e) w')
    {r : Except Failure α} (hI : I b w) (h : loopFor size turn b w = some (r, w')) : Q r w' :=
  loop_rule (n := w.script.length + size + 1) hnext hdone hfail hI h

theorem loopFor_total (m : β → World → ℕ) (hturn : ∀ ⦃b w⦄, I b w →
      (turn b).Total w (TurnEnds (fun b' w' => I b' w' ∧ m b' w' < m b w) Q))
    (hI : I b w) (hm : m b w ≤ w.script.length + size) : (loopFor size turn b).Total w Q :=
  loop_total m hturn hI (Nat.lt_succ_of_le hm)

end Loops

/-! ### Waiting -/

/-- `dcc_select_for_read`, until `select` says something: interrupted, or without the
descriptor in its set, it is called again. -/
def dccSelectForRead : Io Unit :=
  loopFor 0 (fun _ => do
    match ← nextReply with
    | .error .intr => pure (.inl ())
    | .error _ => Prog.fail ExitCode.ioError.failure
    | .zero => Prog.fail ExitCode.ioError.failure
    | .short _ => pure (.inl ())
    | .full => pure (.inr ())) ()

/-- `dcc_select_for_write`: a descriptor that is not writable but has failed will do. -/
def dccSelectForWrite : Io Unit :=
  loopFor 0 (fun _ => do
    match ← nextReply with
    | .error .intr => pure (.inl ())
    | .error _ => Prog.fail ExitCode.ioError.failure
    | .zero => Prog.fail ExitCode.ioError.failure
    | .short _ | .full => pure (.inr ())) ()

/-! ### Moving bytes -/

/-- A turn of the loop in `dcc_readx`, with what was read so far and the number of
bytes that are left to read. -/
def readxTurn (src : Source) : CString × ℕ → Io (CString × ℕ ⊕ CString)
  | (buf, 0) => pure (.inr buf)
  | (buf, len) => do
    match ← read src len with
    | .error .again => do
      dccSelectForRead
      pure (.inl (buf, len))
    | .error .intr => pure (.inl (buf, len))
    | .error _ => Prog.fail ExitCode.ioError.failure
    | .ok [] => Prog.fail ExitCode.truncated.failure
    | .ok bs => pure (.inl (buf ++ bs, len - bs.length))

/-- `dcc_readx` -/
def dccReadx (src : Source) (len : ℕ) : Io CString := loopFor len (readxTurn src) ([], len)

/-- A turn of a loop that writes, with what is left to write. Whether a call that
writes nothing is an error depends on the loop. -/
def writeTurn (zeroFails : Bool) (dst : Sink) : CString → Io (CString ⊕ Unit)
  | [] => pure (.inr ())
  | buf => do
    match ← write dst buf with
    | .error .again => do
      dccSelectForWrite
      pure (.inl buf)
    | .error .intr => pure (.inl buf)
    | .error _ => Prog.fail ExitCode.ioError.failure
    | .ok r =>
      if zeroFails ∧ r = 0 then Prog.fail ExitCode.ioError.failure else pure (.inl (buf.drop r))

/-- Writing all of a buffer. -/
def writeAll (zeroFails : Bool) (dst : Sink) (buf : CString) : Io Unit :=
  loopFor buf.length (writeTurn zeroFails dst) buf

/-- `dcc_writex`: a call that writes nothing is made again. -/
def dccWritex (dst : Sink) (buf : CString) : Io Unit := writeAll false dst buf

/-- `dcc_close` -/
def dccClose : Io Unit := do
  match ← syscall with
  | .ok () => pure ()
  | .error _ => Prog.fail ExitCode.ioError.failure

/-! ### What they do -/

section Specs

variable {w w' : World}

/-- Waiting goes on while `select` says nothing. -/
theorem wait_total {answer : Reply → Io (Unit ⊕ Unit)}
    (hanswer : ∀ reply w, ∃ r, answer reply w = some (r, w) ∧
      (r = .ok (.inl ()) → reply ≠ .full)) (w : World) :
    (loopFor 0 (fun _ => nextReply >>= answer) ()).Total w fun _ => w.Same := by
  refine loopFor_total (I := fun _ w₁ => w.Same w₁) (fun _ w₁ => w₁.script.length) ?_ (.refl w)
    le_rfl
  intro _ w₁ hw1
  obtain ⟨reply, w₂, hreply, hsame, -, hshorter⟩ := nextReply_total w₁
  obtain ⟨r, hrun, hnext⟩ := hanswer reply w₂
  refine ⟨r, w₂, (bind_of_ok hreply).trans hrun, ?_⟩
  rcases r with e | _ | _
  · exact .error (hw1.trans hsame)
  · exact .next ⟨hw1.trans hsame, hshorter.resolve_left (hnext rfl)⟩
  · exact .done (hw1.trans hsame)

theorem dccSelectForRead_total (w : World) : dccSelectForRead.Total w fun _ => w.Same := by
  refine wait_total ?_ w
  rintro (_ | _ | _ | _ | _ | _ | _) w <;> exact ⟨_, rfl, by simp⟩

theorem dccSelectForWrite_total (w : World) : dccSelectForWrite.Total w fun _ => w.Same := by
  refine wait_total ?_ w
  rintro (_ | _ | _ | _ | _ | _ | _) w <;> exact ⟨_, rfl, by simp⟩

/-- A turn that waits, and then goes on as before. -/
theorem waitThen_total {α β : Type} {wait : Io Unit} {next : β → World → Prop}
    {final : Except Failure α → World → Prop} {b : β} (hwait : ∀ w, wait.Total w fun _ => w.Same)
    (hnext : ∀ ⦃w'⦄, w.Same w' → next b w') (hfail : ∀ e w', w.Same w' → final (.error e) w') :
    (wait >>= fun _ => pure (.inl b) : Io (β ⊕ α)).Total w (TurnEnds next final) :=
  (hwait w).bind (fun _ w' hsame => ⟨_, w', rfl, .next (hnext hsame)⟩) fun e _ hsame =>
    .error (hfail e _ hsame)

/-- A turn of a loop that moves `len` bytes goes on, with some of them moved or with less of
the script left. -/
def MovesOn {β : Type} (len bound : ℕ) (left : ℕ → β) (after : ℕ → World) (w : World) (b : β)
    (w' : World) : Prop :=
  ∃ k ≤ bound, b = left k ∧ (after k).Same w' ∧
    w'.script.length + (len - k) < w.script.length + len

/-- Nothing was moved, and it is to be tried again. -/
theorem MovesOn.again {β : Type} {len bound : ℕ} {left : ℕ → β} {after : ℕ → World} {b : β}
    {w₁ : World} (hsame : w.Same w₁) (hshorter : w₁.script.length < w.script.length)
    (hsame' : w₁.Same w') (hleft : b = left 0 := by simp) (hafter : after 0 = w := by simp) :
    MovesOn len bound left after w b w' := by
  refine ⟨0, Nat.zero_le _, hleft, ?_, ?_⟩
  · rw [hafter]
    exact hsame.trans hsame'
  · exact Nat.add_lt_add_right (hsame'.script.length_le.trans_lt hshorter) _

/-- What a turn of `dcc_readx` does: it goes on with more read, is done, or fails and
changes nothing. -/
theorem readxTurn_total (src : Source) (buf : CString) (len : ℕ) (w : World) :
    (readxTurn src (buf, len)).Total w (TurnEnds
      (MovesOn len (min len (w.input src).length)
        (fun k => (buf ++ (w.input src).take k, len - k)) (w.drop · src) w)
      (fun r w' => (r = .ok buf ∧ len = 0 ∧ w' = w) ∨ ∃ e, r = .error e ∧ 0 < len ∧
        w.Same w' ∧ ¬(w.Benign ∧ len ≤ (w.input src).length))) := by
  cases len with
  | zero => exact ⟨_, _, rfl, .done (.inl ⟨rfl, rfl, rfl⟩)⟩
  | succ len =>
    obtain ⟨res, w₁, hread, hres⟩ := read_total src (len + 1) w
    rw [Prog.Total, readxTurn, bind_of_ok hread]
    · rcases hres with ⟨e, rfl, hsame, hshorter, hnot⟩ | ⟨k, hk, rfl, hsame, hpos, -⟩
      · cases e with
        | again =>
          exact waitThen_total dccSelectForRead_total (fun _ => .again hsame hshorter)
            fun e _ hsame' => .inr ⟨e, rfl, Nat.succ_pos _, hsame.trans hsame', fun h => hnot h.1⟩
        | intr => exact ⟨_, _, rfl, .next (.again hsame hshorter (.refl w₁))⟩
        | noent | other =>
          exact ⟨_, _, rfl, .error (.inr ⟨_, rfl, Nat.succ_pos _, hsame, fun h => hnot h.1⟩)⟩
      · have hlen : ((w.input src).take k).length = k := by
          rw [length_take]
          omega
        have hscript := hsame.script.length_le
        rw [World.drop_script] at hscript
        cases hbs : (w.input src).take k with
        | nil =>
          obtain rfl : k = 0 := by simpa [hbs] using hlen.symm
          refine ⟨_, _, rfl, .error (.inr ⟨_, rfl, Nat.succ_pos _, by simpa using hsame, ?_⟩)⟩
          exact fun h => Nat.lt_irrefl 0 (hpos h.1 (by omega))
        | cons b bs =>
          rw [hbs, length_cons] at hlen
          refine ⟨_, _, rfl, .next ⟨k, hk, ?_, hsame, by omega⟩⟩
          dsimp only
          rw [hbs, length_cons, hlen]
    · exact Nat.succ_ne_zero _

/-- **`dcc_readx`** hands over the next `len` bytes, all of them; if it fails, it has
read fewer. In a benign world, with enough to read, it does not fail. -/
theorem dccReadx_total (src : Source) (len : ℕ) (w : World) :
    (dccReadx src len).Total w fun r w' =>
      (len ≤ (w.input src).length ∧ r = .ok ((w.input src).take len) ∧
          (w.drop len src).Same w') ∨
        ∃ e k, r = .error e ∧ k < len ∧ k ≤ (w.input src).length ∧ (w.drop k src).Same w' ∧
          ¬(w.Benign ∧ len ≤ (w.input src).length) := by
  refine loopFor_total (I := fun b w₁ => ∃ k, k + b.2 = len ∧ k ≤ (w.input src).length ∧
      b.1 = (w.input src).take k ∧ (w.drop k src).Same w₁) (fun b w₁ => w₁.script.length + b.2) ?_
    ⟨0, Nat.zero_add len, Nat.zero_le _, rfl, by simpa using World.Same.refl w⟩ le_rfl
  rintro ⟨buf, n⟩ w₁ ⟨k, hk, hle, rfl, hsame⟩
  dsimp only at hk
  have hinput : w₁.input src = (w.input src).drop k := by rw [hsame.input, World.input_drop]
  obtain ⟨r, w₂, hturn, hends⟩ := readxTurn_total src ((w.input src).take k) n w₁
  rw [hinput, length_drop] at hends
  refine ⟨r, w₂, hturn, hends.imp ?_ ?_⟩
  · rintro _ ⟨j, hj, rfl, hsame', hless⟩
    refine ⟨⟨k + j, by dsimp only; omega, by omega, take_add.symm, ?_⟩, hless⟩
    have hdrop := hsame.drop j src
    rw [World.drop_drop] at hdrop
    exact hdrop.trans hsame'
  · rintro _ (⟨rfl, rfl, rfl⟩ | ⟨e, rfl, hpos, hsame', hnot⟩)
    · obtain rfl : k = len := hk
      exact .inl ⟨hle, rfl, hsame⟩
    · refine .inr ⟨e, k, rfl, by omega, hle, hsame.trans hsame', fun h => hnot ?_⟩
      exact ⟨hsame.benign (h.1.drop src k), by omega⟩

theorem dccReadx_ok {src : Source} {len : ℕ} {bs : CString}
    (h : dccReadx src len w = some (.ok bs, w')) :
    len ≤ (w.input src).length ∧ bs = (w.input src).take len ∧ (w.drop len src).Same w' := by
  rcases (dccReadx_total src len w).spec h with ⟨hle, hr, hsame⟩ | ⟨_, _, hr, -⟩
  · exact ⟨hle, Except.ok.inj hr, hsame⟩
  · cases hr

/-- In a benign world, `dcc_readx` of what is there succeeds. -/
theorem dccReadx_returns {src : Source} {len : ℕ} (hw : w.Benign)
    (hle : len ≤ (w.input src).length) :
    ∃ w', dccReadx src len w = some (.ok ((w.input src).take len), w') ∧
      (w.drop len src).Same w' := by
  obtain ⟨_, w', hrun, ⟨-, rfl, hsame⟩ | ⟨_, _, -, -, -, -, hnot⟩⟩ := dccReadx_total src len w
  · exact ⟨w', hrun, hsame⟩
  · exact absurd ⟨hw, hle⟩ hnot

/-- The reader reads what is there. -/
theorem dccReadx_reads {bs rest : CString} (hw : w.Benign) (hin : w.incoming = bs ++ rest) :
    ∃ w', dccReadx .connection bs.length w = some (.ok bs, w') ∧
      (w.drop bs.length .connection).Same w' := by
  have hle : bs.length ≤ (w.input .connection).length := by
    rw [World.input, hin, length_append]
    exact Nat.le_add_right _ _
  obtain ⟨w', hrun, hsame⟩ := dccReadx_returns hw hle
  rw [World.input, hin, take_left] at hrun
  exact ⟨w', hrun, hsame⟩

/-- What a turn of writing does: it goes on with more written, is done, or fails and
changes nothing. -/
theorem writeTurn_total (zeroFails : Bool) (dst : Sink) (buf : CString) (w : World) :
    (writeTurn zeroFails dst buf).Total w (TurnEnds
      (MovesOn buf.length buf.length buf.drop (fun k => w.put (buf.take k) dst) w)
      (fun r w' => (r = .ok () ∧ buf = [] ∧ w' = w) ∨
        ∃ e, r = .error e ∧ 0 < buf.length ∧ w.Same w' ∧ ¬w.Benign)) := by
  cases buf with
  | nil => exact ⟨_, _, rfl, .done (.inl ⟨rfl, rfl, rfl⟩)⟩
  | cons b bs =>
    obtain ⟨res, w₁, hwrite, hres⟩ := write_total dst (b :: bs) w
    rw [Prog.Total, writeTurn, bind_of_ok hwrite]
    · rcases hres with ⟨e, rfl, hsame, hshorter, hnot⟩ | ⟨k, hk, rfl, hsame, hpos, hprogress⟩
      · cases e with
        | again =>
          exact waitThen_total dccSelectForWrite_total (fun _ => .again hsame hshorter)
            fun e _ hsame' => .inr ⟨e, rfl, Nat.succ_pos _, hsame.trans hsame', hnot⟩
        | intr => exact ⟨_, _, rfl, .next (.again hsame hshorter (.refl w₁))⟩
        | noent | other => exact ⟨_, _, rfl, .error (.inr ⟨_, rfl, Nat.succ_pos _, hsame, hnot⟩)⟩
      · dsimp only
        split
        · case isTrue hzero =>
          obtain rfl := hzero.2
          refine ⟨_, _, rfl, .error (.inr ⟨_, rfl, Nat.succ_pos _, by simpa using hsame, ?_⟩)⟩
          exact fun hw => Nat.lt_irrefl 0 (hpos hw (Nat.succ_pos _))
        · have hscript := hsame.script.length_le
          rw [World.put_script] at hscript
          rw [length_cons] at hk hprogress
          exact ⟨_, _, rfl, .next ⟨k, hk, rfl, hsame, by rw [length_cons]; omega⟩⟩
    · exact cons_ne_nil _ _

/-- **Writing a buffer** writes all of it; if it fails, it has written less. In a benign
world it does not fail. -/
theorem writeAll_total (zeroFails : Bool) (dst : Sink) (buf : CString) (w : World) :
    (writeAll zeroFails dst buf).Total w fun r w' =>
      (r = .ok () ∧ (w.put buf dst).Same w') ∨
        ∃ e k, r = .error e ∧ k < buf.length ∧ (w.put (buf.take k) dst).Same w' ∧
          ¬w.Benign := by
  refine loopFor_total
    (I := fun rest w₁ => ∃ k ≤ buf.length, rest = buf.drop k ∧ (w.put (buf.take k) dst).Same w₁)
    (fun rest w₁ => w₁.script.length + rest.length) ?_
    ⟨0, Nat.zero_le _, rfl, by simpa using World.Same.refl w⟩ le_rfl
  rintro _ w₁ ⟨k, hk, rfl, hsame⟩
  obtain ⟨r, w₂, hturn, hends⟩ := writeTurn_total zeroFails dst (buf.drop k) w₁
  refine ⟨r, w₂, hturn, hends.imp ?_ ?_⟩
  · rintro _ ⟨j, hj, rfl, hsame', hless⟩
    rw [length_drop] at hj
    refine ⟨⟨k + j, by omega, drop_drop, ?_⟩, by rwa [length_drop (l := buf.drop k)]⟩
    have hput := hsame.put ((buf.drop k).take j) dst
    rw [World.put_put, ← take_add] at hput
    exact hput.trans hsame'
  · rintro _ (⟨rfl, hnil, rfl⟩ | ⟨e, rfl, hpos, hsame', hnot⟩)
    · have hall : buf.take k = buf := take_of_length_le (drop_eq_nil_iff.mp hnil)
      rw [hall] at hsame
      exact .inl ⟨rfl, hsame⟩
    · rw [length_drop] at hpos
      refine .inr ⟨e, k, rfl, by omega, hsame.trans hsame', fun hw => hnot ?_⟩
      exact hsame.benign (hw.put dst _)

theorem writeAll_ok {zeroFails : Bool} {dst : Sink} {buf : CString}
    (h : writeAll zeroFails dst buf w = some (.ok (), w')) : (w.put buf dst).Same w' := by
  rcases (writeAll_total zeroFails dst buf w).spec h with ⟨-, hsame⟩ | ⟨_, _, hr, -⟩
  · exact hsame
  · cases hr

/-- In a benign world writing a buffer succeeds. -/
theorem writeAll_returns (zeroFails : Bool) (dst : Sink) (buf : CString) (hw : w.Benign) :
    ∃ w', writeAll zeroFails dst buf w = some (.ok (), w') ∧ (w.put buf dst).Same w' := by
  obtain ⟨_, w', hrun, ⟨rfl, hsame⟩ | ⟨_, _, -, -, -, hnot⟩⟩ := writeAll_total zeroFails dst buf w
  · exact ⟨w', hrun, hsame⟩
  · exact absurd hw hnot

/-! ### Closing -/

theorem dccClose_keeps : dccClose.Keeps World.Same := by
  refine Prog.Keeps.bind ?_ fun res => ?_
  · intro w r w' h
    obtain ⟨_, -, hsame, -⟩ := Prog.Total.spec_ok (syscall_total w) h
    exact hsame
  · cases res with
    | ok _ => exact keeps_pure _
    | error _ => exact keeps_fail _

theorem dccClose_returns (hw : w.Benign) : ∃ w', dccClose w = some (.ok (), w') := by
  obtain ⟨w', hcall, -⟩ := syscall_succeeds hw
  exact ⟨w', bind_of_ok hcall⟩

/-- Closing a file, whatever comes of it, and what comes after. -/
theorem close_then_cases {α : Type} {x : Io α} {r : Except Failure α}
    (h : (do let _ ← dccClose.attempt; x) w = some (r, w')) :
    ∃ w₁, w.Same w₁ ∧ x w₁ = some (r, w') := by
  obtain ⟨_, w₁, hclose, hrest⟩ := attempt_bind_cases h
  exact ⟨w₁, dccClose_keeps hclose, hrest⟩

end Specs

end Distcc
