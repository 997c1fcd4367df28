import Distcc.Io

/-!
# Pumping bytes

Model of `dcc_pump_readwrite` (`src/pump.c`) and `dcc_pump_sendfile`
(`src/sendfile.c`), as built where there is a `sendfile` that keeps its own place in
the file, as that of Linux does.

Whatever the system does, a pump that returns 0 has moved exactly the bytes it was
asked for, in order, and one that fails has written fewer of them, but a first part
of them all the same (`dccPumpReadwrite_total`, `dccPumpSendfile_total`).
What this means for the output is `transfers_exact`, together with the two loops
of `Io`.
-/

namespace Distcc

open List Prog

/-! ### With read and write -/

/-- A turn of the outer loop of `dcc_pump_readwrite`, with the number of bytes that
are left. -/
def pumpTurn (dst : Sink) (src : Source) : ℕ → Io (ℕ ⊕ Unit)
  | 0 => pure (.inr ())
  | n => do
    match ← read src (min n 262144) with
    | .error .again => do
      dccSelectForRead
      pure (.inl n)
    | .error .intr => pure (.inl n)
    | .error _ => Prog.fail ExitCode.ioError.failure
    | .ok [] => Prog.fail ExitCode.ioError.failure
    | .ok buf => do
      writeAll true dst buf
      pure (.inl (n - buf.length))

/-- `dcc_pump_readwrite` -/
def dccPumpReadwrite (dst : Sink) (src : Source) (n : ℕ) : Io Unit :=
  loopFor n (pumpTurn dst src) n

section Readwrite

variable {w w' : World} {dst : Sink} {src : Source}

/-- What a turn does: it goes on with more moved, the loop is over, or it fails with fewer
bytes written than were left to move. -/
theorem pumpTurn_total (dst : Sink) (src : Source) (n : ℕ) (w : World) :
    (pumpTurn dst src n).Total w (TurnEnds
      (MovesOn n (min n (w.input src).length) (n - ·)
        (fun k => (w.drop k src).put ((w.input src).take k) dst) w)
      (fun r w' => (r = .ok () ∧ n = 0 ∧ w' = w) ∨
        ∃ e j k, r = .error e ∧ j < n ∧ j ≤ k ∧ k ≤ (w.input src).length ∧
          ((w.drop k src).put ((w.input src).take j) dst).Same w' ∧
            ¬(w.Benign ∧ n ≤ (w.input src).length))) := by
  cases n with
  | zero => exact ⟨_, _, rfl, .done (.inl ⟨rfl, rfl, rfl⟩)⟩
  | succ n =>
    have hidle {w'} (hsame : w.Same w') :
        ((w.drop 0 src).put ((w.input src).take 0) dst).Same w' := by
      simpa using hsame
    obtain ⟨res, w₁, hread, hres⟩ := read_total src (min (n + 1) 262144) w
    rw [Prog.Total, pumpTurn, bind_of_ok hread]
    · rcases hres with ⟨e, rfl, hsame, hshorter, hnot⟩ | ⟨k, hk, rfl, hsame, hpos, -⟩
      · cases e with
        | again =>
          exact waitThen_total dccSelectForRead_total (fun _ => .again hsame hshorter)
            fun e _ hsame' => .inr ⟨e, 0, 0, rfl, Nat.succ_pos _, le_rfl, Nat.zero_le _,
              hidle (hsame.trans hsame'), fun h => hnot h.1⟩
        | intr => exact ⟨_, _, rfl, .next (.again hsame hshorter (.refl w₁))⟩
        | noent | other =>
          exact ⟨_, _, rfl, .error (.inr ⟨_, 0, 0, rfl, Nat.succ_pos _, le_rfl, Nat.zero_le _,
            hidle hsame, fun h => hnot h.1⟩)⟩
      · have hlen : ((w.input src).take k).length = k := by
          rw [length_take]
          omega
        cases hbs : (w.input src).take k with
        | nil =>
          obtain rfl : k = 0 := by simpa [hbs] using hlen.symm
          refine ⟨_, _, rfl, .error (.inr ⟨_, 0, 0, rfl, Nat.succ_pos _, le_rfl, Nat.zero_le _,
            hidle (by simpa using hsame), fun h => ?_⟩)⟩
          exact Nat.lt_irrefl 0 (hpos h.1 (by omega))
        | cons b bs =>
          dsimp only
          rw [← hbs]
          have hput (j : ℕ) := hsame.put ((w.input src).take j) dst
          refine (writeAll_total true dst ((w.input src).take k) w₁).bind ?_ ?_
          · rintro _ w₂ (⟨-, hsame'⟩ | ⟨_, _, hr, -⟩)
            · have hscript := ((hput k).trans hsame').script.length_le
              rw [World.put_script, World.drop_script] at hscript
              rw [hbs, length_cons] at hlen
              refine ⟨_, w₂, rfl, .next ⟨k, by omega, ?_, (hput k).trans hsame', by omega⟩⟩
              rw [hbs, length_cons, hlen]
            · cases hr
          · rintro e w₂ (⟨hr, -⟩ | ⟨_, j, -, hj, hsame', hnot⟩)
            · cases hr
            · rw [hlen] at hj
              rw [take_take, min_eq_left hj.le] at hsame'
              refine .error (.inr ⟨e, j, k, rfl, by omega, hj.le, by omega, (hput j).trans hsame',
                fun h => hnot ?_⟩)
              exact hsame.benign (h.1.drop src k)
    · exact Nat.succ_ne_zero _

/-- Moving on after `k` bytes were moved. -/
theorem moved_then {w₁ : World} {k : ℕ}
    (h : ((w.drop k src).put ((w.input src).take k) dst).Same w₁) (i j : ℕ) :
    ((w.drop (k + i) src).put ((w.input src).take (k + j)) dst).Same
      ((w₁.drop i src).put (((w.input src).drop k).take j) dst) := by
  have hmoved := (h.drop i src).put (((w.input src).drop k).take j) dst
  rwa [World.drop_put, World.drop_drop, World.put_put, ← take_add] at hmoved

/-- **`dcc_pump_readwrite`** moves the next `n` bytes; if it fails, it has written
fewer. In a benign world, with enough to read, it does not fail. -/
theorem dccPumpReadwrite_total (dst : Sink) (src : Source) (n : ℕ) (w : World) :
    (dccPumpReadwrite dst src n).Total w fun r w' =>
      (r = .ok () ∧ n ≤ (w.input src).length ∧
          ((w.drop n src).put ((w.input src).take n) dst).Same w') ∨
        ∃ e j k, r = .error e ∧ j < n ∧ j ≤ k ∧ k ≤ (w.input src).length ∧
          ((w.drop k src).put ((w.input src).take j) dst).Same w' ∧
            ¬(w.Benign ∧ n ≤ (w.input src).length) := by
  refine loopFor_total (I := fun m w₁ => ∃ k, k + m = n ∧ k ≤ (w.input src).length ∧
      ((w.drop k src).put ((w.input src).take k) dst).Same w₁)
    (fun m w₁ => w₁.script.length + m) ?_
    ⟨0, Nat.zero_add n, Nat.zero_le _, by simpa using World.Same.refl w⟩ le_rfl
  rintro m w₁ ⟨k, hk, hle, hsame⟩
  have hinput : w₁.input src = (w.input src).drop k := by
    rw [hsame.input, World.input_put, World.input_drop]
  obtain ⟨r, w₂, hturn, hends⟩ := pumpTurn_total dst src m w₁
  rw [hinput, length_drop] at hends
  refine ⟨r, w₂, hturn, hends.imp ?_ ?_⟩
  · rintro _ ⟨j, hj, rfl, hsame', hless⟩
    exact ⟨⟨k + j, by dsimp only; omega, by omega, (moved_then hsame j j).trans hsame'⟩, hless⟩
  · rintro _ (⟨rfl, rfl, rfl⟩ | ⟨e, j, i, rfl, hj, hji, hi, hsame', hnot⟩)
    · obtain rfl : k = n := hk
      exact .inl ⟨rfl, hle, hsame⟩
    · refine .inr ⟨e, k + j, k + i, rfl, by omega, by omega, by omega,
        (moved_then hsame i j).trans hsame', fun h => hnot ?_⟩
      exact ⟨hsame.benign ((h.1.drop src k).put dst _), by omega⟩

theorem dccPumpReadwrite_ok {n : ℕ} (h : dccPumpReadwrite dst src n w = some (.ok (), w')) :
    n ≤ (w.input src).length ∧ ((w.drop n src).put ((w.input src).take n) dst).Same w' := by
  rcases (dccPumpReadwrite_total dst src n w).spec h with ⟨-, hle, hsame⟩ | ⟨_, _, _, hr, -⟩
  · exact ⟨hle, hsame⟩
  · cases hr

/-- In a benign world, with enough to read, `dcc_pump_readwrite` returns 0. -/
theorem dccPumpReadwrite_returns (dst : Sink) {n : ℕ} (hw : w.Benign)
    (hn : n ≤ (w.input src).length) : ∃ w', dccPumpReadwrite dst src n w = some (.ok (), w') := by
  obtain ⟨_, w', hrun, ⟨rfl, -⟩ | ⟨_, _, _, -, -, -, -, -, hnot⟩⟩ :=
    dccPumpReadwrite_total dst src n w
  · exact ⟨w', hrun⟩
  · exact absurd ⟨hw, hn⟩ hnot

end Readwrite

/-! ### With sendfile -/

/-- `sys_sendfile`: from `offset` on, as far as the file goes. -/
def sysSendfile (dst : Sink) (offset size : ℕ) : Io (Except Errno ℕ) := do
  let w ← Prog.get
  write dst ((w.reading.drop offset).take size)

/-- A turn of the loop in `dcc_pump_sendfile`, with the offset and the number of
bytes that are left. -/
def sendfileTurn (dst : Sink) : ℕ × ℕ → Io (ℕ × ℕ ⊕ Unit)
  | (_, 0) => pure (.inr ())
  | (offset, size) => do
    match ← sysSendfile dst offset size with
    | .error .again => do
      dccSelectForWrite
      pure (.inl (offset, size))
    | .error .intr => pure (.inl (offset, size))
    | .error _ =>
      -- "decided to use read/write rather than sendfile"
      if offset = 0 then do
        dccPumpReadwrite dst .file size
        pure (.inr ())
      else Prog.fail ExitCode.ioError.failure
    | .ok 0 => Prog.fail ExitCode.ioError.failure
    | .ok sent =>
      if sent ≠ size then pure (.inl (offset + sent, size - sent)) else pure (.inr ())

/-- `dcc_pump_sendfile` -/
def dccPumpSendfile (dst : Sink) (size : ℕ) : Io Unit :=
  loopFor size (sendfileTurn dst) (0, size)

section Sendfile

variable {w w' : World} {dst : Sink}

/-- What a turn does, the file being read from `offset` on: it goes on, the rest was sent, or
the loop fails with less of it sent. In the last two cases the place in the
file may have moved, for the pump without `sendfile` was used. -/
theorem sendfileTurn_total (dst : Sink) (offset size : ℕ) (w : World) :
    (sendfileTurn dst (offset, size)).Total w (TurnEnds
      (MovesOn size (min size (w.reading.drop offset).length) (fun k => (offset + k, size - k))
        (fun k => w.put ((w.reading.drop offset).take k) dst) w)
      (fun r w' => (r = .ok () ∧ size ≤ (w.reading.drop offset).length ∧
          ∃ i, ((w.drop i .file).put ((w.reading.drop offset).take size) dst).Same w') ∨
        ∃ e i, ∃ j < size, r = .error e ∧
          ((w.drop i .file).put ((w.reading.drop offset).take j) dst).Same w' ∧
            ¬(w.Benign ∧ size ≤ (w.reading.drop offset).length))) := by
  cases size with
  | zero => exact ⟨_, _, rfl, .done (.inl ⟨rfl, Nat.zero_le _, 0, by simpa using .refl w⟩)⟩
  | succ size =>
    set data := w.reading.drop offset with hdata
    obtain ⟨res, w₁, hwrite, hres⟩ := write_total dst (data.take (size + 1)) w
    have hsend : sysSendfile dst offset (size + 1) w = some (.ok res, w₁) := hwrite
    have hidle {w'} (hsame : w.Same w') : ((w.drop 0 .file).put (data.take 0) dst).Same w' := by
      simpa using hsame
    rw [Prog.Total, sendfileTurn, bind_of_ok hsend]
    · rcases hres with ⟨e, rfl, hsame, hshorter, hnot⟩ | ⟨k, hk, rfl, hsame, hpos, -⟩
      · have hfail {e w'} (hsame' : w.Same w') : ∃ e' i, ∃ j < size + 1,
            (.error e : Except Failure Unit) = .error e' ∧
              ((w.drop i .file).put (data.take j) dst).Same w' ∧
                ¬(w.Benign ∧ size + 1 ≤ data.length) :=
          ⟨e, 0, 0, Nat.succ_pos _, rfl, hidle hsame', fun h => hnot h.1⟩
        cases e with
        | again =>
          exact waitThen_total dccSelectForWrite_total (fun _ => .again hsame hshorter)
            fun e _ hsame' => .inr (hfail (hsame.trans hsame'))
        | intr => exact ⟨_, _, rfl, .next (.again hsame hshorter (.refl w₁))⟩
        | noent | other =>
          dsimp only
          split
          · case isTrue hzero =>
            subst hzero
            have hreading : w₁.input .file = data := by
              rw [hsame.input, hdata, drop_zero]
              rfl
            have hpump := dccPumpReadwrite_total dst .file (size + 1) w₁
            rw [hreading] at hpump
            refine hpump.bind ?_ ?_
            · rintro _ w₂ (⟨-, hle, hsame'⟩ | ⟨_, _, _, hr, -⟩)
              · exact ⟨_, w₂, rfl, .done (.inl ⟨rfl, hle, size + 1,
                  ((hsame.drop _ _).put _ _).trans hsame'⟩)⟩
              · cases hr
            · rintro e w₂ (⟨hr, -⟩ | ⟨_, j, i, -, hj, -, -, hsame', -⟩)
              · cases hr
              · exact .error (.inr ⟨e, i, j, hj, rfl, ((hsame.drop _ _).put _ _).trans hsame',
                  fun h => hnot h.1⟩)
          · exact ⟨_, _, rfl, .error (.inr (hfail hsame))⟩
      · rw [length_take] at hk hpos
        rw [take_take, min_eq_left (by omega)] at hsame
        have hscript := hsame.script.length_le
        rw [World.put_script] at hscript
        cases k with
        | zero =>
          refine ⟨_, _, rfl, .error (.inr ⟨_, 0, 0, Nat.succ_pos _, rfl,
            hidle (by simpa using hsame), fun h => ?_⟩)⟩
          exact Nat.lt_irrefl 0 (hpos h.1 (by omega))
        | succ k =>
          change (if k + 1 ≠ size + 1 then pure (.inl (offset + (k + 1), size + 1 - (k + 1)))
            else pure (.inr ()) : Io (ℕ × ℕ ⊕ Unit)).Total w₁ _
          split
          · exact ⟨_, w₁, rfl, .next ⟨k + 1, hk, rfl, hsame, by omega⟩⟩
          · case isFalse hall =>
            rw [not_not.mp hall] at hk hsame
            exact ⟨_, w₁, rfl, .done (.inl ⟨rfl, by omega, 0, by simpa using hsame⟩)⟩
    · exact Nat.succ_ne_zero _

/-- Sending on after `k` bytes were sent. -/
theorem sent_then {w₁ : World} {k : ℕ} (h : (w.put (w.reading.take k) dst).Same w₁) (i j : ℕ) :
    ((w.drop i .file).put (w.reading.take (k + j)) dst).Same
      ((w₁.drop i .file).put ((w.reading.drop k).take j) dst) := by
  have hmoved := (h.drop i .file).put ((w.reading.drop k).take j) dst
  rwa [World.drop_put, World.put_put, ← take_add] at hmoved

/-- **`dcc_pump_sendfile`** sends the first `size` bytes of the file; if it fails, it
has sent fewer. In a benign world, with a file that is long enough, it does not fail. -/
theorem dccPumpSendfile_total (dst : Sink) (size : ℕ) (w : World) :
    (dccPumpSendfile dst size).Total w fun r w' =>
      (r = .ok () ∧ size ≤ w.reading.length ∧
          ∃ i, ((w.drop i .file).put (w.reading.take size) dst).Same w') ∨
        ∃ e i, ∃ j < size, r = .error e ∧
          ((w.drop i .file).put (w.reading.take j) dst).Same w' ∧
            ¬(w.Benign ∧ size ≤ w.reading.length) := by
  -- until the other pump takes over, the place in the file does not move
  refine loopFor_total (I := fun b w₁ => b.1 + b.2 = size ∧ b.1 ≤ w.reading.length ∧
      (w.put (w.reading.take b.1) dst).Same w₁) (fun b w₁ => w₁.script.length + b.2) ?_
    ⟨Nat.zero_add size, Nat.zero_le _, by simpa using World.Same.refl w⟩ le_rfl
  rintro ⟨offset, n⟩ w₁ ⟨hsum, hle, hsame⟩
  dsimp only at hsum hle hsame
  have hreading : w₁.reading = w.reading := (hsame.input .file).trans (World.input_put _ _ _ _)
  obtain ⟨r, w₂, hturn, hends⟩ := sendfileTurn_total dst offset n w₁
  rw [hreading, length_drop] at hends
  refine ⟨r, w₂, hturn, hends.imp ?_ ?_⟩
  · rintro _ ⟨k, hk, rfl, hsame', hless⟩
    have hput := sent_then hsame 0 k
    rw [World.drop_zero, World.drop_zero] at hput
    exact ⟨⟨by dsimp only; omega, by dsimp only; omega, hput.trans hsame'⟩, hless⟩
  · rintro _ (⟨rfl, hn, i, hsame'⟩ | ⟨e, i, j, hj, rfl, hsame', hnot⟩)
    · have hput := sent_then hsame i n
      rw [hsum] at hput
      exact .inl ⟨rfl, by omega, i, hput.trans hsame'⟩
    · refine .inr ⟨e, i, offset + j, by omega, rfl, (sent_then hsame i j).trans hsame',
        fun h => hnot ?_⟩
      exact ⟨hsame.benign (h.1.put dst _), by omega⟩

theorem dccPumpSendfile_ok {size : ℕ} (h : dccPumpSendfile dst size w = some (.ok (), w')) :
    size ≤ w.reading.length ∧
      ∃ i, ((w.drop i .file).put (w.reading.take size) dst).Same w' := by
  rcases (dccPumpSendfile_total dst size w).spec h with ⟨-, hsent⟩ | ⟨_, _, _, -, hr, -⟩
  · exact hsent
  · cases hr

/-- In a benign world, with a file that is long enough, `dcc_pump_sendfile` returns 0. -/
theorem dccPumpSendfile_returns (dst : Sink) {size : ℕ} (hw : w.Benign)
    (hsize : size ≤ w.reading.length) : ∃ w', dccPumpSendfile dst size w = some (.ok (), w') := by
  obtain ⟨_, w', hrun, ⟨rfl, -⟩ | ⟨_, _, _, -, -, -, hnot⟩⟩ := dccPumpSendfile_total dst size w
  · exact ⟨w', hrun⟩
  · exact absurd ⟨hw, hsize⟩ hnot

end Sendfile

/-! ### Exact transfer -/

/-- What was written to a sink, if it is open. -/
def World.output (w : World) : Sink → Option CString
  | .connection => some w.sent
  | .stdout => some w.stdout
  | .email => some w.email
  | .file name => w.files name

section Exact

variable {w w' : World} {dst : Sink}

theorem World.output_put (w : World) (bs : CString) (dst : Sink) :
    (w.put bs dst).output dst = (w.output dst).map (· ++ bs) := by
  cases dst with
  | file name => exact Function.update_self ..
  | _ => rfl

theorem World.output_drop (w : World) (n : ℕ) (src : Source) (dst : Sink) :
    (w.drop n src).output dst = w.output dst := by
  cases src <;> cases dst <;> rfl

theorem World.Same.output (h : w.Same w') (dst : Sink) : w'.output dst = w.output dst := by
  rw [h.eq]
  cases dst <;> rfl

/-- Bytes were read, and others written. -/
theorem World.Same.output_moved {n : ℕ} {src : Source} {bs : CString}
    (h : ((w.drop n src).put bs dst).Same w') :
    w'.output dst = (w.output dst).map (· ++ bs) := by
  rw [h.output, World.output_put, World.output_drop]

/-- **Exact transfer**: whatever the system does, each of the four loops that move bytes
returns 0 only if it has moved exactly the bytes it was asked for, each once and in order. -/
theorem transfers_exact (w w' : World) (src : Source) (dst : Sink) :
    (∀ size, dccPumpSendfile dst size w = some (.ok (), w') →
      size ≤ w.reading.length ∧
        w'.output dst = (w.output dst).map (· ++ w.reading.take size)) ∧
    (∀ n, dccPumpReadwrite dst src n w = some (.ok (), w') →
      n ≤ (w.input src).length ∧ w'.input src = (w.input src).drop n ∧
        w'.output dst = (w.output dst).map (· ++ (w.input src).take n)) ∧
    (∀ len buf, dccReadx src len w = some (.ok buf, w') →
      len ≤ (w.input src).length ∧ w'.input src = (w.input src).drop len ∧
        buf = (w.input src).take len) ∧
    ∀ buf, dccWritex dst buf w = some (.ok (), w') →
      w'.output dst = (w.output dst).map (· ++ buf) := by
  refine ⟨fun size h => ?_, fun n h => ?_, fun len buf h => ?_, fun buf h => ?_⟩
  · obtain ⟨hsize, i, hsame⟩ := dccPumpSendfile_ok h
    exact ⟨hsize, hsame.output_moved⟩
  · obtain ⟨hn, hsame⟩ := dccPumpReadwrite_ok h
    refine ⟨hn, ?_, hsame.output_moved⟩
    rw [hsame.input, World.input_put, World.input_drop]
  · obtain ⟨hlen, hr, hsame⟩ := dccReadx_ok h
    refine ⟨hlen, ?_, hr⟩
    rw [hsame.input, World.input_drop]
  · rw [(writeAll_ok h).output, World.output_put]

/-- A system that sends two bytes, wants the program to wait, and interrupts it. -/
def World.interrupting : World where
  script := [.short 1, .error .again, .full, .error .intr]
  reading := CString.lit "hello"

/-- The file is sent in two pieces. -/
theorem transfers_exact_hello : ∃ w',
    dccPumpSendfile .connection 5 .interrupting = some (.ok (), w') ∧
      w'.output .connection = some (CString.lit "hello") := by
  have hrun : dccPumpSendfile .connection 5 .interrupting = some (.ok (), _) := rfl
  exact ⟨_, hrun, ((transfers_exact _ _ .file .connection).1 5 hrun).2⟩

end Exact

end Distcc
