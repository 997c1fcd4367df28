import Mathlib.Algebra.Group.Defs
import Mathlib.Data.List.Basic
import Mathlib.Logic.Function.Basic
import Distcc.Exitcode
import Distcc.Stringmap

/-!
# The system a process runs on

The program's input and output go through system calls that may do less than they
are asked for, fail, or be interrupted. What the system answers is a script, one
reply for each call that is made; when the script is used up, every call does all
it is asked for. A statement about every script is one about every behaviour of the
system that a run which returns can meet.

Of the world a process sees the connection to its peer, its standard output, the
file the log for the maintainers is kept in, and a file system. What it does there
for good is put on a record: the files it has closed after writing them, and the
links it has made. A second record has the calls that changed the file system, in the
end to good purpose or not. `World.Step` says what a piece of a run read from
the connection, wrote to it and to the standard output, and added to the record; steps
compose (`World.Step.trans`).

What a piece of a run leaves alone, whether it fails or not, is said by a relation that
looks only at that (`Bystander`).
-/

namespace Distcc

open List Prog

/-- What a function returns when it does not return 0. -/
def Failure : Type := { ret : ℤ // ret ≠ 0 }

/-- What is returned where no exit code is given: 1. -/
def Failure.one : Failure := ⟨1, by decide⟩

/-- The failure with an exit code. -/
def ExitCode.failure (e : ExitCode) : Failure := ⟨e.toInt, e.toInt_ne_zero⟩

/-- What `errno` says, as far as the program tells errors apart. -/
inductive Errno where
  /-- `EAGAIN` -/
  | again
  /-- `EINTR` -/
  | intr
  /-- `ENOENT` -/
  | noent
  /-- Any other. -/
  | other
  deriving DecidableEq, Repr

/-- What the system answers to a call. -/
inductive Reply where
  /-- All that was asked for is done. -/
  | full
  /-- Something is done: of a transfer, `n + 1` bytes at most. -/
  | short (n : ℕ)
  /-- Nothing is done, and 0 returned: the end of a file, a timeout, no memory. -/
  | zero
  /-- The call fails. -/
  | error (e : Errno)
  deriving DecidableEq, Repr

/-- A reply to a call that succeeded. -/
def Reply.Benign : Reply → Prop
  | .full | .short _ => True
  | .zero | .error _ => False

/-- Where bytes are read from. -/
inductive Source where
  /-- The connection to the peer. -/
  | connection
  /-- The file that is open for reading. -/
  | file
  deriving DecidableEq, Repr

/-- Where bytes are written to. -/
inductive Sink where
  /-- The connection to the peer. -/
  | connection
  /-- `STDOUT_FILENO` -/
  | stdout
  /-- The file of the log for the maintainers. -/
  | email
  /-- A file that is open for writing. -/
  | file (name : CString)
  deriving DecidableEq, Repr

/-- What a process does for good. -/
inductive Effect where
  /-- A file was written and closed. -/
  | file (name content : CString)
  /-- A symbolic link was made. -/
  | symlink (target name : CString)
  deriving DecidableEq, Repr

/-- A call that changes the file system, and succeeds. -/
inductive FsCall where
  /-- A directory was made. -/
  | mkdir (path : CString)
  /-- A directory was removed. -/
  | rmdir (path : CString)
  /-- A file was opened for writing: it was created, or it is now empty. -/
  | create (path : CString)
  /-- A file or a link was removed. -/
  | unlink (path : CString)
  /-- A symbolic link was made. -/
  | symlink (target path : CString)
  deriving DecidableEq, Repr

/-- What a server keeps from job to job. -/
structure Proc where
  /-- `getenv` -/
  env : CString → Option CString := fun _ => none
  /-- `cmdlist_checked` of `dcc_remap_compiler`. -/
  cmdlistChecked : Bool := false
  /-- `map` of `dcc_remap_compiler`. -/
  map : Option Stringmap := none
  /-- The programs its children were replaced with. -/
  ran : List CString := []

/-- What a process sees of the world. -/
structure World where
  /-- What the system will answer. -/
  script : List Reply := []
  /-- What the peer has sent and was not read yet. -/
  incoming : CString := []
  /-- What was written to the connection. -/
  sent : CString := []
  /-- What was written to the standard output. -/
  stdout : CString := []
  /-- What was written to the log for the maintainers. -/
  email : CString := []
  /-- What is left of the file that is open for reading. -/
  reading : CString := []
  /-- The contents of the files. -/
  files : CString → Option CString := fun _ => none
  /-- The targets of the symbolic links. -/
  links : CString → Option CString := fun _ => none
  /-- The working directory. -/
  cwd : CString := []
  /-- `never_send_email`: there is no log for the maintainers. -/
  neverSendEmail : Bool := false
  /-- The record. -/
  log : List Effect := []
  /-- Is there a directory of this name? -/
  dirs : CString → Bool := fun _ => false
  /-- The calls that changed the file system. -/
  calls : List FsCall := []
  /-- What the process keeps. -/
  proc : Proc := {}

/-- A computation of the process. -/
abbrev Io := Prog World Failure

/-- Every call will succeed. -/
def World.Benign (w : World) : Prop := ∀ r ∈ w.script, r.Benign

namespace World

/-! ### Reading and writing -/

/-- What there is to read. -/
def input (w : World) : Source → CString
  | .connection => w.incoming
  | .file => w.reading

/-- Bytes are read. -/
def drop (w : World) (n : ℕ) : Source → World
  | .connection => { w with incoming := w.incoming.drop n }
  | .file => { w with reading := w.reading.drop n }

/-- Bytes are written. -/
def put (w : World) (bs : CString) : Sink → World
  | .connection => { w with sent := w.sent ++ bs }
  | .stdout => { w with stdout := w.stdout ++ bs }
  | .email => { w with email := w.email ++ bs }
  | .file name =>
    { w with files := Function.update w.files name ((w.files name).map (· ++ bs)) }

section Transfers

variable (w : World) (src : Source) (dst : Sink)

@[simp] theorem drop_zero : w.drop 0 src = w := by
  cases src <;> rfl

@[simp] theorem drop_drop (m n : ℕ) : (w.drop m src).drop n src = w.drop (m + n) src := by
  cases src <;> simp [drop, drop_drop]

theorem drop_min (n : ℕ) : w.drop (min n (w.input src).length) src = w.drop n src := by
  have hmin (l : CString) : l.drop (min n l.length) = l.drop n :=
    drop_eq_drop_iff.mpr (by omega)
  cases src
  · simp only [drop, input, hmin]
  · simp only [drop, input, hmin]

@[simp] theorem input_drop (n : ℕ) : (w.drop n src).input src = (w.input src).drop n := by
  cases src <;> rfl

@[simp] theorem input_put (bs : CString) : (w.put bs dst).input src = w.input src := by
  cases src <;> cases dst <;> rfl

@[simp] theorem drop_script (n : ℕ) : (w.drop n src).script = w.script := by
  cases src <;> rfl

@[simp] theorem put_script (bs : CString) : (w.put bs dst).script = w.script := by
  cases dst <;> rfl

@[simp] theorem put_nil : w.put [] dst = w := by
  cases dst <;> simp [put]

@[simp] theorem put_put (bs cs : CString) : (w.put bs dst).put cs dst = w.put (bs ++ cs) dst := by
  cases dst <;> simp [put, Function.comp_def]

variable {w} in
theorem Benign.drop (h : w.Benign) (n : ℕ) : (w.drop n src).Benign := by
  rwa [Benign, drop_script]

variable {w} in
theorem Benign.put (h : w.Benign) (bs : CString) : (w.put bs dst).Benign := by
  rwa [Benign, put_script]

theorem drop_put (n : ℕ) (bs : CString) :
    (w.put bs dst).drop n src = (w.drop n src).put bs dst := by
  cases src <;> cases dst <;> rfl

end Transfers

/-! ### The script -/

/-- Nothing changed but the script, of which replies were used up. -/
structure Same (w w' : World) : Prop where
  eq : w' = { w with script := w'.script }
  script : w'.script <:+ w.script

theorem Same.refl (w : World) : w.Same w := ⟨rfl, suffix_refl _⟩

theorem Same.trans {w w₁ w' : World} (h : w.Same w₁) (h' : w₁.Same w') : w.Same w' := by
  refine ⟨?_, h'.script.trans h.script⟩
  rw [h'.eq, h.eq]

instance : IsPreorder World Same where
  refl := Same.refl
  trans _ _ _ := Same.trans

variable {w w' : World}

theorem Same.input (h : w.Same w') (src : Source) : w'.input src = w.input src := by
  rw [h.eq]
  cases src <;> rfl

theorem Same.drop (h : w.Same w') (n : ℕ) (src : Source) : (w.drop n src).Same (w'.drop n src) := by
  rw [h.eq]
  cases src
  · exact ⟨rfl, h.script⟩
  · exact ⟨rfl, h.script⟩

theorem Same.put (h : w.Same w') (bs : CString) (dst : Sink) :
    (w.put bs dst).Same (w'.put bs dst) := by
  rw [h.eq]
  cases dst
  · exact ⟨rfl, h.script⟩
  · exact ⟨rfl, h.script⟩
  · exact ⟨rfl, h.script⟩
  · exact ⟨rfl, h.script⟩

theorem Same.benign (h : w.Same w') (hw : w.Benign) : w'.Benign :=
  fun r hr => hw r (h.script.subset hr)

end World

/-! ### What a piece of a run does -/

/-- What was read from the connection, written to it and to the standard output, and
put on the record. -/
@[ext]
structure Delta where
  /-- Read from the connection. -/
  took : CString := []
  /-- Written to the connection. -/
  gave : CString := []
  /-- Written to the standard output. -/
  showed : CString := []
  /-- Put on the record. -/
  made : List Effect := []
  deriving DecidableEq

namespace Delta

instance : Zero Delta := ⟨{}⟩

/-- One after the other. -/
instance : Add Delta :=
  ⟨fun d e => ⟨d.took ++ e.took, d.gave ++ e.gave, d.showed ++ e.showed, d.made ++ e.made⟩⟩

instance : AddMonoid Delta where
  zero_add d := by ext1 <;> exact nil_append _
  add_zero d := by ext1 <;> exact append_nil _
  add_assoc c d e := by ext1 <;> exact append_assoc _ _ _
  nsmul := nsmulRec

/-- Reading. -/
def takes (bs : CString) : Delta := { took := bs }

/-- Writing. -/
def gives (bs : CString) : Delta := { gave := bs }

/-- Writing to the standard output. -/
def shows (bs : CString) : Delta := { showed := bs }

/-- Putting something on the record. -/
def makes (e : Effect) : Delta := { made := [e] }

variable (d e : Delta)

@[simp] theorem zero_took : (0 : Delta).took = [] := rfl
@[simp] theorem zero_gave : (0 : Delta).gave = [] := rfl
@[simp] theorem zero_showed : (0 : Delta).showed = [] := rfl
@[simp] theorem zero_made : (0 : Delta).made = [] := rfl
@[simp] theorem add_took : (d + e).took = d.took ++ e.took := rfl
@[simp] theorem add_gave : (d + e).gave = d.gave ++ e.gave := rfl
@[simp] theorem add_showed : (d + e).showed = d.showed ++ e.showed := rfl
@[simp] theorem add_made : (d + e).made = d.made ++ e.made := rfl

theorem takes_add (bs cs : CString) : takes bs + takes cs = takes (bs ++ cs) := rfl

theorem gives_add (bs cs : CString) : gives bs + gives cs = gives (bs ++ cs) := rfl

/-- Reading over and over. -/
theorem sum_takes {α : Type} (f : α → CString) (as : List α) :
    (as.map fun a => takes (f a)).sum = takes (as.flatMap f) := by
  induction as with
  | nil => rfl
  | cons a as ih => rw [map_cons, sum_cons, ih, takes_add, flatMap_cons]

/-- Reading, and putting something on the record, over and over. -/
theorem sum_takes_makes {α : Type} (f : α → CString) (g : α → Effect) (as : List α) :
    (as.map fun a => takes (f a) + makes (g a)).sum =
      takes (as.flatMap f) + { made := as.map g } := by
  induction as with
  | nil => rfl
  | cons a as ih =>
    rw [map_cons, sum_cons, ih]
    ext1 <;> simp [takes, makes]

@[simp] theorem takes_nil : takes [] = 0 := rfl

@[simp] theorem gives_nil : gives [] = 0 := rfl

end Delta

namespace World

/-- From `w` to `w'` a run has done `d`, and whatever to the file system. -/
structure Does (w : World) (d : Delta) (w' : World) : Prop where
  incoming : w.incoming = d.took ++ w'.incoming
  sent : w'.sent = w.sent ++ d.gave
  stdout : w'.stdout = w.stdout ++ d.showed
  log : w'.log = w.log ++ d.made
  cwd : w'.cwd = w.cwd
  script : w'.script <:+ w.script

/-- **From `w` to `w'` a run has done `d`.** Without making anything it has not changed
the file system. -/
structure Step (w : World) (d : Delta) (w' : World) : Prop extends Does w d w' where
  files : d.made = [] → w'.files = w.files
  links : d.made = [] → w'.links = w.links

variable {w w₁ w' : World} {d e : Delta}

theorem Does.trans (h : w.Does d w₁) (h' : w₁.Does e w') : w.Does (d + e) w' where
  incoming := by rw [h.incoming, h'.incoming, Delta.add_took, append_assoc]
  sent := by rw [h'.sent, h.sent, Delta.add_gave, append_assoc]
  stdout := by rw [h'.stdout, h.stdout, Delta.add_showed, append_assoc]
  log := by rw [h'.log, h.log, Delta.add_made, append_assoc]
  cwd := h'.cwd.trans h.cwd
  script := h'.script.trans h.script

theorem Step.trans (h : w.Step d w₁) (h' : w₁.Step e w') : w.Step (d + e) w' where
  toDoes := h.toDoes.trans h'.toDoes
  files hmade := by
    obtain ⟨hd, he⟩ := append_eq_nil_iff.mp hmade
    exact (h'.files he).trans (h.files hd)
  links hmade := by
    obtain ⟨hd, he⟩ := append_eq_nil_iff.mp hmade
    exact (h'.links he).trans (h.links hd)

/-- Where something is made, the file system may have changed in any way. -/
theorem Does.step (h : w.Does d w') (hmade : d.made ≠ []) : w.Step d w' :=
  ⟨h, fun hnil => absurd hnil hmade, fun hnil => absurd hnil hmade⟩

/-- What happens on the disk alone. -/
theorem does_zero (hincoming : w'.incoming = w.incoming) (hsent : w'.sent = w.sent)
    (hstdout : w'.stdout = w.stdout) (hlog : w'.log = w.log) (hcwd : w'.cwd = w.cwd)
    (hscript : w'.script = w.script) : w.Does 0 w' where
  incoming := hincoming.symm
  sent := hsent.trans (append_nil _).symm
  stdout := hstdout.trans (append_nil _).symm
  log := hlog.trans (append_nil _).symm
  cwd := hcwd
  script := hscript ▸ suffix_refl _

theorem Same.does (h : w₁.Same w') (hd : w.Does d w₁) : w.Does d w' := by
  rw [h.eq]
  exact ⟨hd.incoming, hd.sent, hd.stdout, hd.log, hd.cwd, h.script.trans hd.script⟩

/-- Steps do not depend on how much of the script is used up. -/
theorem Same.step_of (h : w₁.Same w') (hd : w.Step d w₁) : w.Step d w' := by
  refine ⟨h.does hd.toDoes, ?_, ?_⟩
  · rw [h.eq]
    exact hd.files
  · rw [h.eq]
    exact hd.links

theorem Step.refl (w : World) : w.Step 0 w :=
  ⟨does_zero rfl rfl rfl rfl rfl rfl, fun _ => rfl, fun _ => rfl⟩

theorem Same.step (h : w.Same w') : w.Step 0 w' := h.step_of (.refl w)

theorem Does.trans_zero (h : w.Does d w₁) (h' : w₁.Does 0 w') : w.Does d w' := by
  have hboth := h.trans h'
  rwa [add_zero] at hboth

theorem Does.zero_trans (h : w.Does 0 w₁) (h' : w₁.Does d w') : w.Does d w' := by
  have hboth := h.trans h'
  rwa [zero_add] at hboth

theorem Step.zero_trans (h : w.Step 0 w₁) (h' : w₁.Step d w') : w.Step d w' := by
  have hboth := h.trans h'
  rwa [zero_add] at hboth

theorem Step.trans_zero (h : w.Step d w₁) (h' : w₁.Step 0 w') : w.Step d w' := by
  have hboth := h.trans h'
  rwa [add_zero] at hboth

/-- Nothing was done that a peer, a reader of the output or a user of the file system
would see. -/
def Silent (w w' : World) : Prop := w.Step 0 w'

instance : IsPreorder World Silent where
  refl := Step.refl
  trans _ _ _ := Step.zero_trans

theorem Same.silent ⦃w w' : World⦄ (h : w.Same w') : w.Silent w' := h.step

/-- Reading from the connection. -/
theorem step_of_drop {n : ℕ} (h : (w.drop n .connection).Same w') :
    w.Step (.takes (w.incoming.take n)) w' := by
  have hdrop : w.Step (.takes (w.incoming.take n)) (w.drop n .connection) := by
    refine ⟨⟨(take_append_drop n _).symm, ?_, ?_, ?_, rfl, suffix_refl _⟩,
      fun _ => rfl, fun _ => rfl⟩
    all_goals exact (append_nil _).symm
  exact h.step_of hdrop

/-- Reading these very bytes. -/
theorem step_of_read {bs rest : CString} (hin : w.incoming = bs ++ rest)
    (h : (w.drop bs.length .connection).Same w') : w.Step (.takes bs) w' := by
  have hstep := step_of_drop h
  rwa [hin, take_left] at hstep

/-- Writing to the connection. -/
theorem step_of_put {bs : CString} (h : (w.put bs .connection).Same w') :
    w.Step (.gives bs) w' := by
  have hput : w.Step (.gives bs) (w.put bs .connection) := by
    refine ⟨⟨rfl, rfl, ?_, ?_, rfl, suffix_refl _⟩, fun _ => rfl, fun _ => rfl⟩
    all_goals exact (append_nil _).symm
  exact h.step_of hput

/-- What is left to read, of what there was. -/
theorem Step.incoming_eq {rest : CString} (h : w.Step d w')
    (hin : w.incoming = d.took ++ rest) : w'.incoming = rest :=
  append_cancel_left (h.incoming.symm.trans hin)

/-- What was read is the difference of what there was to read. -/
theorem Step.took_eq (h : w.Step d w') (h' : w.Step e w') : d.took = e.took :=
  append_cancel_right (h.incoming.symm.trans h'.incoming)

theorem Does.benign (h : w.Does d w') (hw : w.Benign) : w'.Benign :=
  fun r hr => hw r (h.script.subset hr)

theorem Step.benign (h : w.Step d w') (hw : w.Benign) : w'.Benign := h.toDoes.benign hw

end World

/-- **A bystander**: a relation between worlds that the script, what is read, what is in
the files and what is on the first record do not matter to. -/
structure Bystander (R : World → World → Prop) : Prop where
  same : ∀ ⦃w w' : World⦄, w.Same w' → R w w'
  drop : ∀ (w : World) (n : ℕ) (src : Source), R w (w.drop n src)
  put : ∀ (w : World) (bs name : CString), R w (w.put bs (.file name))
  reading : ∀ (w : World) (content : CString), R w { w with reading := content }
  log : ∀ (w : World) (log : List Effect), R w { w with log := log }

theorem Bystander.drop_then {R : World → World → Prop} [IsPreorder World R] (hR : Bystander R)
    {w w' : World} {n : ℕ} {src : Source} (h : (w.drop n src).Same w') : R w w' :=
  IsTrans.trans _ _ _ (hR.drop w n src) (hR.same h)

/-! ### System calls -/

/-- The answer to the next call. -/
def nextReply : Io Reply :=
  ⟨fun w =>
    match w.script with
    | [] => some (.ok .full, w)
    | r :: script => some (.ok r, { w with script })⟩

/-- Bytes are handed over. -/
def take (src : Source) (n : ℕ) : Io (Except Errno CString) :=
  ⟨fun w => some (.ok (.ok ((w.input src).take n)), w.drop n src)⟩

/-- Bytes are taken. -/
def accept (dst : Sink) (bs : CString) : Io (Except Errno ℕ) :=
  ⟨fun w => some (.ok (.ok bs.length), w.put bs dst)⟩

/-- `read`, of at most `n` bytes. At the end of what there is, it returns none. -/
def read (src : Source) (n : ℕ) : Io (Except Errno CString) := do
  match ← nextReply with
  | .full => take src n
  | .short k => take src (min (k + 1) n)
  | .zero => take src 0
  | .error e => pure (.error e)

/-- `write` -/
def write (dst : Sink) (bs : CString) : Io (Except Errno ℕ) := do
  match ← nextReply with
  | .full => accept dst bs
  | .short k => accept dst (bs.take (k + 1))
  | .zero => accept dst []
  | .error e => pure (.error e)

/-- `malloc` and what allocates like it: is there memory? -/
def alloc : Io Bool := do
  match ← nextReply with
  | .full | .short _ => pure true
  | .zero | .error _ => pure false

/-- A call that succeeds or fails, and nothing else. -/
def syscall : Io (Except Errno Unit) := do
  match ← nextReply with
  | .full | .short _ | .zero => pure (.ok ())
  | .error e => pure (.error e)

/-- A call that changes the world in this way, if it succeeds. -/
def change (f : World → World) : Io (Except Errno Unit) := do
  match ← syscall with
  | .error e => pure (.error e)
  | .ok () => do
    Prog.modify f
    pure (.ok ())

section Calls

variable {w w' : World} {α : Type} {R : World → World → Prop} {r : Except Failure α}
  {f : World → World}

/-- The script gets shorter, or it was used up and the call does all it is asked. -/
theorem nextReply_total (w : World) : ∃ reply w', nextReply w = some (.ok reply, w') ∧
    w.Same w' ∧ (w.Benign → reply.Benign) ∧
      (reply = .full ∨ w'.script.length < w.script.length) := by
  simp only [nextReply]
  split
  · exact ⟨.full, w, rfl, .refl w, fun _ => trivial, .inl rfl⟩
  · case h_2 reply script hscript =>
    have hsuffix : script <:+ w.script := hscript ▸ suffix_cons _ _
    refine ⟨reply, _, rfl, ⟨rfl, hsuffix⟩, fun hw => hw reply ?_, .inr ?_⟩
    · rw [hscript]
      exact mem_cons_self
    · rw [hscript]
      exact Nat.lt_succ_self _

theorem nextReply_keeps : nextReply.Keeps World.Same := by
  intro w r w' h
  obtain ⟨_, -, hsame, -⟩ := Prog.Total.spec_ok (nextReply_total w) h
  exact hsame

/-- What `read` does: it fails, or hands over the next bytes. In a benign world it
hands over one at least, if it is asked for any and there are any. -/
theorem read_total (src : Source) (n : ℕ) (w : World) :
    ∃ res w', read src n w = some (.ok res, w') ∧
      ((∃ e, res = .error e ∧ w.Same w' ∧ w'.script.length < w.script.length ∧ ¬w.Benign) ∨
        ∃ k ≤ min n (w.input src).length, res = .ok ((w.input src).take k) ∧
          (w.drop k src).Same w' ∧ (w.Benign → 0 < min n (w.input src).length → 0 < k) ∧
            (k = min n (w.input src).length ∨ w'.script.length < w.script.length)) := by
  obtain ⟨reply, w₁, hreply, hsame, hbenign, hshorter⟩ := nextReply_total w
  rw [read, bind_of_ok hreply]
  have htake (k : ℕ) : ∃ w', take src k w₁ =
        some (.ok (.ok ((w.input src).take (min k (w.input src).length))), w') ∧
      (w.drop (min k (w.input src).length) src).Same w' ∧
        w'.script.length = w₁.script.length := by
    refine ⟨w₁.drop k src, ?_, ?_, by cases src <;> rfl⟩
    · rw [← hsame.input src, ← take_eq_take_min]
      rfl
    · rw [World.drop_min]
      exact hsame.drop k src
  cases reply with
  | full =>
    obtain ⟨w', hrun, hsame', -⟩ := htake n
    exact ⟨_, w', hrun, .inr ⟨_, le_refl _, rfl, hsame', fun _ hn => hn, .inl rfl⟩⟩
  | short k =>
    obtain ⟨w', hrun, hsame', hlen⟩ := htake (min (k + 1) n)
    refine ⟨_, w', hrun, .inr ⟨_, by omega, rfl, hsame', fun _ hn => by omega, .inr ?_⟩⟩
    rw [hlen]
    exact hshorter.resolve_left (by simp)
  | zero =>
    obtain ⟨w', hrun, hsame', hlen⟩ := htake 0
    refine ⟨_, w', hrun, .inr ⟨_, by omega, rfl, hsame', fun hw => (hbenign hw).elim, .inr ?_⟩⟩
    rw [hlen]
    exact hshorter.resolve_left (by simp)
  | error e => exact ⟨_, _, rfl, .inl ⟨e, rfl, hsame, hshorter.resolve_left (by simp), hbenign⟩⟩

/-- What `write` does: it fails, or takes the first of the bytes. In a benign world
it takes one at least, if there are any. -/
theorem write_total (dst : Sink) (bs : CString) (w : World) :
    ∃ res w', write dst bs w = some (.ok res, w') ∧
      ((∃ e, res = .error e ∧ w.Same w' ∧ w'.script.length < w.script.length ∧ ¬w.Benign) ∨
        ∃ k ≤ bs.length, res = .ok k ∧ (w.put (bs.take k) dst).Same w' ∧
          (w.Benign → 0 < bs.length → 0 < k) ∧
            (k = bs.length ∨ w'.script.length < w.script.length)) := by
  obtain ⟨reply, w₁, hreply, hsame, hbenign, hshorter⟩ := nextReply_total w
  rw [write, bind_of_ok hreply]
  have haccept (k : ℕ) : ∃ w', accept dst (bs.take k) w₁ = some (.ok (.ok (min k bs.length)), w') ∧
      (w.put (bs.take (min k bs.length)) dst).Same w' ∧
        w'.script.length = w₁.script.length := by
    have hmin : bs.take (min k bs.length) = bs.take k := take_eq_take_iff.mpr (by omega)
    refine ⟨w₁.put (bs.take k) dst, ?_, hmin ▸ hsame.put _ dst, by cases dst <;> rfl⟩
    rw [accept, length_take]
  cases reply with
  | full =>
    obtain ⟨w', hrun, hsame', -⟩ := haccept bs.length
    rw [take_length, min_self] at hrun
    rw [min_self] at hsame'
    exact ⟨_, w', hrun, .inr ⟨bs.length, le_refl _, rfl, hsame', fun _ hn => hn, .inl rfl⟩⟩
  | short k =>
    obtain ⟨w', hrun, hsame', hlen⟩ := haccept (k + 1)
    refine ⟨_, w', hrun, .inr ⟨_, min_le_right _ _, rfl, hsame', fun _ hn => by omega, .inr ?_⟩⟩
    rw [hlen]
    exact hshorter.resolve_left (by simp)
  | zero =>
    obtain ⟨w', hrun, hsame', hlen⟩ := haccept 0
    refine ⟨_, w', hrun, .inr ⟨_, by omega, by simp, hsame', fun hw => (hbenign hw).elim, .inr ?_⟩⟩
    rw [hlen]
    exact hshorter.resolve_left (by simp)
  | error e => exact ⟨_, _, rfl, .inl ⟨e, rfl, hsame, hshorter.resolve_left (by simp), hbenign⟩⟩

theorem alloc_total (w : World) :
    ∃ b w', alloc w = some (.ok b, w') ∧ w.Same w' ∧ (w.Benign → b = true) := by
  obtain ⟨reply, w₁, hreply, hsame, hbenign, -⟩ := nextReply_total w
  rw [alloc, bind_of_ok hreply]
  cases reply with
  | full | short _ => exact ⟨true, w₁, rfl, hsame, fun _ => rfl⟩
  | zero | error _ => exact ⟨false, w₁, rfl, hsame, fun hw => (hbenign hw).elim⟩

theorem syscall_total (w : World) :
    ∃ res w', syscall w = some (.ok res, w') ∧ w.Same w' ∧ (w.Benign → res = .ok ()) := by
  obtain ⟨reply, w₁, hreply, hsame, hbenign, -⟩ := nextReply_total w
  rw [syscall, bind_of_ok hreply]
  cases reply with
  | full | short _ | zero => exact ⟨_, w₁, rfl, hsame, fun _ => rfl⟩
  | error _ => exact ⟨_, w₁, rfl, hsame, fun hw => (hbenign hw).elim⟩

/-- A call that may be refused memory, and what comes after. -/
theorem alloc_then_cases {x : Io α} {e : Failure}
    (h : (do if ← alloc then x else Prog.fail e : Io α) w = some (r, w')) :
    (r = .error e ∧ w.Same w') ∨ ∃ w₁, w.Same w₁ ∧ x w₁ = some (r, w') := by
  obtain ⟨b, w₁, halloc, hsame, -⟩ := alloc_total w
  rw [bind_of_ok halloc] at h
  cases b with
  | true => exact .inr ⟨w₁, hsame, h⟩
  | false =>
    obtain ⟨rfl, rfl⟩ := fail_eq_some_iff.mp h
    exact .inl ⟨rfl, hsame⟩

/-- A call that may be refused memory ends if what comes after does. -/
theorem alloc_then_total {x : Io α} {e : Failure} {Q : Except Failure α → World → Prop}
    (hx : ∀ w₁, w.Same w₁ → x.Total w₁ Q)
    (hfail : ∀ w₁, w.Same w₁ → ¬w.Benign → Q (.error e) w₁) :
    (do if ← alloc then x else Prog.fail e : Io α).Total w Q := by
  obtain ⟨b, w₁, halloc, hsame, hok⟩ := alloc_total w
  rw [Prog.Total, bind_of_ok halloc]
  cases b with
  | true => exact hx w₁ hsame
  | false => exact ⟨_, w₁, rfl, hfail w₁ hsame fun hw => Bool.false_ne_true (hok hw)⟩

/-- In a benign world the memory is there. -/
theorem alloc_then_of_benign (x : Io α) (e : Failure) (hw : w.Benign) :
    ∃ w₁, w.Same w₁ ∧ (do if ← alloc then x else Prog.fail e : Io α) w = x w₁ := by
  obtain ⟨b, w₁, halloc, hsame, hok⟩ := alloc_total w
  rw [hok hw] at halloc
  exact ⟨w₁, hsame, bind_of_ok halloc⟩

/-- A call that succeeds or fails, and what comes after. -/
theorem syscall_then_cases {f : Except Errno Unit → Io α}
    (h : (syscall >>= f) w = some (r, w')) : ∃ res w₁, w.Same w₁ ∧ f res w₁ = some (r, w') := by
  obtain ⟨res, w₁, hcall, hsame, -⟩ := syscall_total w
  exact ⟨res, w₁, hsame, (bind_of_ok hcall).symm.trans h⟩

/-- In a benign world it succeeds. -/
theorem syscall_succeeds (hw : w.Benign) :
    ∃ w', syscall w = some (.ok (.ok ()), w') ∧ w.Same w' := by
  obtain ⟨res, w', hcall, hsame, hok⟩ := syscall_total w
  rw [hok hw] at hcall
  exact ⟨w', hcall, hsame⟩

theorem change_spec {r : Except Failure (Except Errno Unit)} (h : change f w = some (r, w')) :
    (∃ e, r = .ok (.error e) ∧ w.Same w') ∨
      ∃ w₁, r = .ok (.ok ()) ∧ w.Same w₁ ∧ w' = f w₁ := by
  obtain ⟨res, w₁, hsame, hrest⟩ := syscall_then_cases h
  cases res with
  | error e =>
    obtain ⟨rfl, rfl⟩ := pure_eq_some_iff.mp hrest
    exact .inl ⟨e, rfl, hsame⟩
  | ok u =>
    obtain ⟨rfl, rfl⟩ := Prod.mk.inj (Option.some.inj hrest)
    exact .inr ⟨w₁, rfl, hsame, rfl⟩

theorem change_succeeds (f : World → World) (hw : w.Benign) :
    ∃ w₁, change f w = some (.ok (.ok ()), f w₁) ∧ w.Same w₁ := by
  obtain ⟨w₁, hcall, hsame⟩ := syscall_succeeds hw
  exact ⟨w₁, (bind_of_ok hcall).trans rfl, hsame⟩

/-! ### What a bystander sees of them -/

theorem read_keeps [IsPreorder World R] (hR : Bystander R)
    (src : Source) (n : ℕ) : (read src n).Keeps R := by
  intro w r w' h
  obtain ⟨_, -, ⟨_, -, hsame, -⟩ | ⟨k, -, -, hsame, -⟩⟩ := Prog.Total.spec_ok (read_total src n w) h
  · exact hR.same hsame
  · exact hR.drop_then hsame

theorem alloc_keeps : alloc.Keeps World.Same := by
  intro w r w' h
  obtain ⟨_, -, hsame, -⟩ := Prog.Total.spec_ok (alloc_total w) h
  exact hsame

theorem syscall_keeps : syscall.Keeps World.Same := by
  intro w r w' h
  obtain ⟨_, -, hsame, -⟩ := Prog.Total.spec_ok (syscall_total w) h
  exact hsame

theorem change_keeps [IsPreorder World R]
    (hR : ∀ ⦃w w' : World⦄, w.Same w' → R w w') (hf : ∀ w, R w (f w)) :
    (change f).Keeps R := by
  intro w r w' h
  rcases change_spec h with ⟨_, -, hsame⟩ | ⟨w₁, -, hsame, rfl⟩
  · exact hR hsame
  · exact IsTrans.trans _ _ _ (hR hsame) (hf w₁)

end Calls

end Distcc
