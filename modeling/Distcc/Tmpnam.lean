import Distcc.Cleanup

/-!
# New files, and names for them

The model of `dcc_make_tmpnam` of `src/tempfile.c` in a directory that it shares with others,
which is the same function as for a job of the server, with other calls (`tmpnamCall`).
Names are tried one after the other, each with an `open` that succeeds only if there is nothing
of this name, until one of them is new. What the others do to the tree in between, and whether
the system refuses an `open` for a reason of its own, may be different at every attempt, of
which there is no last one.

The loop does not look at the reason why an `open` fails. The name it ends with is that of a
file it has made (`Tmpnam.Call.dccMakeTmpnam_creates`), but it ends only if an `open`
succeeds or memory runs out, so that it goes on for ever if all of them are refused
(`Tmpnam.Call.dccMakeTmpnam_never`).
-/

namespace Distcc.Tmpnam

open CString Prog

/-! ### The model -/

/-- Why an `open` fails. -/
inductive OpenError where
  /-- `EEXIST` -/
  | exist
  /-- Any other reason, such as `ENOSPC`, `EMFILE` or `EROFS`. -/
  | other
  deriving DecidableEq, Repr

/-- What an attempt meets with. -/
structure Attempt where
  /-- What others do to the tree before the file is opened. -/
  others : FileSystem → FileSystem
  /-- Is there memory for the name? -/
  memory : Bool
  /-- Why `open` fails, whatever there is in the tree. -/
  refused : Option OpenError
  /-- Does `close` succeed? -/
  closes : Bool

/-- Is there anything of this name? A link that leads nowhere counts. -/
def isThere (tree : FileSystem) (path : CString) : Bool :=
  match tree.spot path with
  | none => false
  | some s => (tree.entry s.place).isSome

/-- `open`, with `O_CREAT` and `O_EXCL`. -/
def openNew (a : Attempt) (tree : FileSystem) (path : CString) : Except OpenError FileSystem :=
  match a.refused with
  | some e => .error e
  | none =>
    if isThere tree path then .error .exist
    else if path.getLast? = some 47 then .error .other
    else
      match tree.create path .file with
      | none => .error .other
      | some tree => .ok tree

/-- A call of `dcc_make_tmpnam`: its arguments, what it takes for random bits, and what it meets
with. -/
structure Call where
  proc : Proc
  pre : CString
  suffix : CString
  randomBits : ℕ
  /-- Is the directory for temporary files one that can be used? -/
  access : Bool
  attempt : ℕ → Attempt

namespace Call

variable (c : Call)

/-- The name that is tried with some random bits. -/
def nameOf (randomBits : ℕ) : CString :=
  tmpnam (dccGetTmpTop c.proc) c.pre c.suffix randomBits

/-- `close` -/
def closed (a : Attempt) : DiskIo (Except OpenError Unit) :=
  pure (if a.closes then .ok () else .error .other)

/-- After an `open`: the tree is what others and the new file have made of it. -/
def opened (a : Attempt) (s : CString) : DiskIo (Except OpenError Unit) := do
  let d ← Prog.get
  let tree := a.others d.tree
  match openNew a tree s with
  | .error e => do
    Prog.modify fun d => { d with tree := tree }
    pure (.error e)
  | .ok tree => do
    Prog.modify fun d => { d with tree := tree }
    pure (.ok ())

/-- A turn of the loop: the number of the attempt is counted, and the random bits are changed by
7777 if the attempt fails. -/
def turn (b : ℕ × ℕ) : DiskIo (ℕ × ℕ ⊕ CString) :=
  let a := c.attempt b.1
  let s := c.nameOf b.2
  tmpnamTurn (pure a.memory) (opened a s) (closed a) s (b.1 + 1, b.2 + 7777)

/-- `dcc_make_tmpnam`, with so many attempts at most. -/
def dccMakeTmpnam (attempts : ℕ) : DiskIo CString :=
  tmpnamCall (pure (if c.access then .ok () else .error OpenError.other))
    (Prog.loop c.turn attempts (0, c.randomBits)) (Disk.addCleanupOr FileSystem.unlink)

/-! ### The attempts -/

/-- The tree after so many attempts that have made nothing. -/
def treeAfter (tree : FileSystem) : ℕ → FileSystem
  | 0 => tree
  | i + 1 => (c.attempt i).others (treeAfter tree i)

/-- The tree that an attempt finds. -/
def treeAt (tree : FileSystem) (i : ℕ) : FileSystem := (c.attempt i).others (c.treeAfter tree i)

/-- The name that an attempt tries. -/
def nameAt (i : ℕ) : CString := c.nameOf (c.randomBits + 7777 * i)

/-- The `open` of an attempt, if all those before it have failed. -/
def openAt (tree : FileSystem) (i : ℕ) : Except OpenError FileSystem :=
  openNew (c.attempt i) (c.treeAt tree i) (c.nameAt i)

/-- The attempt has a name to try, and fails. -/
def Fails (tree : FileSystem) (i : ℕ) : Prop :=
  (c.attempt i).memory = true ∧ ∃ e, c.openAt tree i = .error e

/-! ### What is asked of it -/

/-- **It gives up on real errors**: once there are only those, it returns an error after some
more attempts. -/
def GivesUp (d : Disk) : Prop :=
  ∀ k, c.access = true → (∀ i < k, c.Fails d.tree i) →
    (∀ i ≥ k, c.openAt d.tree i = .error .other) →
    ∃ attempts e d', c.dccMakeTmpnam attempts d = some (.error e, d')

/-- **It makes the file**: where there was nothing, there is the file it has made, and it is on
the list for cleaning up. -/
def Creates (d : Disk) : Prop :=
  ∀ attempts s d', c.dccMakeTmpnam attempts d = some (.ok s, d') →
    ∃ i, isThere (c.treeAt d.tree i) s = false ∧
      (c.treeAt d.tree i).create s .file = some d'.tree ∧ s ∈ d'.cleanups

/-! ### The loop -/

section Loop

variable {c} {d d' : Disk} {i n : ℕ}

theorem openNew_eq_ok {a : Attempt} {tree tree' : FileSystem} {path : CString}
    (h : openNew a tree path = .ok tree') :
    isThere tree path = false ∧ tree.create path .file = some tree' := by
  unfold openNew at h
  split at h
  · cases h
  · split at h
    · cases h
    · case isFalse hnew =>
      split at h
      · cases h
      · split at h
        · cases h
        · case h_2 tree₁ hcreate =>
          exact ⟨Bool.eq_false_iff.mpr hnew, hcreate.trans (congrArg some (Except.ok.inj h))⟩

/-- The disk before an attempt, if all those before it have failed. -/
def diskAfter (c : Call) (d : Disk) (i : ℕ) : Disk := { d with tree := c.treeAfter d.tree i }

/-- Where the loop is before an attempt. -/
def countAfter (c : Call) (i : ℕ) : ℕ × ℕ := (i, c.randomBits + 7777 * i)

theorem countAfter_succ (c : Call) (i : ℕ) :
    c.countAfter (i + 1) = (i + 1, c.randomBits + 7777 * i + 7777) := by
  rw [countAfter, Nat.mul_succ, Nat.add_assoc]

theorem turn_memory (h : (c.attempt i).memory = false) :
    c.turn (c.countAfter i) (c.diskAfter d i) =
      some (.error ExitCode.outOfMemory.failure, c.diskAfter d i) := by
  have hmemory : (c.attempt (c.countAfter i).1).memory = false := h
  rw [turn, hmemory]
  rfl

theorem turn_fails (h : c.Fails d.tree i) :
    c.turn (c.countAfter i) (c.diskAfter d i) =
      some (.ok (.inl (c.countAfter (i + 1))), c.diskAfter d (i + 1)) := by
  obtain ⟨hmemory, e, he⟩ := h
  have hopened : opened (c.attempt i) (c.nameAt i) (c.diskAfter d i) =
      some (.ok (.error e), c.diskAfter d (i + 1)) := by
    rw [opened, get_bind]
    dsimp only
    have hopen : openNew (c.attempt i) ((c.attempt i).others (c.diskAfter d i).tree) (c.nameAt i) =
      .error e := he
    rw [hopen]
    rfl
  have hname : (c.attempt (c.countAfter i).1).memory = true := hmemory
  rw [countAfter_succ, turn, hname]
  exact bind_of_ok hopened

theorem turn_succeeds {tree : FileSystem} (hmemory : (c.attempt i).memory = true)
    (h : c.openAt d.tree i = .ok tree) :
    c.turn (c.countAfter i) (c.diskAfter d i) =
      some (if (c.attempt i).closes then .ok (.inr (c.nameAt i))
        else .error ExitCode.ioError.failure, { d with tree := tree }) := by
  have hopened : opened (c.attempt i) (c.nameAt i) (c.diskAfter d i) =
      some (.ok (.ok ()), { d with tree := tree }) := by
    rw [opened, get_bind]
    dsimp only
    have hopen : openNew (c.attempt i) ((c.attempt i).others (c.diskAfter d i).tree) (c.nameAt i) =
      .ok tree := h
    rw [hopen]
    rfl
  have hname : (c.attempt (c.countAfter i).1).memory = true := hmemory
  rw [turn, hname]
  refine (bind_of_ok hopened).trans ?_
  cases hcloses : (c.attempt i).closes with
  | true =>
    have hclosed : closed (c.attempt (c.countAfter i).1) = pure (.ok ()) := by
      rw [closed, countAfter, hcloses, if_pos rfl]
    rw [hclosed]
    rfl
  | false =>
    have hclosed : closed (c.attempt (c.countAfter i).1) = pure (.error .other) := by
      rw [closed, countAfter, hcloses, if_neg Bool.false_ne_true]
    rw [hclosed]
    rfl

/-- **The loop goes on** as long as the attempts fail. -/
theorem loop_of_fails (h : ∀ j < i, c.Fails d.tree j) :
    Prog.loop c.turn (i + n) (0, c.randomBits) d =
      Prog.loop c.turn n (c.countAfter i) (c.diskAfter d i) := by
  induction i generalizing n with
  | zero => rw [Nat.zero_add]; rfl
  | succ i ih =>
    rw [Nat.add_right_comm, Nat.add_assoc, ih fun j hj => h j (Nat.lt_succ_of_lt hj)]
    exact loop_next (turn_fails (h i i.lt_succ_self))

/-- A turn of which the loop says how to go on is one that fails. -/
theorem turn_cases (c : Call) (d : Disk) (i : ℕ) :
    c.Fails d.tree i ∨ (∃ tree, c.openAt d.tree i = .ok tree ∧
      c.turn (c.countAfter i) (c.diskAfter d i) =
        some (.ok (.inr (c.nameAt i)), { d with tree := tree })) ∨
      ∃ e d', c.turn (c.countAfter i) (c.diskAfter d i) = some (.error e, d') := by
  cases hmemory : (c.attempt i).memory with
  | false => exact .inr (.inr ⟨_, _, turn_memory hmemory⟩)
  | true =>
    cases hopen : c.openAt d.tree i with
    | error e => exact .inl ⟨hmemory, e, hopen⟩
    | ok tree =>
      have hturn := turn_succeeds hmemory hopen
      split at hturn
      · exact .inr (.inl ⟨tree, rfl, hturn⟩)
      · exact .inr (.inr ⟨_, _, hturn⟩)

/-- **What the loop ends with** is the file of some attempt. -/
theorem loop_creates {s : CString}
    (h : Prog.loop c.turn n (0, c.randomBits) d = some (.ok s, d')) :
    ∃ i tree, c.openAt d.tree i = .ok tree ∧ s = c.nameAt i ∧ d' = { d with tree := tree } := by
  refine loop_rule (I := fun b d₁ => ∃ i, b = c.countAfter i ∧ d₁ = c.diskAfter d i)
    (Q := fun r d₁ => ∀ s, r = .ok s → ∃ i tree, c.openAt d.tree i = .ok tree ∧
      s = c.nameAt i ∧ d₁ = { d with tree := tree })
    ?_ ?_ (fun _ _ _ _ _ _ _ hs => nomatch hs) ⟨0, rfl, rfl⟩ h s rfl
  · rintro _ _ b' d₁ ⟨i, rfl, rfl⟩ hturn
    obtain hfails | ⟨tree, -, hok⟩ | ⟨e, d₂, herror⟩ := turn_cases c d i
    · cases (turn_fails hfails).symm.trans hturn
      exact ⟨i + 1, rfl, rfl⟩
    · cases hok.symm.trans hturn
    · cases herror.symm.trans hturn
  · rintro _ _ s' d₁ ⟨i, rfl, rfl⟩ hturn s hs
    obtain hfails | ⟨tree, hopen, hok⟩ | ⟨e, d₂, herror⟩ := turn_cases c d i
    · cases (turn_fails hfails).symm.trans hturn
    · cases hok.symm.trans hturn
      cases hs
      exact ⟨i, tree, hopen, rfl, rfl⟩
    · cases herror.symm.trans hturn

end Loop

/-! ### A call -/

section Calls

variable {c} {d : Disk}

theorem dccMakeTmpnam_of_access (haccess : c.access = true) (attempts : ℕ) :
    c.dccMakeTmpnam attempts = (do
      let s ← Prog.loop c.turn attempts (0, c.randomBits)
      Disk.addCleanupOr FileSystem.unlink s
      pure s) := by
  rw [dccMakeTmpnam, if_pos haccess]
  rfl

/-- **If every attempt fails, the call does not return.** -/
theorem dccMakeTmpnam_never (haccess : c.access = true) (h : ∀ i, c.Fails d.tree i)
    (attempts : ℕ) : c.dccMakeTmpnam attempts d = none := by
  have hloop := @loop_of_fails c d attempts 0 fun j _ => h j
  rw [Nat.add_zero] at hloop
  rw [dccMakeTmpnam_of_access haccess, bind_apply, hloop]
  rfl

/-- If memory runs out after some attempts that fail, the call returns an error. -/
theorem dccMakeTmpnam_memory (haccess : c.access = true) {i : ℕ} (h : ∀ j < i, c.Fails d.tree j)
    (hmemory : (c.attempt i).memory = false) :
    ∃ e d', c.dccMakeTmpnam (i + 1) d = some (.error e, d') := by
  have hloop := (@loop_of_fails c d i 1 h).trans (loop_error (turn_memory hmemory))
  rw [dccMakeTmpnam_of_access haccess]
  exact ⟨_, _, bind_of_error hloop⟩

/-- **A call that returns 0 has made the file**, and registered it. -/
theorem dccMakeTmpnam_creates (c : Call) (d : Disk) : c.Creates d := by
  intro attempts s d' h
  cases haccess : c.access with
  | false =>
    rw [dccMakeTmpnam, haccess] at h
    cases h
  | true =>
    rw [dccMakeTmpnam_of_access haccess] at h
    obtain ⟨s₁, d₁, hloop, h⟩ := bind_eq_ok_iff.mp h
    obtain ⟨i, tree, hopen, rfl, rfl⟩ := loop_creates hloop
    obtain ⟨u, d₂, hregister, h⟩ := bind_eq_ok_iff.mp h
    obtain ⟨rfl, rfl⟩ := pure_eq_ok_iff.mp h
    obtain ⟨hnew, hcreate⟩ := openNew_eq_ok hopen
    obtain ⟨ret, d₃, hadd, hregister⟩ := attempt_bind_cases hregister
    obtain ⟨rfl, htree, hlist⟩ | ⟨⟨e, rfl⟩, -⟩ := Disk.dccAddCleanup_spec hadd
    · obtain ⟨-, rfl⟩ := pure_eq_some_iff.mp hregister
      refine ⟨i, hnew, hcreate.trans (congrArg some htree.symm), ?_⟩
      rw [hlist]
      exact List.mem_append_right _ (List.mem_singleton_self _)
    · dsimp only at hregister
      rw [modify_bind] at hregister
      cases hregister

/-- **It gives up on real errors, unless there are only errors**: what it returns is a file it
has made, but it goes on for ever if every `open` fails, those from some attempt on with real
errors, and memory suffices for the names. -/
theorem givesUp_and_creates_iff (c : Call) (d : Disk) :
    c.GivesUp d ∧ c.Creates d ↔
      ¬(c.access = true ∧ (∀ i, c.Fails d.tree i) ∧
        ∃ k, ∀ i ≥ k, c.openAt d.tree i = .error .other) := by
  rw [and_iff_left (dccMakeTmpnam_creates c d)]
  constructor
  · rintro h ⟨haccess, hfails, k, hother⟩
    obtain ⟨attempts, e, d', hrun⟩ := h k haccess (fun i _ => hfails i) hother
    rw [dccMakeTmpnam_never haccess hfails] at hrun
    cases hrun
  · intro h k haccess hbefore hother
    -- The attempts all fail, so that memory is not there for one of them.
    have hopen (i : ℕ) : ∃ e, c.openAt d.tree i = .error e := by
      obtain hi | hi := Nat.lt_or_ge i k
      · exact (hbefore i hi).2
      · exact ⟨_, hother i hi⟩
    have hout : ∃ i, (c.attempt i).memory = false := by
      by_contra hall
      refine h ⟨haccess, fun i => ⟨?_, hopen i⟩, k, hother⟩
      exact Bool.eq_true_of_not_eq_false fun hi => hall ⟨i, hi⟩
    classical
    refine ⟨Nat.find hout + 1, dccMakeTmpnam_memory haccess (fun j hj => ⟨?_, hopen j⟩)
      (Nat.find_spec hout)⟩
    exact Bool.eq_true_of_not_eq_false (Nat.find_min hout hj)

end Calls

end Call

/-! ### A disk that is full -/

/-- An attempt for which there is no space left on the device. -/
def fullAttempt : Attempt where
  others := id
  memory := true
  refused := some .other
  closes := true

/-- A call on a device that is full. -/
def fullCall : Call where
  proc := {}
  pre := lit "distcc"
  suffix := lit ".o"
  randomBits := 0
  access := true
  attempt _ := fullAttempt

/-- A disk with a directory for temporary files. -/
def tmpOnly : Disk where
  tree := FileSystem.ofTable [([lit "tmp"], .directory)] (by decide)
  cleanups := []
  cleanupsSize := 0
  replies := []

/-- **On a full device it does not give up.** -/
theorem fullCall_not_givesUp : ¬fullCall.GivesUp tmpOnly := by
  intro h
  have hother (i : ℕ) : fullCall.openAt tmpOnly.tree i = .error .other := rfl
  obtain ⟨attempts, e, d', hrun⟩ := h 0 rfl (fun i hi => absurd hi i.not_lt_zero) fun i _ =>
    hother i
  rw [Call.dccMakeTmpnam_never rfl fun i => ⟨rfl, _, hother i⟩] at hrun
  cases hrun

end Distcc.Tmpnam
