import Distcc.Base.Pool
import Distcc.Lock

/-!
# Choosing a slot

Model of `src/where.c`. `dcc_lock_one` goes over the slots of the hosts it is
given, slot 0 of every host first, until it gets a lock; between two rounds it
sleeps. Its place in the two loops is a `LockPos`, and one turn of the
inner loop a `LockMove`, so that the same loop can be followed to its end
in one process (`dccLockOne`) and turn by turn among many.

The second is the subject of this file. Any number of client processes share a
lock directory and a list of hosts; each calls `dcc_lock_one`, on the list, on
the local entry or on the local entry for preprocessing, gives locks back with
`dcc_unlock`, or dies, and their steps interleave freely (`LockStep`). The
system's part is a table that says of each file which process has it locked.
Since the number of a slot stays below the number of slots of the entry it was
taken through, and a file is locked by one process, an entry never has more
holders than slots (`slots_bound_holders`).

A call by itself comes back exactly if one of its hosts is up and has a slot
(`dccLockOne_returns_iff`).
-/

namespace Distcc

open CString

/-! ### The loops of `dcc_lock_one` -/

/-- A place in the loops of `dcc_lock_one`. -/
structure LockPos where
  /-- `hostlist` -/
  hosts : List Hostdef
  /-- `i_cpu` -/
  iCpu : ℕ
  /-- The rest of the list, from `h` on. -/
  left : List Hostdef

/-- Where `dcc_lock_one` starts, and starts again after `dcc_lock_pause`. -/
def LockPos.start (hosts : List Hostdef) : LockPos := ⟨hosts, 0, hosts⟩

/-- One turn of a loop of `dcc_lock_one`. -/
inductive LockMove where
  /-- Call `dcc_lock_host`, and go on at `next` if it is busy. -/
  | attempt (host : Hostdef) (slot : ℕ) (next : LockPos)
  /-- Go on at `next`. -/
  | go (next : LockPos)

/-- What `dcc_lock_one` does at a place. -/
def LockPos.move (pos : LockPos) : LockMove :=
  match pos.left with
  | h :: left =>
    if (pos.iCpu : ℤ) ≥ h.nSlots then .go { pos with left }
    else .attempt h pos.iCpu { pos with left }
  | [] =>
    if pos.iCpu + 1 < 50 then .go { pos with iCpu := pos.iCpu + 1, left := pos.hosts }
    else .go (.start pos.hosts)

variable {pos next : LockPos}

/-- What is attempted is a slot of the host. -/
theorem LockPos.slot_lt_of_attempt {h : Hostdef} {slot : ℕ}
    (hmove : pos.move = .attempt h slot next) :
    slot = pos.iCpu ∧ (slot : ℤ) < h.nSlots ∧ next.iCpu = pos.iCpu := by
  unfold LockPos.move at hmove
  split at hmove <;> split at hmove <;> cases hmove
  exact ⟨rfl, by omega, rfl⟩

theorem LockPos.iCpu_lt_of_go (hmove : pos.move = .go next)
    (h : pos.iCpu < 50) : next.iCpu < 50 := by
  unfold LockPos.move at hmove
  split at hmove <;> split at hmove <;> cases hmove
  · exact h
  · assumption
  · exact Nat.zero_lt_succ _

/-! ### One process -/

/-- What a call of `dcc_lock_one` comes to. -/
structure LockResult where
  /-- The host whose lock was taken, or what was returned. -/
  ret : Except ExitCode Hostdef
  /-- What is left in the descriptor. -/
  fd : ℤ
  /-- The next descriptor the system hands out. -/
  fresh : ℤ

/-- `dcc_lock_one` from a place in its loops on, for at most so many turns. When the
list of attempts is used up, locks are given. -/
def dccLockOne : ℕ → LockPos → List LockAttempt → ℤ → ℤ → Option LockResult
  | 0, _, _, _, _ => none
  | turns + 1, pos, attempts, fresh, fd =>
    match pos.move with
    | .go next => dccLockOne turns next attempts fresh fd
    | .attempt h _ next =>
      match dccLockHost h (attempts.headD .granted) fresh fd with
      | (none, fd) => some ⟨.ok h, fd, fresh + 1⟩
      | (some .busy, fd) => dccLockOne turns next attempts.tail (fresh + 1) fd
      | (some e, fd) => some ⟨.error e, fd, fresh + 1⟩

/-- **What a call leaves in a descriptor**, if the descriptor was -1 or handed out
by the call itself: a new one if it got the lock, and otherwise -1 or one that was
closed again. -/
theorem dccLockOne_spec {turns : ℕ} {pos : LockPos} {attempts : List LockAttempt}
    {fresh fd old : ℤ} {r : LockResult} (hrun : dccLockOne turns pos attempts fresh fd = some r)
    (hold : old ≤ fresh) (hfd : fd = noFd ∨ old ≤ fd ∧ fd < fresh) :
    old ≤ r.fresh ∧ (r.fd = noFd ∨ old ≤ r.fd ∧ r.fd < r.fresh) ∧
      ((∃ h, r.ret = .ok h) → old ≤ r.fd ∧ r.fd < r.fresh) := by
  fun_induction dccLockOne turns pos attempts fresh fd with
  | case1 => cases hrun
  | case2 turns pos attempts fresh fd next hmove ih => exact ih hrun hold hfd
  | case3 turns pos attempts fresh fd h _ next hmove fd' hhost =>
    obtain rfl := Option.some.inj hrun
    obtain rfl := dccLockHost_granted hhost
    have hnew : fd' < fd' + 1 := by omega
    exact ⟨hold.trans hnew.le, .inr ⟨hold, hnew⟩, fun _ => ⟨hold, hnew⟩⟩
  | case4 turns pos attempts fresh fd h _ next hmove fd' hhost ih =>
    have hsnd := dccLockHost_snd h (attempts.headD .granted) fresh fd
    rw [hhost] at hsnd
    exact ih hrun (by omega) (by omega)
  | case5 turns pos attempts fresh fd h _ next hmove e fd' hbusy hhost =>
    obtain rfl := Option.some.inj hrun
    have hsnd := dccLockHost_snd h (attempts.headD .granted) fresh fd
    rw [hhost] at hsnd
    exact ⟨by dsimp only; omega, by dsimp only; omega, by simp⟩

/-! ### When it comes back -/

section Waiting

variable {hosts left : List Hostdef} {h : Hostdef} {i : ℕ} {attempts : List LockAttempt}

/-- The list is gone through again, for the next slot or for the first one. -/
theorem dccLockOne_again (turns : ℕ) (fresh fd : ℤ) :
    dccLockOne (turns + 1) ⟨hosts, i, []⟩ attempts fresh fd =
      dccLockOne turns ⟨hosts, if i + 1 < 50 then i + 1 else 0, hosts⟩ attempts fresh fd := by
  rw [dccLockOne, LockPos.move]
  dsimp only
  split_ifs <;> rfl

/-- What is returned was answered by a host that is up. -/
theorem exists_up_of_dccLockOne {turns : ℕ} {fresh fd : ℤ} {r : LockResult}
    (hrun : dccLockOne turns ⟨hosts, i, left⟩ attempts fresh fd = some r) (hleft : left ⊆ hosts) :
    ∃ h ∈ hosts, h.isUp = true ∧ 0 < h.nSlots := by
  induction turns generalizing i left attempts fresh fd with
  | zero => cases hrun
  | succ turns ih =>
    cases left with
    | nil =>
      rw [dccLockOne_again] at hrun
      exact ih hrun (List.Subset.refl hosts)
    | cons h left =>
      obtain ⟨hmem, hrest⟩ := List.cons_subset.mp hleft
      rw [dccLockOne, LockPos.move] at hrun
      by_cases hslot : h.nSlots ≤ i
      · simp only [ge_iff_le, hslot, if_true] at hrun
        exact ih hrun hrest
      · cases hup : h.isUp with
        | true => exact ⟨h, hmem, hup, by omega⟩
        | false =>
          simp only [ge_iff_le, hslot, if_false, dccLockHost, hup, Bool.false_eq_true] at hrun
          exact ih hrun hrest

/-- It comes back from a place, whatever the descriptors are. -/
def ComesBack (pos : LockPos) (attempts : List LockAttempt) : Prop :=
  ∀ fresh fd, ∃ turns r, dccLockOne turns pos attempts fresh fd = some r

/-- It comes back from a host, if it does so when there is no such slot or the attempt is
lost. -/
theorem comesBack_cons (hnone : h.nSlots ≤ i → ComesBack ⟨hosts, i, left⟩ attempts)
    (hlost : h.isUp = false ∨ attempts ≠ [] → ComesBack ⟨hosts, i, left⟩ attempts.tail) :
    ComesBack ⟨hosts, i, h :: left⟩ attempts := by
  intro fresh fd
  by_cases hslot : h.nSlots ≤ i
  · obtain ⟨turns, r, hrun⟩ := hnone hslot fresh fd
    refine ⟨turns + 1, r, ?_⟩
    rw [dccLockOne, LockPos.move]
    simpa [hslot] using hrun
  have hmove : LockPos.move ⟨hosts, i, h :: left⟩ = .attempt h i ⟨hosts, i, left⟩ := if_neg hslot
  by_cases hgiven : h.isUp = true ∧ attempts = []
  · obtain ⟨hup, rfl⟩ := hgiven
    refine ⟨1, ⟨.ok h, fresh, fresh + 1⟩, ?_⟩
    rw [dccLockOne, hmove]
    simp [dccLockHost, hup]
  · obtain ⟨turns, r, hrun⟩ := hlost (by grind) (fresh + 1)
      (dccLockHost h (attempts.headD .granted) fresh fd).2
    refine ⟨turns + 1, ?_⟩
    rw [dccLockOne, hmove]
    dsimp only
    split
    · exact ⟨_, rfl⟩
    · case h_2 hhost => exact ⟨r, by rwa [hhost] at hrun⟩
    · exact ⟨_, rfl⟩

open Classical in
/-- From everywhere it comes back: it gets nearer to the first slot of the host, where it is
given a lock or an attempt is used up. -/
theorem comesBack_of_up (hmem : h ∈ hosts) (hup : h.isUp = true) (hslots : 0 < h.nSlots)
    (i : ℕ) (left : List Hostdef) (attempts : List LockAttempt) :
    ComesBack ⟨hosts, i, left⟩ attempts := by
  match left with
  | [] =>
    intro fresh fd
    obtain ⟨turns, r, hrun⟩ := comesBack_of_up hmem hup hslots (if i + 1 < 50 then i + 1 else 0)
      hosts attempts fresh fd
    exact ⟨turns + 1, r, (dccLockOne_again ..).trans hrun⟩
  | h' :: left =>
    exact comesBack_cons (fun hnone => comesBack_of_up hmem hup hslots i left attempts)
      fun hlost => comesBack_of_up hmem hup hslots i left attempts.tail
termination_by (attempts.length, if i = 0 ∧ h ∈ left then 0 else 1, 50 - i, left.length)
decreasing_by
  all_goals simp only [Prod.lex_def]
  all_goals grind [List.length_tail, List.length_pos_iff]

/-- **When `dcc_lock_one` comes back**: if one of the hosts is up and has a slot, whatever
attempts are lost before a lock is given. Otherwise it waits for ever. -/
theorem dccLockOne_returns_iff (hosts : List Hostdef) (attempts : List LockAttempt)
    (fresh fd : ℤ) :
    (∃ turns r, dccLockOne turns (.start hosts) attempts fresh fd = some r) ↔
      ∃ h ∈ hosts, h.isUp = true ∧ 0 < h.nSlots := by
  constructor
  · rintro ⟨turns, r, hrun⟩
    exact exists_up_of_dccLockOne hrun (List.Subset.refl hosts)
  · rintro ⟨h, hmem, hup, hslots⟩
    exact comesBack_of_up hmem hup hslots 0 hosts attempts fresh fd

end Waiting

/-! ### Many processes -/

/-- What the client processes share. -/
structure LockConfig where
  /-- The directory of the lock files. -/
  lockdir : CString
  /-- The list of hosts. -/
  hosts : List Hostdef
  /-- The slots of `dcc_hostdef_local`. -/
  localslots : ℤ
  /-- The slots of `dcc_hostdef_local_cpp`. -/
  localslotsCpp : ℤ

namespace LockConfig

variable (c : LockConfig)

/-- `dcc_hostdef_local` -/
def dccHostdefLocal : Hostdef := .ofLocalSlots c.localslots

/-- `dcc_hostdef_local_cpp` -/
def dccHostdefLocalCpp : Hostdef := .ofLocalSlots c.localslotsCpp

/-- The lists `dcc_lock_one` is called on: what `dcc_remove_disliked` leaves of the
list of hosts, and the two local entries. -/
def Offers (hosts : List Hostdef) : Prop :=
  hosts.Sublist c.hosts ∨ hosts = [c.dccHostdefLocal] ∨ hosts = [c.dccHostdefLocalCpp]

/-- The file of a slot. -/
def file (h : Hostdef) (slot : ℕ) : CString := dccMakeLockFilename c.lockdir (lit "cpu") h slot

end LockConfig

/-- A lock a process was given, and has not given back. -/
structure Grant where
  /-- The entry it was obtained through. -/
  host : Hostdef
  /-- The number of the slot. -/
  slot : ℕ

/-- A client process, as far as locks are concerned. -/
structure LockProc where
  /-- Where it is in `dcc_lock_one`, if it is there. -/
  pos : Option LockPos := none
  /-- The locks it was given. -/
  held : List Grant := []

/-- The processes and the system's table of locks. -/
structure LockSys (P : Type) where
  /-- Which process has a file locked. -/
  owner : CString → Option P
  /-- The processes. -/
  proc : P → LockProc

section System

variable {P : Type} [DecidableEq P] {c : LockConfig}

/-- The table after `p` has closed a descriptor of `file`, which gives up its lock
on the file if it has it. -/
def releaseOwner (owner : CString → Option P) (p : P) (file : CString) : CString → Option P :=
  if owner file = some p then Function.update owner file none else owner

/-- The table after an attempt of `p` on `file`. -/
def ownerAfter (owner : CString → Option P) (p : P) (file : CString) :
    LockAttempt → CString → Option P
  | .granted => Function.update owner file (some p)
  | .busy => releaseOwner owner p file
  | .failed => releaseOwner owner p file
  | _ => owner

/-- A process with `dcc_lock_host` returning. -/
def LockProc.after (q : LockProc) (h : Hostdef) (slot : ℕ) (next : LockPos) :
    Option ExitCode → LockProc
  | none => { pos := none, held := ⟨h, slot⟩ :: q.held }
  | some .busy => { q with pos := some next }
  | some _ => { q with pos := none }

/-- **A step of one process.** -/
inductive LockStep (c : LockConfig) : LockSys P → LockSys P → Prop
  /-- It calls `dcc_lock_one`. -/
  | call {s : LockSys P} {p : P} {hosts : List Hostdef} (hpos : (s.proc p).pos = none)
      (hhosts : c.Offers hosts) :
      LockStep c s { s with
        proc := Function.update s.proc p { s.proc p with pos := some (.start hosts) } }
  /-- It takes a turn of a loop, or sleeps. -/
  | go {s : LockSys P} {p : P} {pos next : LockPos} (hpos : (s.proc p).pos = some pos)
      (hmove : pos.move = .go next) :
      LockStep c s { s with
        proc := Function.update s.proc p { s.proc p with pos := some next } }
  /-- It calls `dcc_lock_host`. The system gives the lock on a file only if no other
  process has it; everything else can go wrong at any time. -/
  | attempt {s : LockSys P} {p : P} {pos next : LockPos} {h : Hostdef} {slot : ℕ}
      (hpos : (s.proc p).pos = some pos) (hmove : pos.move = .attempt h slot next)
      (a : LockAttempt) (fresh lockFd : ℤ)
      (hfree : a = .granted →
        s.owner (c.file h slot) = none ∨ s.owner (c.file h slot) = some p) :
      LockStep c s {
        owner := if h.isUp then ownerAfter s.owner p (c.file h slot) a else s.owner
        proc := Function.update s.proc p
          ((s.proc p).after h slot next (dccLockHost h a fresh lockFd).1) }
  /-- It calls `dcc_unlock` on the descriptor of a lock it was given. -/
  | unlock {s : LockSys P} {p : P} {g : Grant} {gs gs' : List Grant}
      (hheld : (s.proc p).held = gs ++ g :: gs') :
      LockStep c s {
        owner := releaseOwner s.owner p (c.file g.host g.slot)
        proc := Function.update s.proc p { s.proc p with held := gs ++ gs' } }
  /-- It ends, however that comes, and the system takes back what it had locked. -/
  | exit {s : LockSys P} {p : P} :
      LockStep c s {
        owner := fun file => if s.owner file = some p then none else s.owner file
        proc := Function.update s.proc p {} }

/-- Before any process has done anything. -/
def LockSys.init : LockSys P := ⟨fun _ => none, fun _ => {}⟩

/-- `p` holds a lock obtained through the entry `h`. -/
def LockSys.Holds (c : LockConfig) (s : LockSys P) (p : P) (h : Hostdef) : Prop :=
  ∃ g ∈ (s.proc p).held, g.host = h ∧ s.owner (c.file g.host g.slot) = some p

/-! ### What every step keeps -/

/-- A process is within bounds: the slots it was given are slots of their entries,
and its loop counter is below the 50 of the source. -/
structure LockProc.Bounded (q : LockProc) : Prop where
  held : ∀ g ∈ q.held, g.slot < 50 ∧ (g.slot : ℤ) < g.host.nSlots
  pos : ∀ pos, q.pos = some pos → pos.iCpu < 50

/-- One process changes, and stays within bounds. -/
theorem bounded_update {proc : P → LockProc} (h : ∀ p, (proc p).Bounded) {p : P} {q : LockProc}
    (hq : q.Bounded) (r : P) : (Function.update proc p q r).Bounded := by
  by_cases hr : r = p
  · subst hr
    rwa [Function.update_self]
  · rw [Function.update_of_ne hr]
    exact h r

/-- `dcc_lock_host` returning keeps a process within bounds. -/
theorem LockProc.Bounded.after {q : LockProc} (hq : q.Bounded) {h : Hostdef} {slot : ℕ}
    {next : LockPos} (hslot : slot < 50 ∧ (slot : ℤ) < h.nSlots) (hnext : next.iCpu < 50)
    (ret : Option ExitCode) : (q.after h slot next ret).Bounded := by
  unfold LockProc.after
  split
  · refine ⟨fun g hg => ?_, by simp⟩
    rcases List.mem_cons.mp hg with rfl | hg
    · exact hslot
    · exact hq.held g hg
  · refine ⟨hq.held, fun pos hpos => ?_⟩
    obtain rfl : next = pos := by simpa using hpos
    exact hnext
  · exact ⟨hq.held, by simp⟩

/-- **One step** keeps every process within bounds. -/
theorem bounded_of_lockStep {s s' : LockSys P} (hstep : LockStep c s s')
    (h : ∀ p, (s.proc p).Bounded) : ∀ p, (s'.proc p).Bounded := by
  cases hstep with
  | call hpos hhosts =>
    refine bounded_update h ⟨(h _).held, fun pos hpos => ?_⟩
    obtain rfl : LockPos.start _ = pos := by simpa using hpos
    exact Nat.zero_lt_succ _
  | go hpos hmove =>
    refine bounded_update h ⟨(h _).held, fun pos hpos' => ?_⟩
    obtain rfl : _ = pos := by simpa using hpos'
    exact LockPos.iCpu_lt_of_go hmove ((h _).pos _ hpos)
  | attempt hpos hmove a fresh lockFd hfree =>
    obtain ⟨rfl, hslot, hnext⟩ := LockPos.slot_lt_of_attempt hmove
    have hlt := (h _).pos _ hpos
    exact bounded_update h ((h _).after ⟨hlt, hslot⟩ (hnext ▸ hlt) _)
  | @unlock p _ _ _ hheld =>
    refine bounded_update h ⟨fun g hg => (h p).held g ?_, (h p).pos⟩
    rw [hheld]
    rcases List.mem_append.mp hg with hg | hg
    · exact List.mem_append_left _ hg
    · exact List.mem_append_right _ (List.mem_cons_of_mem _ hg)
  | exit => exact bounded_update h ⟨by simp, by simp⟩

/-- **Every run** keeps every process within bounds. -/
theorem bounded_of_run {s : LockSys P}
    (hrun : Relation.ReflTransGen (LockStep c) .init s) : ∀ p, (s.proc p).Bounded := by
  have hinit : ∀ p : P, ((LockSys.init : LockSys P).proc p).Bounded :=
    fun _ => ⟨fun _ hg => absurd hg List.not_mem_nil,
      fun pos hpos => absurd hpos.symm (Option.some_ne_none pos)⟩
  have hkeep : ∀ s s' : LockSys P, LockStep c s s' → (∀ p, (s.proc p).Bounded) →
      ∀ p, (s'.proc p).Bounded := fun _ _ => bounded_of_lockStep
  exact invariant_of_step hkeep hrun hinit

/-- Who holds a lock through an entry has the file of one of its first 50 slots. -/
theorem LockSys.Holds.exists_slot {s : LockSys P} {p : P} {h : Hostdef}
    (hholds : s.Holds c p h) (hrun : Relation.ReflTransGen (LockStep c) .init s) :
    ∃ i < (min h.nSlots 50).toNat, s.owner (c.file h i) = some p := by
  obtain ⟨g, hg, rfl, howner⟩ := hholds
  obtain ⟨h50, hslots⟩ := (bounded_of_run hrun p).held g hg
  exact ⟨g.slot, by omega, howner⟩

/-- The two local entries share their files. -/
theorem file_dccHostdefLocalCpp (c : LockConfig) (slot : ℕ) :
    c.file c.dccHostdefLocalCpp slot = c.file c.dccHostdefLocal slot := rfl

/-- **The slots bound the holders.** At every moment of every run, at most
`min(n_slots, 50)` processes hold a lock through an entry, at most `localslots`
through the local one, and at most the greater of the two limits through either
of the local ones; and no file serves two slots. -/
theorem slots_bound_holders {c : LockConfig} {s : LockSys P}
    (hrun : Relation.ReflTransGen (LockStep c) .init s) :
    (∀ (h : Hostdef) (ps : Finset P), (∀ p ∈ ps, s.Holds c p h) →
        ps.card ≤ (min h.nSlots 50).toNat) ∧
      (∀ ps : Finset P, (∀ p ∈ ps, s.Holds c p c.dccHostdefLocal) →
        ps.card ≤ c.localslots.toNat) ∧
      (∀ ps : Finset P,
        (∀ p ∈ ps, s.Holds c p c.dccHostdefLocal ∨ s.Holds c p c.dccHostdefLocalCpp) →
        ps.card ≤ (max (min c.localslots 50) (min c.localslotsCpp 50)).toNat) ∧
      ∀ (h h' : Hostdef) (i i' : ℕ), '/'.toUInt8 ∉ h.hostname → '/'.toUInt8 ∉ h'.hostname →
        (c.file h i = c.file h' i' ↔
          h.mode = h'.mode ∧ h.hostname = h'.hostname ∧ (h.mode = .tcp → h.port = h'.port) ∧
            i = i') := by
  have hentry (h : Hostdef) (ps : Finset P) (hps : ∀ p ∈ ps, s.Holds c p h) :
      ps.card ≤ (min h.nSlots 50).toNat :=
    card_le_of_owner_lt (c.file h) fun p hp => (hps p hp).exists_slot hrun
  refine ⟨hentry, fun ps hps => ?_, fun ps hps => ?_, fun h h' i i' _ _ => ?_⟩
  · have hle := hentry c.dccHostdefLocal ps hps
    have hslots : c.dccHostdefLocal.nSlots = c.localslots := rfl
    omega
  · have howned : ∀ p ∈ ps, ∃ i < (max (min c.localslots 50) (min c.localslotsCpp 50)).toNat,
        s.owner (c.file c.dccHostdefLocal i) = some p := by
      intro p hp
      have hslots : c.dccHostdefLocal.nSlots = c.localslots := rfl
      have hslotsCpp : c.dccHostdefLocalCpp.nSlots = c.localslotsCpp := rfl
      rcases hps p hp with hholds | hholds
      · obtain ⟨i, hi, howner⟩ := hholds.exists_slot hrun
        exact ⟨i, by omega, howner⟩
      · obtain ⟨i, hi, howner⟩ := hholds.exists_slot hrun
        exact ⟨i, by omega, by rwa [← file_dccHostdefLocalCpp]⟩
    exact card_le_of_owner_lt (c.file c.dccHostdefLocal) howned
  · rw [LockConfig.file, LockConfig.file, dccMakeLockFilename_eq_iff, Nat.cast_inj]

end System

/-- Two processes and one slot: the first takes it, and from then on no set of
processes that hold it has more than one member. -/
theorem slots_bound_holders_one :
    ∃ (c : LockConfig) (s : LockSys Bool),
      Relation.ReflTransGen (LockStep c) .init s ∧ s.Holds c true c.dccHostdefLocal ∧
        ∀ ps : Finset Bool, (∀ p ∈ ps, s.Holds c p c.dccHostdefLocal) → ps.card ≤ 1 := by
  let c : LockConfig := ⟨lit "/tmp", [], 1, 8⟩
  let s : LockSys Bool :=
    { LockSys.init with
      proc := Function.update LockSys.init.proc true { pos := some (.start [c.dccHostdefLocal]) } }
  have hcall : LockStep c .init s := .call rfl (.inr (.inl rfl))
  have hattempt : LockStep c s _ := .attempt (p := true) rfl rfl .granted 3 noFd fun _ => .inl rfl
  have hrun := (Relation.ReflTransGen.single hcall).tail hattempt
  refine ⟨c, _, hrun, ⟨⟨c.dccHostdefLocal, 0⟩, List.mem_cons_self, rfl, ?_⟩, ?_⟩
  · exact Function.update_self (c.file c.dccHostdefLocal 0) (some true) s.owner
  · exact (slots_bound_holders hrun).2.1

end Distcc
