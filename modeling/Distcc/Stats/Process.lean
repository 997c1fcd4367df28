import Distcc.Base.CString
import Distcc.Base.Heap
import Distcc.Stats.Total

/-!
# What the server is told

Model of `dcc_stats_process` and `dcc_stats_update_compile_times` in `src/stats.c`. A
child of the server tells it what happened in a packet. The packets are counted by type,
and those about jobs that were done are kept for two minutes, in a list from which the old
ones are taken out when a new one comes.

The number of a type is compared with that of the types, and the number of the types itself
passes, so that a count behind the array is changed. The loop that takes old packets out
goes on from the node in front of it, and there is none if the new packet is old itself.
Without such packets, and if the counts are not too large, everything is as it should be
(`statsExact_iff`).
-/

namespace Distcc

open CString List Prog

/-! ### The functions -/

/-- `enum stats_e`, without `STATS_ENUM_MAX`. -/
inductive StatsE
  | tcpAccept
  | rejBadReq
  | rejOverload
  | compileOk
  | compileError
  | compileTimeout
  | cliDisconn
  | other
  deriving DecidableEq, Repr

/-- `STATS_ENUM_MAX` -/
def statsEnumMax : ℕ := 8

/-- The type with this number. -/
def StatsE.ofNat? : ℕ → Option StatsE
  | 0 => some tcpAccept
  | 1 => some rejBadReq
  | 2 => some rejOverload
  | 3 => some compileOk
  | 4 => some compileError
  | 5 => some compileTimeout
  | 6 => some cliDisconn
  | 7 => some other
  | _ => none

/-- `struct statsdata`, what the functions read of it. The type is what is in the field. -/
structure StatsData where
  type : ℕ
  /-- `stop.tv_sec` -/
  stop : ℤ
  time : ℤ
  filename : CString
  compiler : CString
  deriving DecidableEq, Repr

/-- `MAX_FILENAME_LEN` -/
def maxFilenameLen : ℕ := 1024

/-- What `strncpy` copies of a name. -/
def copyName (name : CString) : CString := (ofBuffer name).take maxFilenameLen

/-- `dcc_stats` -/
structure StatsVars where
  counters : StatsE → ℤ := fun _ => 0
  longestJobTime : ℤ := -1
  longestJobName : CString := []
  longestJobCompiler : CString := []
  sdRoot : Option ℕ := none
  running : RunningTotal := {}

/-- The memory of the server. -/
abbrev StatsMemory := Memory StatsData StatsVars

open Memory

/-- The file with the longest run time is recorded. -/
def recordLongest (sd : StatsData) (v : StatsVars) : StatsVars :=
  if v.longestJobTime < sd.time then
    { v with
      longestJobTime := sd.time
      longestJobName := copyName sd.filename
      longestJobCompiler := copyName sd.compiler }
  else v

/-- A turn of the loop that takes old packets out of the list, with the pointers `prev_sd`
and `curr_sd`. -/
def dropTurn (twoMinAgo : ℤ) (st : Option ℕ × Option ℕ) :
    Prog StatsMemory Fault (Option ℕ × Option ℕ ⊕ Unit) :=
  match st with
  | (_, none) => pure (.inr ())
  | (prevSd, some curr) => do
    let node ← load (some curr)
    if node.data.stop < twoMinAgo then do
      match prevSd with
      | none => assign fun v => { v with sdRoot := node.next }
      | some prev => store (some prev) fun n => { n with next := node.next }
      free (some curr)
      -- this is also done if there is no node in front
      let prevNode ← load prevSd
      pure (.inl (prevSd, prevNode.next))
    else pure (.inl (some curr, node.next))

/-- `dcc_stats_update_compile_times`, at the time `now`. -/
def dccStatsUpdateCompileTimes (now : ℕ) (sd : StatsData) : Prog StatsMemory Fault Unit := do
  assign (recordLongest sd)
  let m ← Prog.get
  let newSd ← malloc ⟨sd, m.vars.sdRoot⟩
  assign fun v => { v with sdRoot := some newSd }
  Prog.loop (dropTurn ((now : ℤ) - 120)) (newSd + 2) (none, some newSd)

/-- The variables of `dcc_stats_update_running_total` are changed. -/
def setRunning (m : StatsMemory) (running : RunningTotal) : StatsMemory :=
  { m with vars := { m.vars with running := running } }

/-- `dcc_stats_update_running_total`, on the variables of the server. -/
def updateRunningTotal (now : ℕ) (increment : ℤ) : Prog StatsMemory Fault Unit := do
  let _ ← Prog.zoom (fun m => m.vars.running) setRunning
    (dccStatsUpdateRunningTotal now increment)
  pure ()

/-- A counter is changed. -/
def setCounter (e : StatsE) (n : ℤ) (m : StatsMemory) : StatsMemory :=
  { m with vars := { m.vars with counters := Function.update m.vars.counters e n } }

/-- `dcc_stats.counters[type]++` -/
def countPacket (type : ℕ) : Prog StatsMemory Fault Unit := do
  match StatsE.ofNat? type with
  | none => Prog.fail .bounds
  | some e =>
    let m ← Prog.get
    if IsInt (m.vars.counters e + 1) then Prog.modify (setCounter e (m.vars.counters e + 1))
    else Prog.fail .overflow

/-- The `switch` in `dcc_stats_process`, whose first case falls through to the next ones. -/
def statsSwitch (now now' : ℕ) (sd : StatsData) : Option StatsE → Prog StatsMemory Fault Unit
  | some .compileOk => do
    dccStatsUpdateCompileTimes now sd
    updateRunningTotal now' 1
  | some .compileError => updateRunningTotal now' 1
  | some .compileTimeout => updateRunningTotal now' 1
  | some .cliDisconn => updateRunningTotal now' 1
  | _ => pure ()

/-- `dcc_stats_process`. The clock is looked at when the list is cleaned up, and when the
total is updated. -/
def dccStatsProcess (now now' : ℕ) (sd : StatsData) : Prog StatsMemory Fault Unit :=
  if sd.type > statsEnumMax then pure ()
  else do
    statsSwitch now now' sd (StatsE.ofNat? sd.type)
    countPacket sd.type

/-- A packet, and what the clock shows while it is processed. -/
structure Packet where
  sd : StatsData
  /-- When the list is cleaned up. -/
  now : ℕ
  /-- When the total is updated. -/
  now' : ℕ
  deriving DecidableEq, Repr

/-- Packets that come one after the other. -/
def processAll (packets : List Packet) : Prog StatsMemory Fault Unit :=
  Prog.forEach (fun p => dccStatsProcess p.now p.now' p.sd) packets

/-- The memory at the start. -/
def StatsMemory.start : StatsMemory := ⟨fun _ => none, 0, {}⟩

/-! ### The list -/

section List

variable {m : StatsMemory} {root : Option ℕ} {kept rest : List (ℕ × StatsData)}
  {e e' : ℕ × StatsData} {t : ℤ}

/-- An old packet behind another one is taken out. -/
theorem dropTurn_old (h : Linked m.nodes root (kept ++ e :: e' :: rest)) (hold : e'.2.stop < t) :
    ∃ m', dropTurn t (some e.1, some e'.1) m =
        some (.ok (.inl (some e.1, rest.head?.map Prod.fst)), m') ∧
      Linked m'.nodes root (kept ++ e :: rest) ∧ m'.vars = m.vars ∧ m'.brk = m.brk := by
  obtain ⟨next, hnode, hnode', hnext, hlinked⟩ := h.unlink
  have hne : e.1 ≠ e'.1 := by
    have hnodup := h.nodup
    simp only [map_append, map_cons, nodup_append, nodup_cons, mem_cons,
      not_or] at hnodup
    exact hnodup.2.1.1.1
  -- the two nodes once the first of them points past the second
  have hprev : Function.update m.nodes e.1 (some ⟨e.2, next⟩) e'.1 = some ⟨e'.2, next⟩ := by
    rw [Function.update_of_ne hne.symm, hnode']
  have hagain : Function.update (Function.update m.nodes e.1 (some ⟨e.2, next⟩)) e'.1 none e.1 =
      some ⟨e.2, next⟩ := by
    rw [Function.update_of_ne hne, Function.update_self]
  refine ⟨⟨_, m.brk, m.vars⟩, ?_, hlinked, rfl, rfl⟩
  rw [dropTurn, bind_of_ok (load_eq hnode'), if_pos hold]
  refine (bind_of_ok (store_eq hnode _)).trans ?_
  refine (bind_of_ok (free_eq hprev)).trans ?_
  refine (bind_of_ok (load_eq hagain)).trans ?_
  rw [← hnext]
  rfl

/-- A packet that is not old is passed. -/
theorem dropTurn_new (h : Linked m.nodes root (kept ++ e :: rest)) (hnew : ¬e.2.stop < t)
    (prevSd : Option ℕ) : dropTurn t (prevSd, some e.1) m =
      some (.ok (.inl (some e.1, rest.head?.map Prod.fst)), m) := by
  obtain ⟨next, hnode, hrest⟩ := h.behind
  rw [dropTurn, bind_of_ok (load_eq hnode), if_neg hnew, ← hrest.head_eq]
  rfl

/-- **The loop takes the old packets out**, wherever they are behind one that is kept. -/
theorem drop_loop (h : Linked m.nodes root (kept ++ e :: rest)) {k : ℕ} (hk : rest.length < k) :
    ∃ m', Prog.loop (dropTurn t) k (some e.1, rest.head?.map Prod.fst) m = some (.ok (), m') ∧
      Linked m'.nodes root (kept ++ e :: rest.filter fun e => t ≤ e.2.stop) ∧
      m'.vars = m.vars ∧ m'.brk = m.brk := by
  obtain ⟨k, rfl⟩ := Nat.exists_eq_add_one_of_ne_zero (Nat.ne_zero_of_lt hk)
  induction rest generalizing m kept e k with
  | nil => exact ⟨m, loop_done rfl, h, rfl, rfl⟩
  | cons e' rest ih =>
    obtain ⟨k, rfl⟩ := Nat.exists_eq_add_one_of_ne_zero
      (show k ≠ 0 by rw [length_cons] at hk; omega)
    have hk' : rest.length < k + 1 := by
      rw [length_cons] at hk
      omega
    by_cases hold : e'.2.stop < t
    · obtain ⟨m₁, hturn, hlinked, hvars, hbrk⟩ := dropTurn_old h hold
      obtain ⟨m', hloop, hlinked', hvars', hbrk'⟩ := ih hlinked k hk'
      refine ⟨m', (loop_next hturn).trans hloop, ?_, hvars'.trans hvars, hbrk'.trans hbrk⟩
      rwa [filter_cons_of_neg (by simpa using hold)]
    · have h' : Linked m.nodes root (kept ++ [e] ++ e' :: rest) := by simpa using h
      obtain ⟨m', hloop, hlinked, hkept⟩ := ih h' k hk'
      refine ⟨m', (loop_next (dropTurn_new h' hold (some e.1))).trans hloop, ?_, hkept⟩
      rw [filter_cons_of_pos (by simpa using hold)]
      simpa using hlinked

/-- The list of packets holds these, and its nodes were given out. -/
def Keeping (m : StatsMemory) (l : List StatsData) : Prop :=
  ∃ l', Linked m.nodes m.vars.sdRoot l' ∧ l'.map Prod.snd = l ∧ ∀ e ∈ l', e.1 < m.brk

@[simp] theorem recordLongest_sdRoot (sd : StatsData) (v : StatsVars) :
    (recordLongest sd v).sdRoot = v.sdRoot := by
  unfold recordLongest
  split <;> rfl

@[simp] theorem recordLongest_counters (sd : StatsData) (v : StatsVars) :
    (recordLongest sd v).counters = v.counters := by
  unfold recordLongest
  split <;> rfl

@[simp] theorem recordLongest_running (sd : StatsData) (v : StatsVars) :
    (recordLongest sd v).running = v.running := by
  unfold recordLongest
  split <;> rfl

/-- The memory when the new packet was put in front. -/
def putFront (sd : StatsData) (m : StatsMemory) : StatsMemory where
  nodes := Function.update m.nodes m.brk (some ⟨sd, m.vars.sdRoot⟩)
  brk := m.brk + 1
  vars := { recordLongest sd m.vars with sdRoot := some m.brk }

theorem dccStatsUpdateCompileTimes_eq (now : ℕ) (sd : StatsData) (m : StatsMemory) :
    dccStatsUpdateCompileTimes now sd m =
      Prog.loop (dropTurn ((now : ℤ) - 120)) (m.brk + 2) (none, some m.brk) (putFront sd m) := by
  rw [putFront, ← recordLongest_sdRoot sd m.vars]
  rfl

variable {l : List StatsData} {sd : StatsData} {now : ℕ}

/-- **A packet that is not old** is kept, and those that are old by now are not. -/
theorem dccStatsUpdateCompileTimes_keeping (h : Keeping m l) (hnew : ¬sd.stop < (now : ℤ) - 120) :
    ∃ m', dccStatsUpdateCompileTimes now sd m = some (.ok (), m') ∧
      Keeping m' (sd :: l.filter fun sd => (now : ℤ) - 120 ≤ sd.stop) ∧
      m'.vars.counters = m.vars.counters ∧ m'.vars.running = m.vars.running := by
  obtain ⟨l', hlinked, rfl, hlt⟩ := h
  have hfresh : m.brk ∉ l'.map Prod.fst := by
    intro hmem
    obtain ⟨e, he, heq⟩ := mem_map.mp hmem
    exact absurd (hlt e he) (by omega)
  have hfront : Linked (putFront sd m).nodes (some m.brk) ([] ++ (m.brk, sd) :: l') :=
    hlinked.push hfresh sd
  have hlen : l'.length ≤ m.brk := hlinked.length_le hlt
  obtain ⟨m', hloop, hlinked', hvars, hbrk⟩ :=
    @drop_loop (putFront sd m) _ [] l' (m.brk, sd) ((now : ℤ) - 120) hfront (m.brk + 1) (by omega)
  refine ⟨m', ?_, ?_, ?_, ?_⟩
  · rw [dccStatsUpdateCompileTimes_eq]
    exact (loop_next (dropTurn_new hfront hnew none)).trans hloop
  · have hroot : m'.vars.sdRoot = some m.brk := congrArg StatsVars.sdRoot hvars
    refine ⟨(m.brk, sd) :: l'.filter _, hroot ▸ hlinked', ?_, ?_⟩
    · rw [map_cons, filter_map]
      rfl
    · rw [hbrk]
      refine forall_mem_cons.mpr ⟨Nat.lt_succ_self _, fun e he => ?_⟩
      exact Nat.lt_succ_of_lt (hlt e (mem_of_mem_filter he))
  · rw [hvars]
    exact recordLongest_counters sd m.vars
  · rw [hvars]
    exact recordLongest_running sd m.vars

/-- **A packet that is old** makes the loop follow a null pointer. -/
theorem dccStatsUpdateCompileTimes_old (m : StatsMemory) (hold : sd.stop < (now : ℤ) - 120) :
    ∃ m', dccStatsUpdateCompileTimes now sd m = some (.error .null, m') := by
  have hnode : (putFront sd m).nodes m.brk = some ⟨sd, m.vars.sdRoot⟩ := Function.update_self ..
  rw [dccStatsUpdateCompileTimes_eq]
  have hturn : ∃ m', dropTurn ((now : ℤ) - 120) (none, some m.brk) (putFront sd m) =
      some (.error .null, m') := by
    rw [dropTurn, bind_of_ok (load_eq hnode), if_pos hold]
    refine ⟨_, assign_bind.trans
      ((bind_of_ok (@free_eq _ _ _ _ ⟨sd, m.vars.sdRoot⟩ ?_)).trans rfl)⟩
    exact hnode
  obtain ⟨m', hturn⟩ := hturn
  exact ⟨m', bind_of_error hturn⟩

end List

/-! ### The rest of a packet -/

/-- The types of the jobs that tax the processor, which are in the running total. -/
def StatsE.taxing : StatsE → Bool
  | compileOk | compileError | compileTimeout | cliDisconn => true
  | _ => false

namespace Packet

/-- The type of a packet, if there is such a type. -/
def kind (p : Packet) : Option StatsE := StatsE.ofNat? p.sd.type

/-- Is the packet one about a job that was done? -/
def isOk (p : Packet) : Bool := p.kind = some .compileOk

/-- Is the job in the running total? -/
def isTaxing (p : Packet) : Bool := p.kind.any StatsE.taxing

end Packet

section Rest

variable {m : StatsMemory}

theorem updateRunningTotal_eq (now : ℕ) (m : StatsMemory) :
    ∃ running, updateRunningTotal now 1 m =
      some (if IsInt (m.vars.running.total + 1) then .ok () else .error .overflow,
        setRunning m running) ∧
      (IsInt (m.vars.running.total + 1) → running.total = m.vars.running.total + 1) := by
  obtain ⟨running, hrun, htotal⟩ := dccStatsUpdateRunningTotal_total now 1 m.vars.running
  have hzoom := @Prog.zoom_eq StatsMemory Fault (Fin 300) m _ RunningTotal (fun m => m.vars.running)
    setRunning _ _ hrun
  refine ⟨running, ?_, htotal⟩
  by_cases hint : IsInt (m.vars.running.total + 1)
  · rw [if_pos hint] at hzoom ⊢
    exact (bind_of_ok hzoom).trans rfl
  · rw [if_neg hint] at hzoom ⊢
    exact bind_of_error hzoom

end Rest

/-! ### Runs -/

/-- The packets about jobs that were done, from the last to the first. -/
def jobsDone (packets : List Packet) : List StatsData :=
  ((packets.filter Packet.isOk).map Packet.sd).reverse

/-- What the clock showed when the list was cleaned up the last time, less two minutes. -/
def horizon (packets : List Packet) : ℤ :=
  ((packets.filter Packet.isOk).getLast?.map fun p => (p.now : ℤ) - 120).getD (-120)

/-- How many packets there are of a type. -/
def countOf (packets : List Packet) (e : StatsE) : ℕ := packets.countP fun p => p.kind = some e

/-- The memory after these packets. -/
structure Processed (packets : List Packet) (m : StatsMemory) : Prop where
  counters : ∀ e, m.vars.counters e = countOf packets e
  total : m.vars.running.total = packets.countP Packet.isTaxing
  list : Keeping m ((jobsDone packets).filter fun sd => horizon packets ≤ sd.stop)

theorem processed_start : Processed [] .start where
  counters _ := rfl
  total := rfl
  list := ⟨[], rfl, rfl, forall_mem_nil _⟩

/-- What a packet must be like, after others, to be processed as it should be. -/
structure Sound (packets : List Packet) (p : Packet) : Prop where
  /-- It is not taken for one of a type that does not exist. -/
  type : p.sd.type ≠ statsEnumMax
  /-- It is not old already. -/
  stop : p.isOk = true → (p.now : ℤ) - 120 ≤ p.sd.stop
  /-- It can be counted. -/
  count : ∀ e, p.kind = some e → countOf packets e + 1 < 2 ^ 31
  /-- It can be added to the total. -/
  total : p.isTaxing = true → packets.countP Packet.isTaxing + 1 < 2 ^ 31

section Step

variable {packets : List Packet} {p : Packet} {m : StatsMemory}

theorem countOf_append (e : StatsE) : countOf (packets ++ [p]) e =
    countOf packets e + if p.kind = some e then 1 else 0 := by
  by_cases h : p.kind = some e <;> simp [countOf, h]

theorem jobsDone_append_of_not (h : p.isOk = false) :
    jobsDone (packets ++ [p]) = jobsDone packets ∧ horizon (packets ++ [p]) = horizon packets := by
  simp [jobsDone, horizon, h]

/-- After a job that was done, the list is what is left of it, with the new packet. -/
theorem filter_jobsDone_append (h : p.isOk = true) (hclock : horizon packets ≤ (p.now : ℤ) - 120)
    (hstop : (p.now : ℤ) - 120 ≤ p.sd.stop) :
    (jobsDone (packets ++ [p])).filter (fun sd => horizon (packets ++ [p]) ≤ sd.stop) =
      p.sd :: ((jobsDone packets).filter fun sd => horizon packets ≤ sd.stop).filter
        fun sd => (p.now : ℤ) - 120 ≤ sd.stop := by
  have hjobs : jobsDone (packets ++ [p]) = p.sd :: jobsDone packets := by simp [jobsDone, h]
  have hhorizon : horizon (packets ++ [p]) = (p.now : ℤ) - 120 := by simp [horizon, h]
  rw [hjobs, hhorizon, filter_cons, if_pos (decide_eq_true hstop), filter_filter]
  refine congrArg (p.sd :: ·) (filter_congr fun sd _ => ?_)
  grind

/-- **What the `switch` does**: nothing, or the total is updated, or the list is too. -/
theorem statsSwitch_cases (p : Packet) :
    (p.isTaxing = false ∧ p.isOk = false ∧ statsSwitch p.now p.now' p.sd p.kind = pure ()) ∨
    (p.isTaxing = true ∧ p.isOk = false ∧
      statsSwitch p.now p.now' p.sd p.kind = updateRunningTotal p.now' 1) ∨
    (p.isTaxing = true ∧ p.isOk = true ∧ statsSwitch p.now p.now' p.sd p.kind = (do
      dccStatsUpdateCompileTimes p.now p.sd
      updateRunningTotal p.now' 1)) := by
  unfold Packet.isTaxing Packet.isOk
  rcases p.kind with _ | e
  · exact .inl ⟨rfl, rfl, rfl⟩
  · cases e <;> simp [statsSwitch, StatsE.taxing]

theorem isInt_succ (n : ℕ) : IsInt ((n : ℤ) + 1) ↔ n + 1 < 2 ^ 31 := by
  unfold IsInt
  omega

theorem Keeping.setRunning {l : List StatsData} (h : Keeping m l) (running : RunningTotal) :
    Keeping (setRunning m running) l := h

/-- The `switch`, for a packet that is processed as it should be. -/
theorem statsSwitch_sound (h : Processed packets m)
    (hclock : p.isOk = true → horizon packets ≤ (p.now : ℤ) - 120) (hsound : Sound packets p) :
    ∃ m', statsSwitch p.now p.now' p.sd p.kind m = some (.ok (), m') ∧
      m'.vars.counters = m.vars.counters ∧
      m'.vars.running.total = (packets ++ [p]).countP Packet.isTaxing ∧
      Keeping m' ((jobsDone (packets ++ [p])).filter fun sd =>
        horizon (packets ++ [p]) ≤ sd.stop) := by
  rcases statsSwitch_cases p with ⟨htax, hok, hswitch⟩ | ⟨htax, hok, hswitch⟩ | ⟨htax, hok, hswitch⟩
  · obtain ⟨hjobs, hhorizon⟩ := @jobsDone_append_of_not packets p hok
    rw [hswitch, hjobs, hhorizon]
    exact ⟨m, rfl, rfl, by simp [h.total, htax], h.list⟩
  · obtain ⟨hjobs, hhorizon⟩ := @jobsDone_append_of_not packets p hok
    have hint : IsInt (m.vars.running.total + 1) := by
      rw [h.total, isInt_succ]
      exact hsound.total htax
    obtain ⟨running, hrun, htotal⟩ := updateRunningTotal_eq p.now' m
    rw [if_pos hint] at hrun
    rw [hswitch, hjobs, hhorizon]
    refine ⟨_, hrun, rfl, ?_, h.list.setRunning running⟩
    exact (htotal hint).trans (by simp [h.total, htax])
  · obtain ⟨m₁, hlist, hkeeping, hcounters, hrunning⟩ :=
      @dccStatsUpdateCompileTimes_keeping m _ p.sd p.now h.list (by have := hsound.stop hok; omega)
    have hint : IsInt (m₁.vars.running.total + 1) := by
      rw [hrunning, h.total, isInt_succ]
      exact hsound.total htax
    obtain ⟨running, hrun, htotal⟩ := updateRunningTotal_eq p.now' m₁
    rw [if_pos hint] at hrun
    rw [hswitch, filter_jobsDone_append hok (hclock hok) (hsound.stop hok)]
    refine ⟨_, (bind_of_ok hlist).trans hrun, hcounters, ?_, hkeeping.setRunning running⟩
    exact (htotal hint).trans (by simp [hrunning, h.total, htax])

theorem ofNat?_eq_none_iff {n : ℕ} : StatsE.ofNat? n = none ↔ statsEnumMax ≤ n := by
  rcases n with _ | _ | _ | _ | _ | _ | _ | _ | n <;> simp [StatsE.ofNat?, statsEnumMax]

theorem dccStatsProcess_of_some {e : StatsE} (h : p.kind = some e) :
    dccStatsProcess p.now p.now' p.sd = (do
      statsSwitch p.now p.now' p.sd p.kind
      countPacket p.sd.type) := by
  have hle : ¬statsEnumMax ≤ p.sd.type := fun hge => by
    rw [Packet.kind, ofNat?_eq_none_iff.mpr hge] at h
    cases h
  exact if_neg (by omega)

theorem countPacket_eq {e : StatsE} (h : p.kind = some e) : countPacket p.sd.type m =
    if IsInt (m.vars.counters e + 1) then some (.ok (), setCounter e (m.vars.counters e + 1) m)
    else some (.error .overflow, m) := by
  rw [Packet.kind] at h
  rw [countPacket, h]
  dsimp only
  rw [get_bind]
  split <;> rfl

variable (h : Processed packets m)
include h

/-- **A packet that is processed as it should be.** -/
theorem process_sound
    (hclock : p.isOk = true → horizon packets ≤ (p.now : ℤ) - 120) (hsound : Sound packets p) :
    ∃ m', dccStatsProcess p.now p.now' p.sd m = some (.ok (), m') ∧
      Processed (packets ++ [p]) m' := by
  obtain ⟨m₁, hswitch, hcounters, htotal, hlist⟩ := statsSwitch_sound h hclock hsound
  cases hkind : p.kind with
  | none =>
    have hbad : p.sd.type > statsEnumMax :=
      lt_of_le_of_ne (ofNat?_eq_none_iff.mp hkind) hsound.type.symm
    rw [hkind] at hswitch
    obtain ⟨-, rfl⟩ := Prod.mk.inj (Option.some.inj hswitch)
    refine ⟨m, ?_, fun e => ?_, htotal, hlist⟩
    · rw [dccStatsProcess, if_pos hbad]
      rfl
    · rw [h.counters, countOf_append, hkind]
      rfl
  | some e =>
    have hint : IsInt (m₁.vars.counters e + 1) := by
      rw [hcounters, h.counters, isInt_succ]
      exact hsound.count e hkind
    refine ⟨setCounter e (m₁.vars.counters e + 1) m₁, ?_, fun e' => ?_, htotal, hlist⟩
    · rw [dccStatsProcess_of_some hkind, bind_of_ok hswitch, countPacket_eq hkind, if_pos hint]
    · show Function.update m₁.vars.counters e (m₁.vars.counters e + 1) e' = _
      rw [countOf_append, hkind, Function.update_apply, hcounters, h.counters, h.counters]
      by_cases he : e' = e
      · simp [he]
      · simp [he, Ne.symm he]

/-- The `switch` only succeeds if the packet is as it should be. -/
theorem sound_of_statsSwitch {m₁ : StatsMemory}
    (hrun : statsSwitch p.now p.now' p.sd p.kind m = some (.ok (), m₁)) :
    (p.isOk = true → (p.now : ℤ) - 120 ≤ p.sd.stop) ∧
      (p.isTaxing = true → packets.countP Packet.isTaxing + 1 < 2 ^ 31) ∧
      m₁.vars.counters = m.vars.counters := by
  have hadd : ∀ m₀ : StatsMemory, m₀.vars.running = m.vars.running →
      updateRunningTotal p.now' 1 m₀ = some (.ok (), m₁) →
      packets.countP Packet.isTaxing + 1 < 2 ^ 31 ∧ m₁.vars.counters = m₀.vars.counters := by
    intro m₀ hm0 hrun
    obtain ⟨running, heq, -⟩ := updateRunningTotal_eq p.now' m₀
    rw [heq, hm0, h.total] at hrun
    split at hrun
    · case isTrue hint =>
      obtain ⟨-, rfl⟩ := Prod.mk.inj (Option.some.inj hrun)
      exact ⟨(isInt_succ _).mp hint, rfl⟩
    · cases hrun
  rcases statsSwitch_cases p with ⟨htax, hok, hswitch⟩ | ⟨htax, hok, hswitch⟩ | ⟨htax, hok, hswitch⟩
  · rw [hswitch] at hrun
    obtain ⟨-, rfl⟩ := Prod.mk.inj (Option.some.inj hrun)
    simp [htax, hok]
  · rw [hswitch] at hrun
    obtain ⟨hlt, hcounters⟩ := hadd m rfl hrun
    exact ⟨by simp [hok], fun _ => hlt, hcounters⟩
  · rw [hswitch] at hrun
    obtain ⟨_, m₀, hlist, hrun⟩ := bind_eq_ok_iff.mp hrun
    by_cases hstop : p.sd.stop < (p.now : ℤ) - 120
    · obtain ⟨_, herr⟩ := dccStatsUpdateCompileTimes_old m hstop
      rw [herr] at hlist
      cases hlist
    · obtain ⟨m₀', hlist', -, hcounters0, hrunning0⟩ :=
        dccStatsUpdateCompileTimes_keeping h.list hstop
      obtain ⟨-, rfl⟩ := ok_unique hlist hlist'
      obtain ⟨hlt, hcounters⟩ := hadd m₀ hrunning0 hrun
      exact ⟨fun _ => not_lt.mp hstop, fun _ => hlt, hcounters.trans hcounters0⟩

/-- **A packet that is processed at all** is as it should be. -/
theorem sound_of_process {m' : StatsMemory}
    (hrun : dccStatsProcess p.now p.now' p.sd m = some (.ok (), m')) : Sound packets p := by
  cases hkind : p.kind with
  | none =>
    refine ⟨fun htype => ?_, fun hok => ?_, fun e he => ?_, fun htax => ?_⟩
    · have hgood : ¬p.sd.type > statsEnumMax := by omega
      rw [dccStatsProcess, if_neg hgood, htype] at hrun
      cases hrun
    · simp [Packet.isOk, hkind] at hok
    · rw [hkind] at he
      cases he
    · simp [Packet.isTaxing, hkind] at htax
  | some e =>
    rw [dccStatsProcess_of_some hkind] at hrun
    obtain ⟨_, m₁, hswitch, hcount⟩ := bind_eq_ok_iff.mp hrun
    obtain ⟨hstop, htotal, hcounters⟩ := sound_of_statsSwitch h hswitch
    rw [countPacket_eq hkind, hcounters, h.counters] at hcount
    split at hcount
    · case isTrue hint =>
      refine ⟨fun htype => ?_, hstop, fun e' he' => ?_, htotal⟩
      · rw [Packet.kind, htype] at hkind
        cases hkind
      · obtain rfl := Option.some.inj (hkind.symm.trans he')
        exact (isInt_succ _).mp hint
    · cases hcount

end Step

/-- The clock does not go back. -/
def ClockMonotone (packets : List Packet) : Prop :=
  (packets.flatMap fun p => [p.now, p.now']).Pairwise (· ≤ ·)

instance (packets : List Packet) : Decidable (ClockMonotone packets) :=
  inferInstanceAs (Decidable (List.Pairwise _ _))

/-- **Everything is as it should be**, after each of the packets: they are counted by type,
and after one about a job that was done, the list holds those that are not older than two
minutes. -/
def StatsExact (packets : List Packet) : Prop :=
  ∀ done rest, packets = done ++ rest → ∃ m, processAll done .start = some (.ok (), m) ∧
    (∀ e, m.vars.counters e = countOf done e) ∧
    ∀ p, done.getLast? = some p → p.isOk = true → ∃ l, Linked m.nodes m.vars.sdRoot l ∧
      l.map Prod.snd = (jobsDone done).filter fun sd => (p.now : ℤ) - 120 ≤ sd.stop

/-- All packets are as they should be. -/
structure AllSound (packets : List Packet) : Prop where
  /-- None has the number of the types for its type. -/
  type : ∀ p ∈ packets, p.sd.type ≠ statsEnumMax
  /-- None is old already when it comes. -/
  stop : ∀ p ∈ packets, p.isOk = true → (p.now : ℤ) - 120 ≤ p.sd.stop
  /-- There are not too many of any type. -/
  count : ∀ e, countOf packets e < 2 ^ 31
  /-- There are not too many jobs. -/
  total : packets.countP Packet.isTaxing < 2 ^ 31

section Runs

variable {packets rest : List Packet} {p : Packet}

theorem ClockMonotone.of_append (h : ClockMonotone (packets ++ rest)) : ClockMonotone packets := by
  rw [ClockMonotone, flatMap_append] at h
  exact (pairwise_append.mp h).1

/-- The list was cleaned up before, not later. -/
theorem ClockMonotone.horizon_le (h : ClockMonotone (packets ++ [p])) :
    horizon packets ≤ (p.now : ℤ) - 120 := by
  unfold horizon
  cases hlast : (packets.filter Packet.isOk).getLast? with
  | none =>
    rw [Option.map_none, Option.getD_none]
    omega
  | some q =>
    have hq : q ∈ packets := mem_of_mem_filter (mem_of_getLast? hlast)
    rw [ClockMonotone, flatMap_append] at h
    have hle := (pairwise_append.mp h).2.2 q.now (mem_flatMap.mpr ⟨q, hq, by simp⟩)
      p.now (by simp)
    rw [Option.map_some, Option.getD_some]
    omega

theorem AllSound.of_append (h : AllSound (packets ++ rest)) : AllSound packets where
  type p hp := h.type p (mem_append_left _ hp)
  stop p hp := h.stop p (mem_append_left _ hp)
  count e := lt_of_le_of_lt (by simp [countOf]) (h.count e)
  total := lt_of_le_of_lt (by simp) h.total

theorem allSound_append_iff : AllSound (packets ++ [p]) ↔ AllSound packets ∧ Sound packets p := by
  constructor
  · intro h
    have hp : p ∈ packets ++ [p] := by simp
    refine ⟨h.of_append, h.type p hp, h.stop p hp, fun e he => ?_, fun htax => ?_⟩
    · have hcount := h.count e
      rwa [countOf_append, if_pos he] at hcount
    · have htotal := h.total
      simpa [htax] using htotal
  · rintro ⟨h, hp⟩
    refine ⟨?_, ?_, fun e => ?_, ?_⟩
    · exact forall_mem_append.mpr ⟨h.type, forall_mem_singleton.mpr hp.type⟩
    · exact forall_mem_append.mpr ⟨h.stop, forall_mem_singleton.mpr hp.stop⟩
    · rw [countOf_append]
      split
      · case isTrue he => exact hp.count e he
      · exact h.count e
    · cases htax : p.isTaxing with
      | true => simpa [htax] using hp.total htax
      | false => simpa [htax] using h.total

/-- **Packets that are as they should be** are processed. -/
theorem processAll_processed (hclock : ClockMonotone packets) (h : AllSound packets) :
    ∃ m, processAll packets .start = some (.ok (), m) ∧ Processed packets m := by
  induction packets using List.reverseRecOn with
  | nil => exact ⟨_, rfl, processed_start⟩
  | append_singleton packets p ih =>
    obtain ⟨hsound, hp⟩ := allSound_append_iff.mp h
    obtain ⟨m, hrun, hm⟩ := ih hclock.of_append hsound
    obtain ⟨m', hstep, hm'⟩ := process_sound hm (fun _ => hclock.horizon_le) hp
    exact ⟨m', (forEach_append hrun).trans ((bind_of_ok hstep).trans rfl), hm'⟩

theorem horizon_of_getLast? (hlast : packets.getLast? = some p) (hok : p.isOk = true) :
    horizon packets = (p.now : ℤ) - 120 := by
  obtain ⟨init, rfl⟩ := getLast?_eq_some_iff.mp hlast
  simp [horizon, hok]

/-- **The statistics are right exactly if** no packet has the number of the types for its
type, none is old already when it comes, and the counts are not too large. -/
theorem statsExact_iff (hclock : ClockMonotone packets) :
    StatsExact packets ↔ AllSound packets := by
  constructor
  · intro h
    induction packets using List.reverseRecOn with
    | nil => exact ⟨nofun, nofun, fun _ => Nat.two_pow_pos 31, Nat.two_pow_pos 31⟩
    | append_singleton packets p ih =>
      have hbefore : StatsExact packets := fun done rest hdone =>
        h done (rest ++ [p]) (by rw [hdone, append_assoc])
      have hsound := ih hclock.of_append hbefore
      obtain ⟨m, hrun, hm⟩ := processAll_processed hclock.of_append hsound
      obtain ⟨m', hall, -⟩ := h (packets ++ [p]) [] (append_nil _).symm
      rw [processAll, forEach_append hrun] at hall
      obtain ⟨_, _, hstep, -⟩ := bind_eq_ok_iff.mp hall
      exact allSound_append_iff.mpr ⟨hsound, sound_of_process hm hstep⟩
  · rintro h done rest rfl
    obtain ⟨m, hrun, hm⟩ := processAll_processed hclock.of_append h.of_append
    refine ⟨m, hrun, hm.counters, fun p hlast hok => ?_⟩
    obtain ⟨l, hlinked, hl, -⟩ := hm.list
    rw [horizon_of_getLast? hlast hok] at hl
    exact ⟨l, hlinked, hl⟩

end Runs

/-- A packet about a job that was done, at these times. -/
def jobPacket (stop : ℤ) (now : ℕ) : Packet := ⟨⟨3, stop, 5, lit "a.c", lit "cc"⟩, now, now⟩

theorem statsExact_iff_three :
    StatsExact [jobPacket 1000 1000, jobPacket 1100 1110, jobPacket 1200 1210] := by
  refine (statsExact_iff (by decide)).mpr ⟨by decide, by decide, fun e => ?_, by decide⟩
  exact countP_le_length.trans_lt (by decide)

/-- A packet whose type is the number of the types is counted behind the array. -/
theorem processAll_outside :
    processAll [⟨⟨8, 0, 0, [], []⟩, 0, 0⟩] .start = some (.error .bounds, .start) := rfl

end Distcc
