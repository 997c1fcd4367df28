import Distcc.Base.Prog
import Distcc.Base.Ring
import Mathlib.Algebra.BigOperators.Group.List.Basic
import Mathlib.Algebra.Order.Group.Unbundled.Abs
import Mathlib.Data.List.Chain

/-!
# How much was compiled

Model of `dcc_stats_update_running_total` and `dcc_stats_get_compile_totals` in
`src/stats.c`. The server keeps, for the last 300 slots of three seconds each, how many
jobs there were until the end of the slot, and tells the differences. The ring is filled
when the next call comes: the slots that went by since the last call get the total, and if
that is too long ago, all slots do.

What the ring has to hold is the total up to the end of each slot
(`totalUpTo`). Every call keeps to that (`Tracks`), but for one case: a call
that comes 300 slots after the last one, and not more than 900 seconds. The slot is the
same, so nothing is filled, and the ring is one turn behind. Without such calls the
differences are right (`dccStatsGetCompileTotals_exact`).
-/

namespace Distcc

open List Prog

/-! ### The functions -/

/-- Is the result an `int`? -/
def IsInt (x : ℤ) : Prop := -2 ^ 31 ≤ x ∧ x < 2 ^ 31
deriving Decidable

instance neZeroSlots : NeZero 300 := ⟨by decide⟩

/-- The static variables of `dcc_stats_update_running_total`, and
`dcc_stats.compile_timeseries`. -/
structure RunningTotal where
  prevSlot : Fin 300 := 0
  last : ℕ := 0
  total : ℤ := 0
  cts : Fin 300 → ℤ := fun _ => 0

/-- `(now / 3) % 300` -/
def slotOf (now : ℕ) : Fin 300 := Fin.ofNat 300 (now / 3)

/-- The last call was more than 15 minutes ago: all slots are set. -/
def resetSlots (now : ℕ) : Prog RunningTotal Fault Unit := do
  let st ← Prog.get
  if st.last + 900 < now then
    Prog.modify fun st => { st with cts := fun _ => st.total, prevSlot := slotOf now }
  else pure ()

/-- A turn of the loop that sets the slots since the last call. -/
def fillTurn (curSlot i : Fin 300) : Prog RunningTotal Fault (Fin 300 ⊕ Unit) :=
  if i ≠ curSlot then do
    Prog.modify fun st => { st with cts := Function.update st.cts i st.total }
    pure (.inl (i + 1))
  else pure (.inr ())

/-- The slot is another one than at the last call: those in between are set. -/
def fillSlots (now : ℕ) : Prog RunningTotal Fault Unit := do
  let st ← Prog.get
  if st.prevSlot ≠ slotOf now then do
    Prog.loop (fillTurn (slotOf now)) 300 st.prevSlot
    Prog.modify fun st => { st with prevSlot := slotOf now }
  else pure ()

/-- `dcc_stats_update_running_total`, at the time `now`. -/
def dccStatsUpdateRunningTotal (now : ℕ) (increment : ℤ) : Prog RunningTotal Fault (Fin 300) := do
  resetSlots now
  fillSlots now
  let st ← Prog.get
  if IsInt (st.total + increment) then do
    Prog.modify fun st => { st with total := st.total + increment, last := now }
    pure (slotOf now)
  else Prog.fail .overflow

/-- `x - y` -/
def minus (x y : ℤ) : Prog RunningTotal Fault ℤ :=
  if IsInt (x - y) then pure (x - y) else Prog.fail .overflow

/-- `dcc_stats_get_compile_totals`, at the time `now`. -/
def dccStatsGetCompileTotals (now : ℕ) : Prog RunningTotal Fault (ℤ × ℤ × ℤ) := do
  let curSlot ← dccStatsUpdateRunningTotal now 0
  let st ← Prog.get
  let ct0 ← minus (st.cts (curSlot + 299)) (st.cts (curSlot + 280))
  let ct1 ← minus (st.cts (curSlot + 299)) (st.cts (curSlot + 200))
  let ct2 ← minus (st.cts (curSlot + 299)) (st.cts (curSlot + 1))
  pure (ct0, ct1, ct2)

/-! ### Calls -/

/-- A call of one of the two functions. -/
inductive TotalCall
  /-- `dcc_stats_update_running_total` -/
  | update (increment : ℤ)
  /-- `dcc_stats_get_compile_totals` -/
  | totals
  deriving DecidableEq, Repr

/-- What a call records. -/
def TotalCall.increment : TotalCall → ℤ
  | update increment => increment
  | totals => 0

/-- A call at some time. -/
def TotalCall.perform (now : ℕ) : TotalCall → Prog RunningTotal Fault Unit
  | update increment => do
    let _ ← dccStatsUpdateRunningTotal now increment
    pure ()
  | totals => do
    let _ ← dccStatsGetCompileTotals now
    pure ()

/-- Calls with the times at which they are made, one after the other. -/
def performAll (calls : List (ℕ × TotalCall)) : Prog RunningTotal Fault Unit :=
  Prog.forEach (fun c => c.2.perform c.1) calls

/-- The total increment that was recorded in these slots. -/
def recorded (calls : List (ℕ × TotalCall)) (slots : ℕ → Bool) : ℤ :=
  ((calls.filter fun c => slots (c.1 / 3)).map fun c => c.2.increment).sum

/-- What was recorded until the end of a slot. -/
def totalUpTo (calls : List (ℕ × TotalCall)) (s : ℕ) : ℤ := recorded calls fun t => t ≤ s

section Recorded

variable {calls : List (ℕ × TotalCall)} {slots : ℕ → Bool}

theorem recorded_cons (c : ℕ × TotalCall) : recorded (c :: calls) slots =
    (if slots (c.1 / 3) then c.2.increment else 0) + recorded calls slots := by
  by_cases hc : slots (c.1 / 3) <;> simp [recorded, hc]

/-- A range of slots is a difference of two totals. -/
theorem recorded_eq_sub {lo hi : ℕ} (h : lo ≤ hi) :
    recorded calls (fun t => lo + 1 ≤ t ∧ t ≤ hi) = totalUpTo calls hi - totalUpTo calls lo := by
  induction calls with
  | nil => rfl
  | cons c calls ih =>
    unfold totalUpTo at ih ⊢
    rw [recorded_cons, recorded_cons, recorded_cons, ih]
    simp only [decide_eq_true_eq]
    split_ifs <;> omega

/-- All slots, if the calls were made until then. -/
theorem totalUpTo_eq_sum {s : ℕ} (h : ∀ c ∈ calls, c.1 / 3 ≤ s) :
    totalUpTo calls s = (calls.map fun c => c.2.increment).sum := by
  have hall : (calls.filter fun c => decide (c.1 / 3 ≤ s)) = calls :=
    filter_eq_self.mpr fun c hc => decide_eq_true (h c hc)
  rw [totalUpTo, recorded, hall]

/-- A call in a later slot does not count. -/
theorem totalUpTo_append {s : ℕ} {c : ℕ × TotalCall} (h : s < c.1 / 3) :
    totalUpTo (calls ++ [c]) s = totalUpTo calls s := by
  have hlate : decide (c.1 / 3 ≤ s) = false := decide_eq_false (by omega)
  simp [totalUpTo, recorded, hlate]

/-- What is recorded is not more than all of it. -/
theorem abs_recorded_le : |recorded calls slots| ≤ (calls.map fun c => |c.2.increment|).sum := by
  induction calls with
  | nil => exact le_rfl
  | cons c calls ih =>
    rw [recorded_cons, map_cons, sum_cons]
    refine (abs_add_le _ _).trans (add_le_add ?_ ih)
    split
    · exact le_rfl
    · rw [abs_zero]
      exact abs_nonneg _

theorem sum_eq_recorded :
    (calls.map fun c => c.2.increment).sum = recorded calls fun _ => true := by
  simp [recorded]

end Recorded

/-! ### The ring -/

/-- The ring is up to date for a call at the time `now`. -/
structure RunningTotal.UpToDate (st : RunningTotal) (calls : List (ℕ × TotalCall)) (now : ℕ) :
    Prop where
  prevSlot : st.prevSlot = slotOf now
  total : st.total = (calls.map fun c => c.2.increment).sum
  ring : RingHolds st.cts (totalUpTo calls) (now / 3)
  before : ∀ c ∈ calls, c.1 ≤ now

/-- A call comes 300 slots after another one, but not more than 900 seconds. -/
def Behind (last now : ℕ) : Prop := now / 3 = last / 3 + 300 ∧ now ≤ last + 900
deriving Decidable

section Ring

variable {calls : List (ℕ × TotalCall)} {now : ℕ} {st : RunningTotal}

/-- **The loop over the slots** takes the ring to the slot of the call. -/
theorem fill_loop {f : ℕ → ℤ} {s d k : ℕ} (hd : d < 300) (hk : d < k)
    (hring : RingHolds st.cts f s) (hf : ∀ t, s ≤ t → f t = st.total) :
    ∃ cts, Prog.loop (fillTurn (Fin.ofNat 300 (s + d))) k (Fin.ofNat 300 s) st =
      some (.ok (), { st with cts := cts }) ∧ RingHolds cts f (s + d) := by
  obtain ⟨k, rfl⟩ := Nat.exists_eq_add_one_of_ne_zero (Nat.ne_zero_of_lt hk)
  induction d generalizing s k st with
  | zero =>
    refine ⟨st.cts, loop_done ?_, hring⟩
    rw [fillTurn, if_neg (fun hne => hne rfl)]
    rfl
  | succ d ih =>
    have hne : Fin.ofNat 300 s ≠ Fin.ofNat 300 (s + (d + 1)) := fun heq => by
      have := eq_of_ofNat_eq (by omega) (by omega) heq
      omega
    have hturn : fillTurn (Fin.ofNat 300 (s + (d + 1))) (Fin.ofNat 300 s) st =
        some (.ok (.inl (Fin.ofNat 300 (s + 1))),
          { st with cts := Function.update st.cts (Fin.ofNat 300 s) st.total }) := by
      rw [fillTurn, if_pos hne, modify_bind, ofNat_add_one]
      rfl
    have hpush := hring.push
    rw [hf s le_rfl] at hpush
    obtain ⟨k, rfl⟩ := Nat.exists_eq_add_one_of_ne_zero (show k ≠ 0 by omega)
    have hmore := @ih { st with cts := Function.update st.cts (Fin.ofNat 300 s) st.total } (s + 1)
      (by omega) hpush (fun t ht => hf t (by omega)) k (by omega)
    rw [loop_next hturn]
    rwa [Nat.add_assoc, Nat.add_comm 1 d] at hmore

theorem fillSlots_of_eq (h : st.prevSlot = slotOf now) : fillSlots now st = some (.ok (), st) := by
  rw [fillSlots, get_bind, if_neg (fun hne => hne h)]
  rfl

/-- The ring is filled up to the slot of the call. -/
theorem fillSlots_upToDate {last : ℕ} (h : st.UpToDate calls last) (hle : last ≤ now)
    (hnear : now / 3 < last / 3 + 300) :
    ∃ st', fillSlots now st = some (.ok (), st') ∧ st'.UpToDate calls now ∧ st'.last = st.last := by
  have hbefore : ∀ c ∈ calls, c.1 ≤ now := fun c hc => (h.before c hc).trans hle
  have hf : ∀ t, last / 3 ≤ t → totalUpTo calls t = st.total := fun t ht =>
    (totalUpTo_eq_sum fun c hc => (Nat.div_le_div_right (h.before c hc)).trans ht).trans
      h.total.symm
  obtain ⟨d, hd⟩ : ∃ d, now / 3 = last / 3 + d :=
    Nat.exists_eq_add_of_le (Nat.div_le_div_right hle)
  by_cases hslot : st.prevSlot = slotOf now
  · -- the same slot, as it is near
    have hsame : last / 3 = now / 3 := by
      refine eq_of_ofNat_eq (n := 300) (by omega) hnear ?_
      exact h.prevSlot.symm.trans hslot
    exact ⟨st, fillSlots_of_eq hslot, ⟨hslot, h.total, hsame ▸ h.ring, hbefore⟩, rfl⟩
  · obtain ⟨cts, hloop, hring⟩ := @fill_loop st _ _ d 300 (by omega) (by omega) h.ring hf
    rw [← hd] at hloop hring
    refine ⟨{ st with cts := cts, prevSlot := slotOf now }, ?_, ⟨rfl, h.total, hring, hbefore⟩, rfl⟩
    rw [fillSlots, get_bind, if_pos hslot, h.prevSlot]
    exact (bind_of_ok hloop).trans rfl

/-- All slots are set, as everything was recorded before them. -/
theorem resetSlots_upToDate (hold : st.last + 900 < now)
    (htotal : st.total = (calls.map fun c => c.2.increment).sum)
    (hbefore : ∀ c ∈ calls, c.1 ≤ st.last) :
    ∃ st', resetSlots now st = some (.ok (), st') ∧ st'.UpToDate calls now := by
  refine ⟨{ st with cts := fun _ => st.total, prevSlot := slotOf now }, ?_, rfl, htotal, ?_, ?_⟩
  · rw [resetSlots, get_bind, if_pos hold]
    rfl
  · refine ringHolds_const fun s _ hs => (totalUpTo_eq_sum fun c hc => ?_).trans htotal.symm
    have := hbefore c hc
    omega
  · exact fun c hc => (hbefore c hc).trans (by omega)

/-- What has to hold of the variables for the next call to be counted right: either it is
the first one, or the ring was up to date at the last one, and is not behind now. -/
def RunningTotal.Follows (st : RunningTotal) (calls : List (ℕ × TotalCall)) (now : ℕ) : Prop :=
  (calls = [] ∧ st.last = 0 ∧ st.total = 0 ∧ 900 < now) ∨
    (st.UpToDate calls st.last ∧ st.last ≤ now ∧ ¬Behind st.last now)

/-- **The ring is brought up to date** by a call. -/
theorem bring_upToDate (h : st.Follows calls now) :
    ∃ st₁ st₂, resetSlots now st = some (.ok (), st₁) ∧
    fillSlots now st₁ = some (.ok (), st₂) ∧ st₂.UpToDate calls now := by
  by_cases hold : st.last + 900 < now
  · have htotal : st.total = (calls.map fun c => c.2.increment).sum ∧
        ∀ c ∈ calls, c.1 ≤ st.last := by
      rcases h with ⟨rfl, -, htotal, -⟩ | ⟨h, -⟩
      · exact ⟨htotal, forall_mem_nil _⟩
      · exact ⟨h.total, h.before⟩
    obtain ⟨st', hrun, hst'⟩ := resetSlots_upToDate hold htotal.1 htotal.2
    exact ⟨st', st', hrun, fillSlots_of_eq hst'.prevSlot, hst'⟩
  · rcases h with ⟨-, hlast, -, hnow⟩ | ⟨h, hle, hbehind⟩
    · omega
    · have hnear : now / 3 < st.last / 3 + 300 := by
        unfold Behind at hbehind
        omega
      obtain ⟨st', hrun, hst', -⟩ := fillSlots_upToDate h hle hnear
      refine ⟨st, st', ?_, hrun, hst'⟩
      rw [resetSlots, get_bind, if_neg hold]
      rfl

/-- **A call is counted.** -/
theorem dccStatsUpdateRunningTotal_eq (h : st.Follows calls now) {call : TotalCall}
    (hint : IsInt ((calls ++ [(now, call)]).map fun c => c.2.increment).sum) :
    ∃ st', dccStatsUpdateRunningTotal now call.increment st = some (.ok (slotOf now), st') ∧
      st'.UpToDate (calls ++ [(now, call)]) now ∧ st'.last = now := by
  obtain ⟨st₁, st₂, hreset, hfill, hst2⟩ := bring_upToDate h
  have hsum : ((calls ++ [(now, call)]).map fun c => c.2.increment).sum =
      st₂.total + call.increment := by simp [hst2.total]
  refine ⟨{ st₂ with total := st₂.total + call.increment, last := now }, ?_, ?_, rfl⟩
  · rw [dccStatsUpdateRunningTotal, bind_of_ok hreset, bind_of_ok hfill, get_bind,
      if_pos (hsum ▸ hint)]
    rfl
  · refine ⟨hst2.prevSlot, hsum.symm, hst2.ring.congr fun s hs => ?_, ?_⟩
    · exact (totalUpTo_append hs).symm
    · intro c hc
      rcases mem_append.mp hc with hc | hc
      · exact hst2.before c hc
      · rw [mem_singleton.mp hc]

theorem minus_eq {x y : ℤ} (h : IsInt (x - y)) : minus x y st = some (.ok (x - y), st) := by
  rw [minus, if_pos h]
  rfl

/-- The increments are so small that no sum of them is too large. -/
def SmallSum (calls : List (ℕ × TotalCall)) : Prop :=
  (calls.map fun c => |c.2.increment|).sum < 2 ^ 31
deriving Decidable

theorem SmallSum.isInt_recorded (h : SmallSum calls) (slots : ℕ → Bool) :
    IsInt (recorded calls slots) := by
  have hle := (@abs_recorded_le calls slots).trans_lt h
  rw [abs_lt] at hle
  exact ⟨hle.1.le, hle.2⟩

theorem SmallSum.isInt_sum (h : SmallSum calls) :
    IsInt (calls.map fun c => c.2.increment).sum :=
  sum_eq_recorded ▸ h.isInt_recorded _

theorem SmallSum.of_append {c : ℕ × TotalCall} (h : SmallSum (calls ++ [c])) : SmallSum calls := by
  have hpos := abs_nonneg c.2.increment
  simp only [SmallSum, map_append, map_singleton, sum_append, sum_singleton]
    at h ⊢
  omega

/-- What was recorded in the last `j` slots is the difference of two slots of the ring. -/
theorem minus_slots (hring : RingHolds st.cts (totalUpTo calls) (now / 3)) (hsmall : SmallSum calls)
    (hnow : 900 < now) {j : ℕ} (hj : j < 299) :
    minus (st.cts (slotOf now + 299)) (st.cts (slotOf now + Fin.ofNat 300 (299 - j))) st =
      some (.ok (recorded calls fun t => now / 3 - j ≤ t ∧ t ≤ now / 3 - 1), st) := by
  have hlast : st.cts (slotOf now + 299) = totalUpTo calls (now / 3 - 1) :=
    hring.back Nat.one_pos (by omega) (by omega)
  have hfirst : st.cts (slotOf now + Fin.ofNat 300 (299 - j)) =
      totalUpTo calls (now / 3 - (j + 1)) := by
    have hback := hring.back (Nat.succ_pos j) (by omega) (by omega)
    rwa [show 300 - (j + 1) = 299 - j by omega] at hback
  have hdiff := @recorded_eq_sub calls (now / 3 - (j + 1)) (now / 3 - 1) (by omega)
  rw [show now / 3 - (j + 1) + 1 = now / 3 - j by omega] at hdiff
  rw [hlast, hfirst, hdiff]
  exact minus_eq (hdiff ▸ hsmall.isInt_recorded _)

/-- **A call for the totals** gives what was recorded in the last slots. -/
theorem dccStatsGetCompileTotals_eq (h : st.Follows calls now) (hnow : 900 < now)
    (hsmall : SmallSum (calls ++ [(now, .totals)])) :
    ∃ st', dccStatsGetCompileTotals now st =
      some (.ok (recorded calls fun t => now / 3 - 19 ≤ t ∧ t ≤ now / 3 - 1,
        recorded calls fun t => now / 3 - 99 ≤ t ∧ t ≤ now / 3 - 1,
        recorded calls fun t => now / 3 - 298 ≤ t ∧ t ≤ now / 3 - 1), st') ∧
      st'.UpToDate (calls ++ [(now, .totals)]) now ∧ st'.last = now := by
  obtain ⟨st', hrun, hst', hlast⟩ := dccStatsUpdateRunningTotal_eq h hsmall.isInt_sum
  refine ⟨st', ?_, hst', hlast⟩
  have hring : RingHolds st'.cts (totalUpTo calls) (now / 3) :=
    hst'.ring.congr fun s hs => totalUpTo_append hs
  have hread := fun {j : ℕ} => @minus_slots calls now st' hring hsmall.of_append hnow j
  rw [dccStatsGetCompileTotals]
  refine (bind_of_ok hrun).trans ?_
  rw [get_bind]
  refine (bind_of_ok (hread (j := 19) (by decide))).trans ?_
  refine (bind_of_ok (hread (j := 99) (by decide))).trans ?_
  exact (bind_of_ok (hread (j := 298) (by decide))).trans rfl

/-- Whatever the ring holds, a call returns unless the total is too large. -/
theorem dccStatsUpdateRunningTotal_total (now : ℕ) (increment : ℤ) (st : RunningTotal) :
    ∃ st', dccStatsUpdateRunningTotal now increment st =
      some (if IsInt (st.total + increment) then .ok (slotOf now) else .error .overflow, st') ∧
      (IsInt (st.total + increment) → st'.total = st.total + increment) := by
  obtain ⟨st₁, hreset, htotal1⟩ : ∃ st₁, resetSlots now st = some (.ok (), st₁) ∧
      st₁.total = st.total := by
    rw [resetSlots, get_bind]
    split <;> exact ⟨_, rfl, rfl⟩
  obtain ⟨st₂, hfill, htotal2⟩ : ∃ st₂, fillSlots now st₁ = some (.ok (), st₂) ∧
      st₂.total = st₁.total := by
    by_cases hslot : st₁.prevSlot = slotOf now
    · exact ⟨st₁, fillSlots_of_eq hslot, rfl⟩
    · -- the loop ends at the slot of the call, whatever is in the ring
      obtain ⟨d, hd, hcur⟩ : ∃ d < 300, Fin.ofNat 300 (st₁.prevSlot.val + d) = slotOf now := by
        have hlt := (slotOf now).isLt
        have hlt' := st₁.prevSlot.isLt
        refine ⟨((slotOf now).val + (300 - st₁.prevSlot.val)) % 300, by omega, Fin.ext ?_⟩
        show (st₁.prevSlot.val + _) % 300 = (slotOf now).val
        omega
      have hprev : Fin.ofNat 300 st₁.prevSlot.val = st₁.prevSlot :=
        Fin.ext (Nat.mod_eq_of_lt st₁.prevSlot.isLt)
      let f : ℕ → ℤ := fun t =>
        if t < st₁.prevSlot.val then st₁.cts (Fin.ofNat 300 t) else st₁.total
      obtain ⟨cts, hloop, -⟩ := @fill_loop st₁ f st₁.prevSlot.val d 300 hd hd
        (fun t ht _ => (if_pos ht).symm) (fun t ht => if_neg (Nat.not_lt.mpr ht))
      rw [hcur, hprev] at hloop
      refine ⟨{ st₁ with cts := cts, prevSlot := slotOf now }, ?_, rfl⟩
      rw [fillSlots, get_bind, if_pos hslot]
      exact (bind_of_ok hloop).trans rfl
  rw [← htotal1, ← htotal2]
  rw [dccStatsUpdateRunningTotal, bind_of_ok hreset, bind_of_ok hfill, get_bind]
  by_cases hint : IsInt (st₂.total + increment)
  · rw [if_pos hint, if_pos hint]
    exact ⟨_, rfl, fun _ => rfl⟩
  · rw [if_neg hint, if_neg hint]
    exact ⟨_, rfl, fun h => absurd h hint⟩

end Ring

/-! ### Runs -/

/-- The times of the calls do not go back, no call is behind the one before it, and the
first one comes late enough. -/
structure Timely (times : List ℕ) : Prop where
  first : ∀ t ∈ times.head?, 900 < t
  steps : times.IsChain fun last now => last ≤ now ∧ ¬Behind last now

theorem Timely.split {times : List ℕ} {last now : ℕ} (h : Timely (times ++ [last] ++ [now])) :
    Timely (times ++ [last]) ∧ last ≤ now ∧ ¬Behind last now := by
  obtain ⟨hsteps, -, hlast⟩ := isChain_append.mp h.steps
  refine ⟨⟨fun t ht => h.first t ?_, hsteps⟩, hlast last (by simp) now rfl⟩
  rw [head?_append_of_ne_nil _ (by simp)]
  exact ht

variable {calls : List (ℕ × TotalCall)}

/-- **Each call** takes the ring to its own time. -/
theorem perform_upToDate {now : ℕ} {call : TotalCall}
    {st : RunningTotal} (h : st.Follows calls now) (hnow : 900 < now)
    (hsmall : SmallSum (calls ++ [(now, call)])) :
    ∃ st', call.perform now st = some (.ok (), st') ∧
      st'.UpToDate (calls ++ [(now, call)]) now ∧ st'.last = now := by
  cases call with
  | update increment =>
    obtain ⟨st', hrun, hst'⟩ :=
      @dccStatsUpdateRunningTotal_eq calls now st h (.update increment) hsmall.isInt_sum
    exact ⟨st', (bind_of_ok hrun).trans rfl, hst'⟩
  | totals =>
    obtain ⟨st', hrun, hst'⟩ := dccStatsGetCompileTotals_eq h hnow hsmall
    exact ⟨st', (bind_of_ok hrun).trans rfl, hst'⟩

/-- After timely calls, the ring is ready for the next one. -/
theorem performAll_follows {now : ℕ}
    (htimes : Timely (calls.map Prod.fst ++ [now])) (hsmall : SmallSum calls) :
    900 < now ∧ ∃ st, performAll calls {} = some (.ok (), st) ∧ st.Follows calls now := by
  induction calls using List.reverseRecOn generalizing now with
  | nil =>
    have hnow : 900 < now := htimes.first now rfl
    exact ⟨hnow, {}, rfl, .inl ⟨rfl, rfl, rfl, hnow⟩⟩
  | append_singleton calls c ih =>
    rw [map_append, map_singleton] at htimes
    obtain ⟨hbefore, hle, hbehind⟩ := htimes.split
    obtain ⟨hfirst, st, hrun, hst⟩ := ih hbefore hsmall.of_append
    obtain ⟨st', hcall, hst', hlast⟩ := perform_upToDate hst hfirst hsmall
    refine ⟨hfirst.trans_le hle, st', ?_, .inr ⟨hlast ▸ hst', hlast ▸ hle, hlast ▸ hbehind⟩⟩
    exact (forEach_append hrun).trans ((bind_of_ok hcall).trans rfl)

/-- **The totals are right** for timely calls. -/
theorem dccStatsGetCompileTotals_exact {calls : List (ℕ × TotalCall)} {now : ℕ}
    (htimes : Timely (calls.map Prod.fst ++ [now])) (hsmall : SmallSum calls) :
    ∃ st st', performAll calls {} = some (.ok (), st) ∧
      dccStatsGetCompileTotals now st =
        some (.ok (recorded calls fun t => now / 3 - 19 ≤ t ∧ t ≤ now / 3 - 1,
          recorded calls fun t => now / 3 - 99 ≤ t ∧ t ≤ now / 3 - 1,
          recorded calls fun t => now / 3 - 298 ≤ t ∧ t ≤ now / 3 - 1), st') := by
  obtain ⟨hnow, st, hrun, hst⟩ := performAll_follows htimes hsmall
  have hmore : SmallSum (calls ++ [(now, .totals)]) := by
    simpa [SmallSum, TotalCall.increment] using hsmall
  obtain ⟨st', htotals, -⟩ := dccStatsGetCompileTotals_eq hst hnow hmore
  exact ⟨st, st', hrun, htotals⟩

/-- Three jobs, one of them lately. -/
def threeJobs : List (ℕ × TotalCall) := [(1000, .update 1), (1015, .update 1), (1900, .update 1)]

theorem dccStatsGetCompileTotals_exact_three :
    ∃ st st', performAll threeJobs {} = some (.ok (), st) ∧
      dccStatsGetCompileTotals 1905 st = some (.ok (1, 1, 2), st') :=
  dccStatsGetCompileTotals_exact ⟨by decide, by decide⟩ (by decide)

/-- A job was counted at 1002. At 1902, in the same slot of the ring, the ring is not
brought up to date, and at 1905 the job seems to be one of the last minute. -/
theorem dccStatsGetCompileTotals_behind :
    (∃ r st, (performAll [(1002, .update 1), (1902, .totals)] >>= fun _ =>
      dccStatsGetCompileTotals 1905) {} = some (.ok r, st) ∧ r.1 = 1) ∧
    (recorded [(1002, .update 1), (1902, .totals)] fun t => 1905 / 3 - 19 ≤ t ∧ t ≤ 1905 / 3 - 1) =
      0 := by
  refine ⟨?_, by decide⟩
  obtain ⟨r, st, hrun, hr⟩ := exists_of_yields (x := performAll [(1002, .update 1),
    (1902, .totals)] >>= fun _ => dccStatsGetCompileTotals 1905) (s := {})
    (p := fun r _ => r.1 = 1) (by decide +kernel)
  exact ⟨r, st, hrun, of_decide_eq_true hr⟩

end Distcc
