import Distcc.Base.CString
import Distcc.Base.Prog
import Mathlib.Data.List.Induction
import Mathlib.Data.List.Nodup
import Mathlib.Logic.Function.Basic

/-!
# Cleaning up from a signal handler

Model of `src/cleanup.c` for a program that can be interrupted. The names to clean up are in
an array that grows, and `dcc_add_cleanup` and `dcc_cleanup_tempfiles` go through many states
in which the array is not what it was nor what it will be. A signal may come in each of them,
and its handler goes through the array as well.

The two functions are therefore cut into steps, none of which does more than one assignment
to a variable or to a slot of the array (`CleanupState.step`). The memory of the
arrays and of the names is modelled, and to use what was freed or never written is a fault.
`DISTCC_SAVE_TEMPS` is off: the files are removed, and not only forgotten.

What the handler relies on is `CleanupState.Inv`: the slots that are counted hold
names that are allocated. This holds between any two steps, which depends on where the
program is (`CleanupState.At`). So the handler removes the names that are counted,
from the last to the first one (`CleanupState.handler_removes`).
-/

namespace Distcc

open CString List Function Option

/-! ### The machine -/

/-- What is in a slot of the array. -/
inductive Slot
  /-- It was not written to since the array was allocated. -/
  | unset
  /-- `NULL` -/
  | null
  /-- The address of a name. -/
  | str (a : ℕ)
  deriving DecidableEq, Repr

/-- Where the program is, with the values of the local variables. In
`dcc_cleanup_tempfiles_inner`, `sig` is `from_signal_handler`. -/
inductive Pc
  /-- In none of the functions. -/
  | idle
  /-- `dcc_add_cleanup` was called. -/
  | addStart (filename : CString)
  /-- The next step is the `memcpy`. -/
  | addCopy (filename : CString) (newN newSize new : ℕ)
  /-- The next step is `cleanups = new_cleanups`. -/
  | addSwap (filename : CString) (newN newSize new : ℕ)
  /-- The next step is `cleanups_size = new_cleanups_size`. -/
  | addSize (filename : CString) (newN newSize : ℕ) (old : Option ℕ)
  /-- The next step is `free(old_cleanups)`. -/
  | addFree (filename : CString) (newN : ℕ) (old : Option ℕ)
  /-- The next step is the `strdup`. -/
  | addDup (filename : CString) (newN : ℕ)
  /-- The next step is `cleanups[new_n_cleanups - 1] = new_filename`. -/
  | addStore (filename : CString) (newN new : ℕ)
  /-- The next step is `n_cleanups = new_n_cleanups`. -/
  | addCount (filename : CString) (newN : ℕ)
  /-- The next step is to return 0. -/
  | addReturn (filename : CString)
  /-- The next step is the test of the loop, with `i + 1` for the variable. -/
  | cleanTest (sig : Bool) (i : ℕ)
  /-- The next step is to remove `cleanups[i]`. -/
  | cleanRemove (sig : Bool) (i : ℕ)
  /-- The next step is `n_cleanups = i`. -/
  | cleanCount (sig : Bool) (i : ℕ)
  /-- The next step is `free(cleanups[i])`, unless this is the handler. -/
  | cleanFree (sig : Bool) (i : ℕ)
  /-- The next step is `cleanups[i] = NULL`. -/
  | cleanNull (sig : Bool) (i : ℕ)
  deriving DecidableEq, Repr

/-- What is done that can be seen from outside. -/
inductive CleanupEvent
  /-- A name is counted: `n_cleanups = new_n_cleanups` was executed. -/
  | counted (filename : CString)
  /-- `dcc_add_cleanup` returned 0. -/
  | returned (filename : CString)
  /-- Somebody tried to remove a file. -/
  | removed (filename : CString)
  /-- The last name is not counted any more: `n_cleanups = i` was executed. -/
  | dropped
  deriving DecidableEq, Repr

/-- The memory, the variables, where the program is and what happened. -/
structure CleanupState where
  /-- The arrays that are allocated. -/
  arrays : ℕ → Option (List Slot) := fun _ => none
  /-- The names that are allocated. -/
  strings : ℕ → Option CString := fun _ => none
  /-- From this address on, nothing was given out yet. -/
  brk : ℕ := 0
  cleanups : Option ℕ := none
  cleanupsSize : ℕ := 0
  nCleanups : ℕ := 0
  pc : Pc := .idle
  log : List CleanupEvent := []

namespace CleanupState

/-- The program goes to another place. -/
def goto (s : CleanupState) (pc : Pc) : CleanupState := { s with pc := pc }

/-- Something happens. -/
def record (s : CleanupState) (e : CleanupEvent) : CleanupState := { s with log := s.log ++ [e] }

/-- `n_cleanups = n` -/
def setCount (s : CleanupState) (n : ℕ) : CleanupState := { s with nCleanups := n }

/-- `cleanups[i]` -/
def slotAt (s : CleanupState) (i : ℕ) : Except Fault Slot :=
  match s.cleanups with
  | none => .error .null
  | some a =>
    match s.arrays a with
    | none => .error .freed
    | some slots =>
      match slots[i]? with
      | none => .error .bounds
      | some slot => .ok slot

/-- The address of the name in `cleanups[i]`, and the name. -/
def nameAt (s : CleanupState) (i : ℕ) : Except Fault (ℕ × CString) := do
  match ← s.slotAt i with
  | .unset => .error .unset
  | .null => .error .null
  | .str a =>
    match s.strings a with
    | none => .error .freed
    | some name => .ok (a, name)

/-- Other slots are in an array. -/
def withSlots (s : CleanupState) (a : ℕ) (slots : List Slot) : CleanupState :=
  { s with arrays := Function.update s.arrays a (some slots) }

/-- `cleanups[i] = slot` -/
def setSlot (s : CleanupState) (i : ℕ) (slot : Slot) : Except Fault CleanupState :=
  match s.cleanups with
  | none => .error .null
  | some a =>
    match s.arrays a with
    | none => .error .freed
    | some slots =>
      if i < slots.length then .ok (s.withSlots a (slots.set i slot)) else .error .bounds

/-- `memcpy(new_cleanups, cleanups, cleanups_size * sizeof(char *))` -/
def copySlots (s : CleanupState) (new : ℕ) : Except Fault CleanupState :=
  if s.cleanupsSize = 0 then .ok s
  else
    match s.cleanups with
    | none => .error .null
    | some a =>
      match s.arrays a, s.arrays new with
      | some slots, some newSlots =>
        if s.cleanupsSize ≤ slots.length ∧ s.cleanupsSize ≤ newSlots.length then
          .ok (s.withSlots new (slots.take s.cleanupsSize ++ newSlots.drop s.cleanupsSize))
        else .error .bounds
      | _, _ => .error .freed

/-- `free`, of an array. -/
def freeArray (s : CleanupState) : Option ℕ → Except Fault CleanupState
  | none => .ok s
  | some a =>
    match s.arrays a with
    | none => .error .freed
    | some _ => .ok { s with arrays := Function.update s.arrays a none }

/-- `new_cleanups_size` -/
def newSize (s : CleanupState) : ℕ := if s.cleanupsSize = 0 then 10 else s.cleanupsSize * 3

/-- An array is allocated, for the slots of which nothing is known. -/
def allocArray (s : CleanupState) (size : ℕ) : CleanupState :=
  { s with
    arrays := Function.update s.arrays s.brk (some (List.replicate size .unset))
    brk := s.brk + 1 }

/-- A copy of a name is allocated. -/
def allocString (s : CleanupState) (name : CString) : CleanupState :=
  { s with strings := Function.update s.strings s.brk (some name), brk := s.brk + 1 }

/-- One step. If memory is asked for, `reply` says if there is some. A size that is not an
`int` becomes a negative number, and there is not so much memory as is asked for then. -/
def step (reply : Bool) (s : CleanupState) : Except Fault CleanupState :=
  match s.pc with
  | .idle => .ok s
  | .addStart filename =>
    if s.nCleanups + 1 > s.cleanupsSize then
      if reply ∧ s.newSize < 2 ^ 31 then
        .ok ((s.allocArray s.newSize).goto
          (.addCopy filename (s.nCleanups + 1) s.newSize s.brk))
      else .ok (s.goto .idle)
    else .ok (s.goto (.addDup filename (s.nCleanups + 1)))
  | .addCopy filename newN newSize new => do
    let s ← s.copySlots new
    .ok (s.goto (.addSwap filename newN newSize new))
  | .addSwap filename newN newSize new =>
    .ok ({ s with cleanups := some new }.goto (.addSize filename newN newSize s.cleanups))
  | .addSize filename newN newSize old =>
    .ok ({ s with cleanupsSize := newSize }.goto (.addFree filename newN old))
  | .addFree filename newN old => do
    let s ← s.freeArray old
    .ok (s.goto (.addDup filename newN))
  | .addDup filename newN =>
    if reply then .ok ((s.allocString filename).goto (.addStore filename newN s.brk))
    else .ok (s.goto .idle)
  | .addStore filename newN new => do
    let s ← s.setSlot (newN - 1) (.str new)
    .ok (s.goto (.addCount filename newN))
  | .addCount filename newN =>
    .ok (((s.setCount newN).record (.counted filename)).goto (.addReturn filename))
  | .addReturn filename => .ok ((s.record (.returned filename)).goto .idle)
  | .cleanTest _ 0 => .ok (s.goto .idle)
  | .cleanTest sig (i + 1) => .ok (s.goto (.cleanRemove sig i))
  | .cleanRemove sig i => do
    let name ← s.nameAt i
    .ok ((s.record (.removed name.2)).goto (.cleanCount sig i))
  | .cleanCount sig i => .ok (((s.setCount i).record .dropped).goto (.cleanFree sig i))
  | .cleanFree sig i =>
    if sig then .ok (s.goto (.cleanNull sig i))
    else do
      let name ← s.nameAt i
      .ok ({ s with strings := Function.update s.strings name.1 none }.goto (.cleanNull sig i))
  | .cleanNull sig i => do
    let s ← s.setSlot i .null
    .ok (s.goto (.cleanTest sig i))

/-- What the program does next. -/
inductive Move
  /-- It calls `dcc_add_cleanup`. -/
  | add (filename : CString)
  /-- It calls `dcc_cleanup_tempfiles`. -/
  | clean
  /-- It makes one step in a function that was called. -/
  | step (reply : Bool)
  deriving DecidableEq, Repr

/-- A move of the program. It does not call a function in another one. -/
def move (s : CleanupState) : Move → Except Fault CleanupState
  | .add filename => if s.pc = .idle then .ok (s.goto (.addStart filename)) else .ok s
  | .clean => if s.pc = .idle then .ok (s.goto (.cleanTest false s.nCleanups)) else .ok s
  | .step reply => s.step reply

/-- So many steps. -/
def steps : ℕ → CleanupState → Except Fault CleanupState
  | 0, s => .ok s
  | n + 1, s => do
    let s ← s.step true
    steps n s

/-- `dcc_cleanup_tempfiles_from_signal_handler`, wherever the program is: so many steps as it
takes to go through the names. -/
def handler (s : CleanupState) : Except Fault CleanupState :=
  steps (5 * s.nCleanups + 1) (s.goto (.cleanTest true s.nCleanups))

/-! ### What is seen from outside -/

/-- The names that are counted, after another event. -/
def liveAfter (names : List CString) : CleanupEvent → List CString
  | .counted filename => names ++ [filename]
  | .dropped => names.dropLast
  | _ => names

/-- The names that were counted, and are so still. -/
def live (s : CleanupState) : List CString := s.log.foldl liveAfter []

/-- The names that somebody tried to remove. -/
def attempts (s : CleanupState) : List CString := s.log.filterMap fun
  | .removed filename => some filename
  | _ => none

/-! ### What holds between two steps -/

/-- The array has these slots. -/
def Held (s : CleanupState) (slots : List Slot) : Prop :=
  ∃ a, s.cleanups = some a ∧ s.arrays a = some slots

/-- What happened, if these names are counted. -/
structure Logged (log : List CleanupEvent) (names : List CString) : Prop where
  live : log.foldl liveAfter [] = names
  returned : ∀ f, .returned f ∈ log → .counted f ∈ log
  counted : ∀ f, .counted f ∈ log → .removed f ∈ log ∨ f ∈ names

namespace Logged

variable {log : List CleanupEvent} {names : List CString} {name : CString}

theorem record_counted (h : Logged log names) (f : CString) :
    Logged (log ++ [.counted f]) (names ++ [f]) where
  live := by rw [foldl_concat, h.live, liveAfter]
  returned g hg := mem_append_left _ (h.returned g (by simpa using hg))
  counted g hg := by
    obtain hg | hg := mem_append.mp hg
    · exact (h.counted g hg).imp (mem_append_left _) (mem_append_left _)
    · cases mem_singleton.mp hg
      exact .inr mem_concat_self

theorem record_returned (h : Logged log names) {f : CString} (hf : .counted f ∈ log) :
    Logged (log ++ [.returned f]) names where
  live := (foldl_concat ..).trans h.live
  returned g hg := by
    obtain hg | hg := mem_append.mp hg
    · exact mem_append_left _ (h.returned g hg)
    · cases mem_singleton.mp hg
      exact mem_append_left _ hf
  counted g hg := (h.counted g (by simpa using hg)).imp_left (mem_append_left _)

theorem record_removed (h : Logged log names) (f : CString) :
    Logged (log ++ [.removed f]) names where
  live := (foldl_concat ..).trans h.live
  returned g hg := mem_append_left _ (h.returned g (by simpa using hg))
  counted g hg := (h.counted g (by simpa using hg)).imp_left (mem_append_left _)

/-- The last name is dropped after somebody tried to remove it. -/
theorem record_dropped (h : Logged log (names ++ [name])) (hname : .removed name ∈ log) :
    Logged (log ++ [.dropped]) names where
  live := by rw [foldl_concat, h.live, liveAfter, dropLast_concat]
  returned g hg := mem_append_left _ (h.returned g (by simpa using hg))
  counted g hg := by
    obtain hg | hg := h.counted g (by simpa using hg)
    · exact .inl (mem_append_left _ hg)
    · obtain hg | hg := mem_append.mp hg
      · exact .inr hg
      · cases mem_singleton.mp hg
        exact .inl (mem_append_left _ hname)

end Logged

/-- What holds wherever the program is. The names that are counted are at `addrs`. -/
structure Inv (s : CleanupState) (addrs : List ℕ) (names : List CString) : Prop where
  logged : Logged s.log names
  count : s.nCleanups = names.length
  strings : addrs.map s.strings = names.map some
  nodup : addrs.Nodup
  below : ∀ a ∈ addrs, a < s.brk
  fresh : ∀ a, s.brk ≤ a → s.arrays a = none
  room : names.length ≤ s.cleanupsSize
  /-- There is no array yet, or it is as long as it should be and the names are in front. -/
  array : s.cleanups = none ∧ s.cleanupsSize = 0 ∨
    ∃ slots, s.Held (addrs.map .str ++ slots) ∧ s.cleanupsSize ≤ names.length + slots.length

section Array

variable {s : CleanupState} {addrs : List ℕ} {names : List CString} {slots : List Slot}
  {a b : ℕ} {name : CString} {slot : Slot}

/-- The last slot that is counted, and those behind it. -/
theorem map_str_concat (addrs : List ℕ) (a : ℕ) (slots : List Slot) :
    (addrs ++ [a]).map Slot.str ++ slots = addrs.map .str ++ .str a :: slots := by
  simp

/-- The last name is at the last address. -/
theorem map_concat_inj {text : ℕ → Option CString}
    (h : (addrs ++ [a]).map text = (names ++ [name]).map some) :
    addrs.map text = names.map some ∧ text a = some name := by
  rw [map_append, map_append] at h
  obtain ⟨hrest, hlast⟩ := append_inj' h rfl
  exact ⟨hrest, singleton_inj.mp hlast⟩

/-- The name in a slot of the array. -/
theorem Held.nameAt (h : s.Held (addrs.map .str ++ .str a :: slots))
    (hname : s.strings a = some name) : s.nameAt addrs.length = .ok (a, name) := by
  obtain ⟨b, hcleanups, harray⟩ := h
  have hslot : (addrs.map Slot.str ++ .str a :: slots)[addrs.length]? = some (.str a) := by simp
  simp only [CleanupState.nameAt, slotAt, hcleanups, harray, hslot, Except.ok_bind, hname]

/-- A slot of the array is written to. -/
theorem setSlot_eq (hcleanups : s.cleanups = some b)
    (harray : s.arrays b = some (addrs.map .str ++ slot :: slots)) (slot' : Slot) :
    s.setSlot addrs.length slot' = .ok (s.withSlots b (addrs.map .str ++ slot' :: slots)) := by
  have hlt : addrs.length < (addrs.map Slot.str ++ slot :: slots).length := by simp
  have hset : (addrs.map Slot.str ++ slot :: slots).set addrs.length slot' =
      addrs.map .str ++ slot' :: slots := by simp
  simp only [CleanupState.setSlot, hcleanups, harray, if_pos hlt, hset]

/-- The slots of the array are copied to another one. -/
theorem copySlots_eq {new : ℕ} {newSlots : List Slot}
    (hsize : s.cleanupsSize ≠ 0) (hcleanups : s.cleanups = some b)
    (harray : s.arrays b = some slots) (hnew : s.arrays new = some newSlots)
    (hle : s.cleanupsSize ≤ slots.length) (hle' : s.cleanupsSize ≤ newSlots.length) :
    s.copySlots new = .ok (s.withSlots new
      (slots.take s.cleanupsSize ++ newSlots.drop s.cleanupsSize)) := by
  simp only [copySlots, if_neg hsize, hcleanups, harray, hnew, if_pos (And.intro hle hle')]

/-- The array is not touched if another one is. -/
theorem Held.update {array : Option (List Slot)} (h : s.Held slots) (hne : s.cleanups ≠ some a) :
    Held { s with arrays := Function.update s.arrays a array } slots := by
  obtain ⟨b, hb, harray⟩ := h
  have hba : b ≠ a := fun hba => hne (hba ▸ hb)
  exact ⟨b, hb, (update_of_ne hba ..).trans harray⟩

theorem steps_succ {n : ℕ} {s₁ : CleanupState} (h : s.step true = .ok s₁) :
    steps (n + 1) s = steps n s₁ := by
  rw [steps, h, Except.ok_bind]

namespace Inv

variable (h : s.Inv addrs names)
include h

theorem length_eq : addrs.length = names.length := by
  simpa using congrArg List.length h.strings

/-- Where the program is does not matter. -/
theorem goto (pc : Pc) : (s.goto pc).Inv addrs names :=
  ⟨h.logged, h.count, h.strings, h.nodup, h.below, h.fresh, h.room, h.array⟩

/-- The array is one that was allocated. -/
theorem cleanups_ne_brk : s.cleanups ≠ some s.brk := by
  intro hbrk
  obtain ⟨hnone, -⟩ | ⟨slots, ⟨a, ha, harray⟩, -⟩ := h.array
  · exact some_ne_none _ (hbrk.symm.trans hnone)
  · obtain rfl : a = s.brk := some.inj (ha.symm.trans hbrk)
    exact some_ne_none _ (harray.symm.trans (h.fresh _ le_rfl))

/-- There is an array, if there is room for a name in it. -/
theorem held_of_pos (hpos : 0 < s.cleanupsSize) :
    ∃ slots, s.Held (addrs.map .str ++ slots) ∧ s.cleanupsSize ≤ names.length + slots.length := by
  obtain ⟨-, hsize⟩ | hheld := h.array
  · omega
  · exact hheld

/-- Another array than the one in use can be written to. -/
theorem update {array : Option (List Slot)} (hne : s.cleanups ≠ some a) (hlt : a < s.brk) :
    Inv { s with arrays := Function.update s.arrays a array } addrs names :=
  { h with
    fresh := fun c hc =>
      (update_of_ne (Nat.ne_of_gt (hlt.trans_le hc)) ..).trans (h.fresh c hc)
    array := h.array.imp_right fun ⟨slots, hheld, hle⟩ => ⟨slots, hheld.update hne, hle⟩ }

/-- The next address is given out. -/
theorem brk_succ : Inv { s with brk := s.brk + 1 } addrs names := { h with
    below := fun a ha => Nat.lt_succ_of_lt (h.below a ha)
    fresh := fun a ha => h.fresh a (Nat.le_of_succ_le ha) }

theorem lt_brk (harray : s.arrays a ≠ none) : a < s.brk :=
  Nat.lt_of_not_le fun hle => harray (h.fresh a hle)

/-- A name that is not counted can be written to. -/
theorem update_strings {text : Option CString} (hnew : a ∉ addrs) :
    Inv { s with strings := Function.update s.strings a text } addrs names :=
  { h with
    strings := by
      rw [← h.strings]
      exact map_congr_left fun b hb =>
        update_of_ne (fun hba : b = a => hnew (hba ▸ hb)) .. }

/-- The slots behind the names that are counted can be written to. -/
theorem withSlots (hcleanups : s.cleanups = some b)
    (hsome : s.arrays b ≠ none) (hle : s.cleanupsSize ≤ names.length + slots.length) :
    (s.withSlots b (addrs.map .str ++ slots)).Inv addrs names :=
  { h with
    fresh := fun c hc =>
      (update_of_ne (Nat.ne_of_gt ((h.lt_brk hsome).trans_le hc)) ..).trans (h.fresh c hc)
    array := .inr ⟨slots, ⟨b, hcleanups, update_self ..⟩, hle⟩ }

/-- The last name that is counted, with its slot. -/
theorem exists_last {i : ℕ} (hi : i + 1 = names.length) :
    ∃ addrs' a names' name slots, addrs = addrs' ++ [a] ∧ names = names' ++ [name] ∧
      addrs'.length = i ∧ names'.length = i ∧
      s.Held (addrs'.map .str ++ .str a :: slots) ∧ s.cleanupsSize ≤ i + 1 + slots.length := by
  have hlen := h.length_eq
  have hroom := h.room
  obtain ⟨slots, hheld, hlong⟩ := h.held_of_pos (by omega)
  obtain rfl | ⟨addrs', a, rfl⟩ := eq_nil_or_concat' addrs
  · exact absurd hlen (by rw [← hi]; exact Nat.zero_ne_add_one i)
  obtain rfl | ⟨names', name, rfl⟩ := eq_nil_or_concat' names
  · exact absurd hi (Nat.succ_ne_zero i)
  rw [map_str_concat] at hheld
  simp only [length_append, length_singleton] at hi hlen hlong
  exact ⟨addrs', a, names', name, slots, rfl, rfl, by omega, by omega, hheld, by omega⟩

omit h in
/-- The last name is not counted any more, after somebody tried to remove it. -/
theorem drop_last (h : s.Inv (addrs ++ [a]) (names ++ [name])) (hremoved : .removed name ∈ s.log) :
    ((s.setCount names.length).record .dropped).Inv addrs names where
  logged := h.logged.record_dropped hremoved
  count := rfl
  strings := (map_concat_inj h.strings).1
  nodup := h.nodup.of_append_left
  below b hb := h.below b (mem_append_left _ hb)
  fresh := h.fresh
  room := (sublist_append_left ..).length_le.trans h.room
  array := h.array.imp_right fun ⟨slots, hheld, hle⟩ =>
    ⟨.str a :: slots, map_str_concat addrs a slots ▸ hheld, by
      rw [length_append, length_singleton, Nat.add_assoc, Nat.add_comm 1] at hle
      exact hle⟩

omit h in
/-- The handler removes the last name, and goes on with those in front of it. -/
theorem steps_last {n : ℕ} (h : s.Inv (addrs ++ [a]) (names ++ [name])) :
    ∃ s' : CleanupState, steps (n + 5) (s.goto (.cleanTest true (names.length + 1))) =
        steps n (s'.goto (.cleanTest true names.length)) ∧
      s'.Inv addrs names ∧ s'.log = s.log ++ [.removed name, .dropped] := by
  obtain ⟨slots, ⟨b, hcleanups, harray⟩, hlong⟩ :=
    h.held_of_pos (Nat.lt_of_lt_of_le (by simp) h.room)
  have hlen : addrs.length = names.length := by simpa using h.length_eq
  rw [map_str_concat] at harray
  have hname : s.nameAt names.length = .ok (a, name) :=
    hlen ▸ Held.nameAt ⟨b, hcleanups, harray⟩ (map_concat_inj h.strings).2
  -- the state before the slot is cleared
  let s₄ := ((s.record (.removed name)).setCount names.length).record .dropped
  have hinv : s₄.Inv addrs names :=
    drop_last (s := s.record (.removed name))
      { h with logged := h.logged.record_removed name } mem_concat_self
  have hset : (s₄.goto (.cleanNull true names.length)).setSlot names.length .null =
      .ok ((s₄.goto (.cleanNull true names.length)).withSlots b
        (addrs.map .str ++ .null :: slots)) := by
    rw [← hlen]
    exact @setSlot_eq (s₄.goto _) _ _ _ _ hcleanups harray .null
  have hremove : (s.goto (.cleanRemove true names.length)).step true =
      .ok ((s.record (.removed name)).goto (.cleanCount true names.length)) := by
    show (do
      let name ← s.nameAt names.length
      .ok ((s.record (.removed name.2)).goto _)) = _
    rw [hname, Except.ok_bind]
  have hnull : (s₄.goto (.cleanNull true names.length)).step true =
      .ok ((s₄.withSlots b (addrs.map .str ++ .null :: slots)).goto
        (.cleanTest true names.length)) := by
    show (do
      let s ← (s₄.goto (.cleanNull true names.length)).setSlot names.length .null
      .ok (s.goto _)) = _
    rw [hset, Except.ok_bind]
    rfl
  refine ⟨s₄.withSlots b (addrs.map .str ++ .null :: slots), ?_,
    hinv.withSlots hcleanups (harray ▸ some_ne_none _) ?_, append_assoc ..⟩
  · have htest : (s.goto (.cleanTest true (names.length + 1))).step true =
        .ok (s.goto (.cleanRemove true names.length)) := rfl
    have hcount : ((s.record (.removed name)).goto (.cleanCount true names.length)).step true =
        .ok (s₄.goto (.cleanFree true names.length)) := rfl
    have hfree : (s₄.goto (.cleanFree true names.length)).step true =
        .ok (s₄.goto (.cleanNull true names.length)) := rfl
    rw [steps_succ htest, steps_succ hremove, steps_succ hcount, steps_succ hfree, steps_succ hnull]
  · rw [length_append, length_singleton, Nat.add_assoc, Nat.add_comm 1] at hlong
    exact hlong

/-- **The handler removes the names that are counted**, from the last to the first one. -/
theorem steps_all :
    ∃ s', steps (5 * names.length + 1) (s.goto (.cleanTest true names.length)) = .ok s' ∧
      s'.pc = .idle ∧ s'.attempts = s.attempts ++ names.reverse := by
  induction names using List.reverseRecOn generalizing s addrs with
  | nil => exact ⟨s.goto .idle, rfl, rfl, (append_nil _).symm⟩
  | append_singleton names name ih =>
    obtain rfl | ⟨addrs, a, rfl⟩ := eq_nil_or_concat' addrs
    · simpa using h.length_eq
    obtain ⟨s₁, hsteps, hinv, hlog⟩ := steps_last (n := 5 * names.length + 1) h
    obtain ⟨s', hrun, hidle, hattempts⟩ := ih hinv
    refine ⟨s', ?_, hidle, ?_⟩
    · rw [length_append, length_singleton, Nat.mul_add, Nat.add_right_comm]
      exact hsteps.trans hrun
    · rw [hattempts, reverse_append]
      simp [attempts, hlog]

end Inv

end Array

/-- **What holds where the program is**, apart from `CleanupState.Inv`. -/
def At (s : CleanupState) (addrs : List ℕ) (names : List CString) : Pc → Prop
  | .idle => True
  | .addStart _ => True
  | .addCopy _ newN newSize new =>
    newN = names.length + 1 ∧ newN ≤ newSize ∧ s.cleanupsSize ≤ newSize ∧
      s.cleanups ≠ some new ∧ s.arrays new = some (.replicate newSize .unset)
  | .addSwap _ newN newSize new =>
    newN = names.length + 1 ∧ newN ≤ newSize ∧ s.cleanupsSize ≤ newSize ∧
      s.cleanups ≠ some new ∧ ∃ slots, s.arrays new = some (addrs.map .str ++ slots) ∧
        newSize = names.length + slots.length
  | .addSize _ newN newSize old =>
    newN = names.length + 1 ∧ newN ≤ newSize ∧
      (∀ a, old = some a → s.arrays a ≠ none ∧ s.cleanups ≠ old) ∧
      ∃ slots, s.Held (addrs.map .str ++ slots) ∧ newSize = names.length + slots.length
  | .addFree _ newN old =>
    newN = names.length + 1 ∧ newN ≤ s.cleanupsSize ∧
      ∀ a, old = some a → s.arrays a ≠ none ∧ s.cleanups ≠ old
  | .addDup _ newN => newN = names.length + 1 ∧ newN ≤ s.cleanupsSize
  | .addStore f newN new =>
    newN = names.length + 1 ∧ newN ≤ s.cleanupsSize ∧
      s.strings new = some f ∧ new ∉ addrs ∧ new < s.brk
  | .addCount f newN =>
    newN = names.length + 1 ∧ newN ≤ s.cleanupsSize ∧
      ∃ new slots, s.strings new = some f ∧ new ∉ addrs ∧ new < s.brk ∧
        s.Held (addrs.map .str ++ .str new :: slots) ∧
        s.cleanupsSize ≤ newN + slots.length
  | .addReturn f => .counted f ∈ s.log
  | .cleanTest _ i => i = names.length
  | .cleanRemove _ i => i + 1 = names.length
  | .cleanCount _ i => i + 1 = names.length ∧ ∀ f ∈ names.getLast?, .removed f ∈ s.log
  | .cleanFree _ i =>
    i = names.length ∧ ∃ a f slots, s.strings a = some f ∧ a ∉ addrs ∧
      s.Held (addrs.map .str ++ .str a :: slots) ∧ s.cleanupsSize ≤ i + 1 + slots.length
  | .cleanNull _ i =>
    i = names.length ∧ ∃ slot slots, s.Held (addrs.map .str ++ slot :: slots) ∧
      s.cleanupsSize ≤ i + 1 + slots.length

/-- What holds between two steps. -/
def Good (s : CleanupState) : Prop := ∃ addrs names, s.Inv addrs names ∧ s.At addrs names s.pc

/-- From there, a step is no fault and leads to a good state. -/
def Steps (s : CleanupState) (addrs : List ℕ) (names : List CString) (reply : Bool) (pc : Pc) :
    Prop := s.At addrs names pc → ∃ s', (s.goto pc).step reply = .ok s' ∧ s'.Good

namespace Inv

variable {s : CleanupState} {addrs : List ℕ} {names : List CString} {slots : List Slot}
  {a b : ℕ} {name : CString} {slot : Slot}

/-! ### The steps of `dcc_add_cleanup` -/

variable {reply sig : Bool} {f : CString} {newN newSize new i : ℕ} {old : Option ℕ}

variable (h : s.Inv addrs names)
include h

theorem good {pc : Pc} (hat : (s.goto pc).At addrs names pc) : (s.goto pc).Good :=
  ⟨addrs, names, h.goto pc, hat⟩

theorem step_addStart : s.Steps addrs names reply (.addStart f) := by
  rintro -
  have hroom := h.room
  have hcount := h.count
  by_cases hfull : s.nCleanups + 1 > s.cleanupsSize
  · by_cases hreply : reply ∧ s.newSize < 2 ^ 31
    · refine ⟨_, (if_pos hfull).trans (if_pos hreply), @good _ addrs names ?_ _ ?_⟩
      · exact (h.goto (.addStart f)).brk_succ.update h.cleanups_ne_brk (Nat.lt_succ_self _)
      · have hsize : names.length + 1 ≤ s.newSize ∧ s.cleanupsSize ≤ s.newSize := by
          unfold newSize
          split <;> omega
        exact ⟨congrArg (· + 1) h.count, h.count ▸ hsize.1, hsize.2, h.cleanups_ne_brk,
          update_self ..⟩
    · exact ⟨_, (if_pos hfull).trans (if_neg hreply), h.good trivial⟩
  · exact ⟨_, if_neg hfull, h.good ⟨congrArg (· + 1) h.count, Nat.le_of_not_lt hfull⟩⟩

theorem step_addCopy : s.Steps addrs names reply (.addCopy f newN newSize new) := by
  rintro ⟨hN, hle, hsize, hne, hnew⟩
  by_cases hzero : s.cleanupsSize = 0
  · -- there are no slots to copy
    have hnil : names = [] := eq_nil_of_length_eq_zero (Nat.le_zero.mp (hzero ▸ h.room))
    have haddrs : addrs = [] := by simpa [hnil] using h.strings
    have hcopy : (s.goto (.addCopy f newN newSize new)).copySlots new = .ok (s.goto _) :=
      if_pos hzero
    refine ⟨_, (congrArg (· >>= _) hcopy).trans rfl, good h ?_⟩
    refine ⟨hN, hle, hsize, hne, .replicate newSize .unset, ?_, ?_⟩
    · rw [haddrs]
      exact hnew
    · simp [hnil]
  · obtain ⟨slots, ⟨b, hcleanups, harray⟩, hlong⟩ := h.held_of_pos (Nat.pos_of_ne_zero hzero)
    have hlen : addrs.length = names.length := h.length_eq
    have hroom := h.room
    have hslots : (addrs.map Slot.str ++ slots).take s.cleanupsSize ++
        (List.replicate newSize .unset).drop s.cleanupsSize = addrs.map Slot.str ++
          (slots.take (s.cleanupsSize - names.length) ++
            List.replicate (newSize - s.cleanupsSize) .unset) := by
      rw [take_append, take_of_length_le (by simp [hlen, hroom]), drop_replicate,
        length_map, hlen, append_assoc]
    have hlong' : s.cleanupsSize ≤ (addrs.map Slot.str ++ slots).length := by
      simpa [hlen] using hlong
    have hsize' : s.cleanupsSize ≤ (List.replicate newSize Slot.unset).length := by
      simpa using hsize
    have hcopy := @copySlots_eq (s.goto (.addCopy f newN newSize new)) _ _ _ _ hzero hcleanups
      harray hnew hlong' hsize'
    refine ⟨_, (congrArg (· >>= _) hcopy).trans rfl, @good _ addrs names ?_ _ ?_⟩
    · exact (h.goto (.addCopy f newN newSize new)).update hne
        (h.lt_brk (hnew ▸ some_ne_none _))
    · refine ⟨hN, hle, hsize, hne, _, (update_self ..).trans (congrArg some hslots), ?_⟩
      rw [length_append, length_take_of_le (by omega), length_replicate]
      omega

theorem step_addSwap : s.Steps addrs names reply (.addSwap f newN newSize new) := by
  rintro ⟨hN, hle, hsize, hne, slots, hnew, hlong⟩
  refine ⟨_, rfl, @good _ addrs names ?_ _ ⟨hN, hle, ?_, slots, ⟨new, rfl, hnew⟩, hlong⟩⟩
  · exact { h with array := .inr ⟨slots, ⟨new, rfl, hnew⟩, hlong ▸ hsize⟩ }
  · -- the old array is allocated still
    intro a ha
    refine ⟨?_, hne.symm⟩
    obtain ⟨hnone, -⟩ | ⟨slots, ⟨b, hb, harray⟩, -⟩ := h.array
    · exact absurd (hnone.symm.trans ha).symm (some_ne_none _)
    · obtain rfl : b = a := some.inj (hb.symm.trans ha)
      exact harray ▸ some_ne_none _

theorem step_addSize : s.Steps addrs names reply (.addSize f newN newSize old) := by
  rintro ⟨hN, hle, hold, slots, hheld, hlong⟩
  refine ⟨_, rfl, @good _ addrs names ?_ _ ⟨hN, hle, hold⟩⟩
  exact { h with
    room := hlong ▸ Nat.le_add_right ..
    array := .inr ⟨slots, hheld, hlong.le⟩ }

theorem step_addFree : s.Steps addrs names reply (.addFree f newN old) := by
  rintro ⟨hN, hle, hold⟩
  match old with
  | none => exact ⟨_, rfl, h.good ⟨hN, hle⟩⟩
  | some a =>
    obtain ⟨hsome, hne⟩ := hold a rfl
    obtain ⟨slots, harray⟩ := ne_none_iff_exists'.mp hsome
    have hfree : (s.goto (.addFree f newN (some a))).freeArray (some a) =
        .ok { s.goto (.addFree f newN (some a)) with
          arrays := Function.update s.arrays a none } := by
      simp only [freeArray, CleanupState.goto, harray]
    refine ⟨_, (congrArg (· >>= _) hfree).trans rfl, @good _ addrs names ?_ _ ⟨hN, hle⟩⟩
    exact (h.goto (.addFree f newN (some a))).update hne (h.lt_brk hsome)

theorem step_addDup : s.Steps addrs names reply (.addDup f newN) := by
  intro hat
  have hnew : s.brk ∉ addrs := fun hmem => Nat.lt_irrefl _ (h.below _ hmem)
  match reply with
  | false => exact ⟨_, rfl, h.good trivial⟩
  | true =>
    refine ⟨_, rfl, @good _ addrs names ?_ _ ?_⟩
    · exact (h.goto (.addDup f newN)).brk_succ.update_strings hnew
    · exact ⟨hat.1, hat.2, update_self .., hnew, Nat.lt_succ_self _⟩

theorem step_addStore : s.Steps addrs names reply (.addStore f newN new) := by
  rintro ⟨hN, hle, hstring, hnew, hlt⟩
  obtain ⟨slots, ⟨b, hcleanups, harray⟩, hlong⟩ := h.held_of_pos (by omega)
  match slots with
  | [] => exact absurd hlong (by simp; omega)
  | slot :: slots =>
    have hset := @setSlot_eq (s.goto (.addStore f newN new)) _ _ _ _ hcleanups harray (.str new)
    have hindex : newN - 1 = addrs.length := by rw [hN, h.length_eq]; rfl
    rw [← hindex] at hset
    have hlong' : s.cleanupsSize ≤ names.length + (Slot.str new :: slots).length := hlong
    refine ⟨_, (congrArg (· >>= _) hset).trans rfl, @good _ addrs names ?_ _ ?_⟩
    · exact (h.goto (.addStore f newN new)).withSlots hcleanups
        (harray ▸ some_ne_none _) hlong'
    · refine ⟨hN, hle, new, slots, hstring, hnew, hlt, ⟨b, hcleanups, ?_⟩, ?_⟩
      · exact update_self ..
      · rw [length_cons] at hlong'
        show s.cleanupsSize ≤ _
        omega

theorem step_addCount : s.Steps addrs names reply (.addCount f newN) := by
  rintro ⟨hN, hle, new, slots, hstring, hnew, hlt, hheld, hlong⟩
  have hlen : (names ++ [f]).length = newN := by rw [hN, length_append, length_singleton]
  refine ⟨_, rfl, @good _ (addrs ++ [new]) (names ++ [f]) ?_ _ mem_concat_self⟩
  constructor
  case logged => exact h.logged.record_counted f
  case count => exact hlen.symm
  case strings =>
    rw [map_append, map_append]
    exact congrArg₂ _ h.strings (congrArg ([·]) hstring)
  case nodup => exact concat_eq_append ▸ (nodup_concat ..).mpr ⟨hnew, h.nodup⟩
  case below =>
    intro a ha
    obtain ha | ha := mem_append.mp ha
    · exact h.below a ha
    · exact mem_singleton.mp ha ▸ hlt
  case fresh => exact h.fresh
  case room => exact hlen ▸ hle
  case array => exact .inr ⟨slots, (map_str_concat ..).symm ▸ hheld, hlen ▸ hlong⟩

theorem step_addReturn : s.Steps addrs names reply (.addReturn f) := by
  intro hat
  refine ⟨_, rfl, @good _ addrs names ?_ _ trivial⟩
  exact { h with logged := h.logged.record_returned hat }

/-! ### The steps of `dcc_cleanup_tempfiles_inner` -/

theorem step_cleanTest : s.Steps addrs names reply (.cleanTest sig i) := by
  intro hat
  match i with
  | 0 => exact ⟨_, rfl, h.good trivial⟩
  | i + 1 => exact ⟨_, rfl, h.good hat⟩

theorem step_cleanRemove : s.Steps addrs names reply (.cleanRemove sig i) := by
  intro hat
  obtain ⟨addrs', a, names', name, slots, rfl, rfl, rfl, hnames, hheld, hlong⟩ := h.exists_last hat
  have hstring := (map_concat_inj h.strings).2
  have hname := @Held.nameAt (s.goto (.cleanRemove sig addrs'.length)) _ _ _ _ hheld hstring
  refine ⟨_, (congrArg (· >>= _) hname).trans rfl,
    @good _ (addrs' ++ [a]) (names' ++ [name]) ?_ _ ⟨hat, ?_⟩⟩
  · exact { h with logged := h.logged.record_removed name }
  · rw [getLast?_concat]
    intro f hf
    cases mem_some_iff.mp hf
    exact mem_concat_self

theorem step_cleanCount : s.Steps addrs names reply (.cleanCount sig i) := by
  rintro ⟨hi, hremoved⟩
  obtain ⟨addrs', a, names', name, slots, rfl, rfl, rfl, hnames, hheld, hlong⟩ := h.exists_last hi
  have hnodup := h.nodup
  rw [← concat_eq_append, nodup_concat] at hnodup
  have hstring := (map_concat_inj h.strings).2
  rw [← hnames]
  refine ⟨_, rfl, @good _ addrs' names' ?_ _ ?_⟩
  · exact (h.goto (.cleanCount sig names'.length)).drop_last (hremoved name (by simp))
  · exact ⟨rfl, a, name, slots, hstring, hnodup.1, hheld, hnames ▸ hlong⟩

theorem step_cleanFree : s.Steps addrs names reply (.cleanFree sig i) := by
  rintro ⟨hi, a, f, slots, hstring, hnew, hheld, hlong⟩
  match sig with
  | true => exact ⟨_, rfl, h.good ⟨hi, _, slots, hheld, hlong⟩⟩
  | false =>
    have hname := @Held.nameAt (s.goto (.cleanFree false i)) _ _ _ _ hheld hstring
    rw [h.length_eq, ← hi] at hname
    refine ⟨_, (congrArg (· >>= _) hname).trans rfl, @good _ addrs names ?_ _ ?_⟩
    · exact (h.goto (.cleanFree false i)).update_strings hnew
    · exact ⟨hi, _, slots, hheld, hlong⟩

theorem step_cleanNull : s.Steps addrs names reply (.cleanNull sig i) := by
  rintro ⟨hi, slot, slots, ⟨b, hcleanups, harray⟩, hlong⟩
  have hset := @setSlot_eq (s.goto (.cleanNull sig i)) _ _ _ _ hcleanups harray .null
  rw [h.length_eq, ← hi] at hset
  refine ⟨_, (congrArg (· >>= _) hset).trans rfl, @good _ addrs names ?_ _ hi⟩
  refine (h.goto (.cleanNull sig i)).withSlots hcleanups (harray ▸ some_ne_none _) ?_
  refine hlong.trans (Nat.le_of_eq ?_)
  rw [length_cons, hi, Nat.add_assoc, Nat.add_comm 1]

end Inv

/-! ### Whole runs -/

section Runs

variable {s : CleanupState}

/-- **Between two steps the array is one that the handler can go through.** -/
theorem Good.step (h : s.Good) (reply : Bool) : ∃ s', s.step reply = .ok s' ∧ s'.Good := by
  obtain ⟨addrs, names, h, hat⟩ := h
  change ∃ s', (s.goto s.pc).step reply = .ok s' ∧ s'.Good
  generalize s.pc = pc at hat ⊢
  cases pc with
  | idle => exact ⟨_, rfl, h.good trivial⟩
  | addStart f => exact h.step_addStart trivial
  | addCopy f newN newSize new => exact h.step_addCopy hat
  | addSwap f newN newSize new => exact h.step_addSwap hat
  | addSize f newN newSize old => exact h.step_addSize hat
  | addFree f newN old => exact h.step_addFree hat
  | addDup f newN => exact h.step_addDup hat
  | addStore f newN new => exact h.step_addStore hat
  | addCount f newN => exact h.step_addCount hat
  | addReturn f => exact h.step_addReturn hat
  | cleanTest sig i => exact h.step_cleanTest hat
  | cleanRemove sig i => exact h.step_cleanRemove hat
  | cleanCount sig i => exact h.step_cleanCount hat
  | cleanFree sig i => exact h.step_cleanFree hat
  | cleanNull sig i => exact h.step_cleanNull hat

theorem Good.move (h : s.Good) (m : Move) : ∃ s', s.move m = .ok s' ∧ s'.Good := by
  have hgood := h
  obtain ⟨addrs, names, hinv, -⟩ := hgood
  cases m with
  | add f =>
    by_cases hidle : s.pc = .idle
    · exact ⟨_, if_pos hidle, hinv.good trivial⟩
    · exact ⟨s, if_neg hidle, h⟩
  | clean =>
    by_cases hidle : s.pc = .idle
    · exact ⟨_, if_pos hidle, hinv.good hinv.count⟩
    · exact ⟨s, if_neg hidle, h⟩
  | step reply => exact h.step reply

theorem Good.moves (h : s.Good) (moves : List Move) :
    ∃ s', moves.foldlM CleanupState.move s = .ok s' ∧ s'.Good := by
  induction moves generalizing s with
  | nil => exact ⟨s, rfl, h⟩
  | cons m moves ih =>
    obtain ⟨s₁, hmove, hgood⟩ := h.move m
    obtain ⟨s', hmoves, hgood'⟩ := ih hgood
    refine ⟨s', ?_, hgood'⟩
    rw [foldlM_cons, hmove]
    exact hmoves

/-- The program starts with no array. -/
theorem good_init : Good {} := by
  refine ⟨[], [], ?_, trivial⟩
  constructor
  case logged => exact ⟨rfl, by simp, by simp⟩
  case count => rfl
  case strings => rfl
  case nodup => exact nodup_nil
  case below => simp
  case fresh => exact fun _ _ => rfl
  case room => exact le_rfl
  case array => exact .inl ⟨rfl, rfl⟩

/-- **The handler removes what is counted, whenever it is started.** The program makes any
moves, and none of them is a fault. Then the handler comes to its end, and what it tries to
remove are the names that were counted and not dropped, from the last to the first one. Nothing
is left over for which `dcc_add_cleanup` returned 0. -/
theorem handler_removes (moves : List Move) :
    ∃ s, moves.foldlM move {} = .ok s ∧
      ∃ s', s.handler = .ok s' ∧ s'.pc = .idle ∧
        s'.attempts = s.attempts ++ s.live.reverse ∧
        ∀ f, .returned f ∈ s.log → f ∈ s'.attempts := by
  obtain ⟨s, hmoves, addrs, names, hinv, -⟩ := good_init.moves moves
  obtain ⟨s', hrun, hidle, hattempts⟩ := hinv.steps_all
  have hlive : s.live = names := hinv.logged.live
  refine ⟨s, hmoves, s', ?_, hidle, hlive ▸ hattempts, ?_⟩
  · rw [handler, hinv.count]
    exact hrun
  · intro f hf
    rw [hattempts, mem_append, mem_reverse]
    obtain hremoved | hmem := hinv.logged.counted f (hinv.logged.returned f hf)
    · exact .inl (mem_filterMap.mpr ⟨_, hremoved, rfl⟩)
    · exact .inr hmem

end Runs

end CleanupState

end Distcc
