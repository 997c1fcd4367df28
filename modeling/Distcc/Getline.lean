import Distcc.Base.Lines
import Distcc.Base.Prog

/-!
# The replacement for `getline`

The model of the `getline` in `src/util.c`, for systems that have none. A buffer that the
caller owns is filled with the bytes of a stream up to a newline, and grows by a hundred bytes
each time that it is full. Every byte is stored in the buffer at an index, and to store one
behind its end is a fault.

There is room for the next byte before it is read, and so there is for the `NUL` if the stream
has come to its end instead. After a newline there was no such check: the `NUL` is stored
behind the buffer if the newline went into its last byte (`Getline.getline_newline`).
Since the sizes go up by hundreds, which lines these are can be told from their lengths and the
size at the beginning (`Getline.linesReturned_iff`).
-/

namespace Distcc.Getline

open List

/-! ### The model -/

/-- What `realloc` does: whether it has so many bytes, and what is in those that are new. -/
structure Memory where
  grants : ℕ → Bool
  junk : ℕ → UInt8

/-- `realloc`, to a size that is not smaller. -/
def Memory.realloc (mem : Memory) (buffer : Option (List UInt8)) (size : ℕ) :
    Option (List UInt8) :=
  let old := buffer.getD []
  if mem.grants size then some (old ++ (List.range (size - old.length)).map mem.junk) else none

/-- `buffer_size_increment` -/
def bufferSizeIncrement : ℕ := 100

/-- What the caller has: `*lineptr`, `*n`, and what is left of the stream. -/
structure Args where
  lineptr : Option (List UInt8)
  n : ℕ
  stream : List UInt8
  deriving DecidableEq

/-- The local variables of `getline`. -/
structure Line where
  buffer : Option (List UInt8)
  size : ℕ
  bytesRead : ℕ

/-- `buffer[i] = c` -/
def store (buffer : Option (List UInt8)) (i : ℕ) (c : UInt8) : Except Fault (List UInt8) :=
  match buffer with
  | none => .error .null
  | some bytes => if i < bytes.length then .ok (bytes.set i c) else .error .bounds

/-- Space for the next character or the `NUL`, if there is memory for it. -/
def ensureRoom (mem : Memory) (l : Line) : Option Line :=
  if l.bytesRead + 1 > l.size then
    (mem.realloc l.buffer (l.size + bufferSizeIncrement)).map fun newBuffer =>
      ⟨some newBuffer, l.size + bufferSizeIncrement, l.bytesRead⟩
  else some l

/-- The loop over the characters of the stream: whether it ended because of a newline or the
end of the stream, and not for lack of memory, with the variables and the rest of the
stream. -/
def fill (mem : Memory) : List UInt8 → Line → Except Fault (Bool × Line × List UInt8)
  | [], l =>
    match ensureRoom mem l with
    | none => .ok (false, l, [])
    | some l => .ok (true, l, [])
  | c :: stream, l =>
    match ensureRoom mem l with
    | none => .ok (false, l, c :: stream)
    | some l =>
      match store l.buffer l.bytesRead c with
      | .error e => .error e
      | .ok bytes =>
        if c = 10 then .ok (true, ⟨some bytes, l.size, l.bytesRead + 1⟩, stream)
        else fill mem stream ⟨some bytes, l.size, l.bytesRead + 1⟩

/-- `getline`, with what it returns. -/
def getline (mem : Memory) (a : Args) : Except Fault (ℤ × Args) :=
  if a.lineptr = none ∧ a.n ≠ 0 then .ok (-1, a)
  else
    match fill mem a.stream ⟨a.lineptr, a.n, 0⟩ with
    | .error e => .error e
    | .ok (false, l, rest) => .ok (-1, ⟨l.buffer, l.size, rest⟩)
    | .ok (true, l, rest) =>
      match store l.buffer l.bytesRead 0 with
      | .error e => .error e
      | .ok bytes =>
        .ok (if l.bytesRead = 0 then -1 else l.bytesRead, ⟨some bytes, l.size, rest⟩)

/-- So many calls, one after the other, and what each of them returned. -/
def calls (mem : Memory) : ℕ → Args → Except Fault (List (ℤ × Args))
  | 0, _ => .ok []
  | k + 1, a =>
    match getline mem a with
    | .error e => .error e
    | .ok r =>
      match calls mem k r.2 with
      | .error e => .error e
      | .ok rs => .ok (r :: rs)

/-! ### What is asked of it -/

/-- `NULL` with the size 0, or a buffer with its size. -/
def Args.Valid (a : Args) : Prop := (a.lineptr.getD []).length = a.n

/-- **A line was returned**, or the end of the stream if the line is empty: it is in the buffer
with a `NUL` behind it, and the two take up `*n` bytes at most. -/
structure Returned (line : CString) (r : ℤ × Args) : Prop where
  value : r.1 = if line = [] then -1 else (line.length : ℤ)
  text : ∃ rest, r.2.lineptr = some (line ++ 0 :: rest)
  room : line.length + 1 ≤ r.2.n

/-! ### Sizes -/

/-- The size of a buffer with room for so many bytes, from the size it had. -/
def growTo (n need : ℕ) : ℕ :=
  if need ≤ n then n else n + (need - n + 99) / 100 * 100

theorem le_growTo (n need : ℕ) : n ≤ growTo n need ∧ need ≤ growTo n need := by
  unfold growTo
  split <;> omega

theorem growTo_mod (n need : ℕ) : growTo n need % 100 = n % 100 := by
  unfold growTo
  split <;> omega

/-- It is the least of the sizes the buffer may grow to. -/
theorem growTo_le_iff {n need m : ℕ} (hle : n ≤ m) (hmod : m % 100 = n % 100) :
    growTo n need ≤ m ↔ need ≤ m := by
  unfold growTo
  split <;> omega

theorem growTo_growTo {n need need' : ℕ} (h : need ≤ need') :
    growTo (growTo n need) need' = growTo n need' := by
  unfold growTo
  grind

/-- The next size is no larger if only one more byte is needed and the buffer is not full. -/
theorem growTo_succ {n need : ℕ} (h : need < growTo n need) :
    growTo n (need + 1) = growTo n need := by
  unfold growTo at *
  grind

/-- A buffer that has grown for so many bytes is full if these are a size it may have. -/
theorem growTo_eq_iff {n need : ℕ} : growTo n need = need ↔ n ≤ need ∧ need % 100 = n % 100 := by
  unfold growTo
  split <;> omega

/-! ### The loop -/

section Loop

variable {mem : Memory} {l : Line} {text t rest : List UInt8}

/-- The text was read into the buffer. -/
structure Line.Has (l : Line) (text : List UInt8) : Prop where
  bytesRead : l.bytesRead = text.length
  size : (l.buffer.getD []).length = l.size
  text : text <+: l.buffer.getD []

theorem Line.Has.length_le (h : l.Has text) : text.length ≤ l.size := h.size ▸ h.text.length_le

theorem ensureRoom_eq (hmem : ∀ size, mem.grants size = true) (h : l.Has text) :
    ∃ l', ensureRoom mem l = some l' ∧ l'.Has text ∧
      l'.size = growTo l.size (text.length + 1) := by
  have hle := h.length_le
  unfold ensureRoom
  split
  case isTrue hfull =>
    rw [h.bytesRead] at hfull
    rw [Memory.realloc, if_pos (hmem _), Option.map_some]
    refine ⟨_, rfl, ?_, ?_⟩
    · refine ⟨h.bytesRead, ?_, h.text.trans (prefix_append ..)⟩
      simp only [Option.getD_some, length_append, length_map, length_range, h.size]
      omega
    · simp only [growTo, bufferSizeIncrement]
      rw [if_neg (by omega)]
      omega
  case isFalse hroom =>
    rw [h.bytesRead] at hroom
    exact ⟨l, rfl, h, (if_pos (by omega)).symm⟩

/-- A byte is stored behind the text. -/
theorem store_eq (h : l.Has text) (hroom : text.length < l.size) (c : UInt8) :
    ∃ rest, store l.buffer l.bytesRead c = .ok (text ++ c :: rest) ∧
      (text ++ c :: rest).length = l.size := by
  obtain ⟨hread, hsize, htext⟩ := h
  cases hbuffer : l.buffer with
  | none =>
    rw [hbuffer] at hsize
    exact absurd hroom (by rw [← hsize]; exact Nat.not_lt_zero _)
  | some bytes =>
    rw [hbuffer, Option.getD_some] at hsize htext
    obtain ⟨tail, rfl⟩ := htext
    obtain ⟨b, rest, rfl⟩ : ∃ b rest, tail = b :: rest := exists_cons_of_length_pos (by
      rw [length_append] at hsize
      omega)
    refine ⟨rest, ?_, ?_⟩
    · rw [store, hread, if_pos (by omega), set_append_right _ _ le_rfl, Nat.sub_self]
      rfl
    · simpa using hsize

theorem store_full (h : l.Has text) (hfull : text.length = l.size) (c : UInt8) :
    ∃ e, store l.buffer l.bytesRead c = .error e := by
  obtain ⟨hread, hsize, -⟩ := h
  cases hbuffer : l.buffer with
  | none => exact ⟨.null, rfl⟩
  | some bytes =>
    rw [hbuffer, Option.getD_some] at hsize
    exact ⟨.bounds, if_neg (by omega)⟩

variable (hmem : ∀ size, mem.grants size = true)
include hmem

/-- **A turn of the loop**: there is room for the next byte, and it is stored. -/
theorem fill_cons (h : l.Has text) (c : UInt8) (stream : List UInt8) :
    ∃ l', l'.Has (text ++ [c]) ∧ l'.size = growTo l.size (text ++ [c]).length ∧
      fill mem (c :: stream) l = if c = 10 then .ok (true, l', stream) else fill mem stream l' := by
  obtain ⟨l₁, hensure, h1, hsize⟩ := ensureRoom_eq hmem h
  have hroom : text.length < l₁.size := hsize ▸ (le_growTo ..).2
  obtain ⟨tail, hstore, hlength⟩ := store_eq h1 hroom c
  refine ⟨⟨some (text ++ c :: tail), l₁.size, l₁.bytesRead + 1⟩, ⟨?_, hlength, ?_⟩, ?_, ?_⟩
  · rw [length_append, h1.bytesRead]
    rfl
  · exact ⟨tail, by rw [append_assoc]; rfl⟩
  · rw [length_append, length_singleton]
    exact hsize
  · rw [fill, hensure]
    dsimp only
    rw [hstore]

theorem fill_newline (h : l.Has text) (ht : 10 ∉ t) :
    ∃ l', fill mem (t ++ 10 :: rest) l = .ok (true, l', rest) ∧ l'.Has (text ++ (t ++ [10])) ∧
      l'.size = growTo l.size (text ++ (t ++ [10])).length := by
  induction t generalizing l text with
  | nil =>
    obtain ⟨l', h', hsize, hfill⟩ := fill_cons hmem h 10 rest
    exact ⟨l', hfill.trans (if_pos rfl), h', hsize⟩
  | cons c t ih =>
    obtain ⟨hc, ht⟩ := not_or.mp (mem_cons.not.mp ht)
    obtain ⟨l₁, h1, hsize1, hfill1⟩ := fill_cons hmem h c (t ++ 10 :: rest)
    obtain ⟨l', hfill, h', hsize⟩ := ih h1 ht
    have htext : text ++ [c] ++ (t ++ [10]) = text ++ (c :: t ++ [10]) := by simp
    rw [htext] at h' hsize
    refine ⟨l', (hfill1.trans (if_neg (Ne.symm hc))).trans hfill, h', ?_⟩
    rw [hsize, hsize1, growTo_growTo (by simp)]

theorem fill_end (h : l.Has text) (ht : 10 ∉ t) :
    ∃ l', fill mem t l = .ok (true, l', []) ∧ l'.Has (text ++ t) ∧
      l'.size = growTo l.size ((text ++ t).length + 1) := by
  induction t generalizing l text with
  | nil =>
    obtain ⟨l', hensure, h', hsize⟩ := ensureRoom_eq hmem h
    rw [append_nil]
    refine ⟨l', ?_, h', hsize⟩
    rw [fill, hensure]
  | cons c t ih =>
    obtain ⟨hc, ht⟩ := not_or.mp (mem_cons.not.mp ht)
    obtain ⟨l₁, h1, hsize1, hfill1⟩ := fill_cons hmem h c t
    obtain ⟨l', hfill, h', hsize⟩ := ih h1 ht
    have htext : text ++ [c] ++ t = text ++ c :: t := by simp
    rw [htext] at h' hsize
    refine ⟨l', (hfill1.trans (if_neg (Ne.symm hc))).trans hfill, h', ?_⟩
    rw [hsize, hsize1, growTo_growTo (by simp)]

end Loop

/-! ### A call -/

section Call

variable {mem : Memory} {a : Args} {t rest : List UInt8}

theorem Args.Valid.has (h : a.Valid) : (Line.mk a.lineptr a.n 0).Has [] :=
  ⟨rfl, h, nil_prefix⟩

/-- The parameters are not refused. -/
theorem Args.Valid.accepted (h : a.Valid) : ¬(a.lineptr = none ∧ a.n ≠ 0) := by
  rintro ⟨hnull, hn⟩
  rw [Args.Valid, hnull] at h
  exact hn h.symm

/-- When the loop is done: the `NUL` is stored if there is room for it. -/
theorem getline_filled {l : Line} {line : CString} (hvalid : a.Valid)
    (hfill : fill mem a.stream ⟨a.lineptr, a.n, 0⟩ = .ok (true, l, rest)) (h : l.Has line)
    (hroom : line.length < l.size) :
    ∃ r, getline mem a = .ok r ∧ Returned line r ∧ r.2.Valid ∧ r.2.n = l.size ∧
      r.2.stream = rest := by
  obtain ⟨tail, hstore, hlength⟩ := store_eq h hroom 0
  refine ⟨(if line = [] then -1 else (line.length : ℤ), ⟨some (line ++ 0 :: tail), l.size, rest⟩),
    ?_, ⟨rfl, ⟨tail, rfl⟩, hroom⟩, hlength, rfl, rfl⟩
  rw [getline, if_neg hvalid.accepted, hfill]
  dsimp only
  rw [hstore, h.bytesRead]
  simp only [length_eq_zero_iff]

/-- **A line with a newline**: it is returned, unless its length is a size the buffer grows to,
or has. -/
theorem getline_newline (hmem : ∀ size, mem.grants size = true) (hvalid : a.Valid)
    (hstream : a.stream = t ++ 10 :: rest) (ht : 10 ∉ t) :
    if a.n ≤ (t ++ [10]).length ∧ (t ++ [10]).length % 100 = a.n % 100 then
      ∃ e, getline mem a = .error e
    else
      ∃ r, getline mem a = .ok r ∧ Returned (t ++ [10]) r ∧ r.2.Valid ∧
        r.2.n = growTo a.n ((t ++ [10]).length + 1) ∧ r.2.stream = rest := by
  obtain ⟨l, hfill, h, hsize⟩ := @fill_newline mem _ [] t rest hmem hvalid.has ht
  rw [← hstream] at hfill
  rw [nil_append] at h hsize
  dsimp only at hsize
  split
  case isTrue hfull =>
    obtain ⟨e, he⟩ := store_full h (hsize.trans (growTo_eq_iff.mpr hfull)).symm 0
    refine ⟨e, ?_⟩
    rw [getline, if_neg hvalid.accepted, hfill]
    dsimp only
    rw [he]
  case isFalse hroom =>
    have hlt : (t ++ [10]).length < growTo a.n (t ++ [10]).length :=
      lt_of_le_of_ne (le_growTo ..).2 fun heq => hroom (growTo_eq_iff.mp heq.symm)
    rw [growTo_succ hlt, ← hsize]
    exact getline_filled hvalid hfill h (hsize ▸ hlt)

/-- **The end of the stream**, after some text or at once. -/
theorem getline_end (hmem : ∀ size, mem.grants size = true) (hvalid : a.Valid)
    (ht : 10 ∉ a.stream) :
    ∃ r, getline mem a = .ok r ∧ Returned a.stream r ∧ r.2.Valid ∧
      r.2.n = growTo a.n (a.stream.length + 1) ∧ r.2.stream = [] := by
  obtain ⟨l, hfill, h, hsize⟩ := @fill_end mem _ [] a.stream hmem hvalid.has ht
  rw [nil_append] at h hsize
  dsimp only at hsize
  rw [← hsize]
  exact getline_filled hvalid hfill h (hsize ▸ (le_growTo ..).2)

end Call

/-! ### All calls -/

section Calls

variable {mem : Memory} {a : Args} {n k : ℕ} {lines : List CString} {line : CString}
  {rs : List (ℤ × Args)}

/-- **Each line leaves room for the `NUL`**: one that ends in a newline, and is longer than the
lines before it, does not fill a buffer that has grown from `n` bytes by hundreds. -/
def LeavesRoom (n : ℕ) (lines : List CString) : Prop :=
  ∀ pre line post, lines = pre ++ line :: post → line.getLast? = some 10 → n ≤ line.length →
    line.length % 100 = n % 100 → ∃ earlier ∈ pre, line.length ≤ earlier.length

theorem leavesRoom_nil : LeavesRoom n [] := fun pre line post h =>
  absurd h.symm (append_ne_nil_of_right_ne_nil pre (cons_ne_nil line post))

/-- The first line is as it should be, and the others are for the size there is then. -/
theorem leavesRoom_cons_iff : LeavesRoom n (line :: lines) ↔
      ¬(line.getLast? = some 10 ∧ n ≤ line.length ∧ line.length % 100 = n % 100) ∧
        LeavesRoom (growTo n (line.length + 1)) lines := by
  obtain ⟨hle, hroom⟩ := le_growTo n (line.length + 1)
  have hmod := growTo_mod n (line.length + 1)
  constructor
  · intro h
    refine ⟨fun ⟨hnewline, hn, hfull⟩ => ?_, fun pre later post hlines hnewline hn hfull => ?_⟩
    · obtain ⟨_, hmem, -⟩ := h [] line lines rfl hnewline hn hfull
      exact not_mem_nil hmem
    · obtain ⟨earlier, hmem, hlonger⟩ := h (line :: pre) later post (congrArg _ hlines) hnewline
        (by omega) (hfull.trans hmod)
      obtain rfl | hmem := mem_cons.mp hmem
      · omega
      · exact ⟨earlier, hmem, hlonger⟩
  · rintro ⟨hfirst, hothers⟩ pre later post hlines hnewline hn hfull
    cases pre with
    | nil =>
      obtain ⟨rfl, -⟩ := List.cons.inj hlines
      exact absurd ⟨hnewline, hn, hfull⟩ hfirst
    | cons first pre =>
      obtain ⟨rfl, htail⟩ := List.cons.inj hlines
      by_cases hlonger : later.length ≤ line.length
      · exact ⟨line, mem_cons_self, hlonger⟩
      · obtain ⟨earlier, hmem, hlonger⟩ := hothers pre later post htail hnewline
          ((growTo_le_iff hn hfull).mpr (by omega)) (hfull.trans hmod.symm)
        exact ⟨earlier, mem_cons_of_mem _ hmem, hlonger⟩

/-- The results of some calls: each is that of a line, and from the last line on there are
none. -/
def AllReturned (lines : List CString) (rs : List (ℤ × Args)) : Prop :=
  ∀ i r, rs[i]? = some r → Returned (lines.getD i []) r

theorem allReturned_cons_iff {r : ℤ × Args} :
    AllReturned (line :: lines) (r :: rs) ↔ Returned line r ∧ AllReturned lines rs := by
  constructor
  · intro h
    exact ⟨h 0 r rfl, fun i r' hr' => h (i + 1) r' hr'⟩
  · rintro ⟨hr, hrs⟩ i r' hr'
    cases i with
    | zero => exact (Option.some.inj hr') ▸ hr
    | succ i => exact hrs i r' hr'

/-- After the last line there are empty ones. -/
theorem allReturned_nil_iff : AllReturned [] rs ↔ AllReturned [[]] rs := by
  have hlines (i : ℕ) : ([] : List CString).getD i [] = [[]].getD i [] := by cases i <;> rfl
  unfold AllReturned
  simp only [hlines]

/-- The calls go on after the first one. -/
theorem calls_succ {r : ℤ × Args} (h : getline mem a = .ok r) (hr : Returned line r) :
    (∃ rs, calls mem (k + 1) a = .ok rs ∧ rs.length = k + 1 ∧ AllReturned (line :: lines) rs) ↔
      ∃ rs, calls mem k r.2 = .ok rs ∧ rs.length = k ∧ AllReturned lines rs := by
  rw [calls, h]
  dsimp only
  constructor
  · rintro ⟨rs, hcalls, hlength, hall⟩
    split at hcalls
    · cases hcalls
    · case h_2 rs' hcalls' =>
      obtain rfl := Except.ok.inj hcalls
      exact ⟨rs', hcalls', Nat.succ.inj hlength, (allReturned_cons_iff.mp hall).2⟩
  · rintro ⟨rs, hcalls, hlength, hall⟩
    rw [hcalls]
    exact ⟨r :: rs, rfl, congrArg _ hlength, allReturned_cons_iff.mpr ⟨hr, hall⟩⟩

/-- A last line without a newline leaves room. -/
theorem leavesRoom_of_not_mem (h : ∀ line ∈ lines, 10 ∉ line) : LeavesRoom n lines :=
  fun _ line _ hlines hnewline =>
    absurd (mem_of_getLast? hnewline) (h line (hlines ▸ mem_append_cons_self))

/-- **The lines of the stream are returned, if each of them leaves room.** -/
theorem linesReturned_iff (hmem : ∀ size, mem.grants size = true) (hvalid : a.Valid) (k : ℕ) :
    (∃ rs, calls mem k a = .ok rs ∧ rs.length = k ∧ AllReturned (rawFrom a.stream []) rs) ↔
      LeavesRoom a.n ((rawFrom a.stream []).take k) := by
  induction k generalizing a with
  | zero =>
    rw [take_zero]
    exact iff_of_true ⟨[], rfl, rfl, fun i r h => by simp at h⟩ leavesRoom_nil
  | succ k ih =>
    obtain ht | ⟨t, rest, hstream, ht⟩ := CString.first_cases 10 a.stream
    · obtain ⟨r, hcall, hreturned, hvalid', hsize, hrest⟩ := getline_end hmem hvalid ht
      have hlater := ih hvalid'
      rw [hrest, rawFrom, if_pos rfl, take_nil, iff_true_right leavesRoom_nil] at hlater
      have hall := (calls_succ hcall hreturned).mpr hlater
      by_cases hnil : a.stream = []
      · rw [hnil] at hall ⊢
        obtain ⟨rs, hcalls, hlength, hrs⟩ := hall
        exact iff_of_true ⟨rs, hcalls, hlength, allReturned_nil_iff.mpr hrs⟩ leavesRoom_nil
      · rw [rawFrom_end ht hnil]
        refine iff_of_true hall (leavesRoom_of_not_mem fun line hline => ?_)
        rwa [mem_singleton.mp (mem_of_mem_take hline)]
    · have hcall := getline_newline hmem hvalid hstream ht
      have hlines : rawFrom a.stream [] = (t ++ [10]) :: rawFrom rest [] := by
        rw [hstream, rawFrom_newline ht, nil_append]
      rw [hlines, take_succ_cons, leavesRoom_cons_iff]
      split at hcall
      case isTrue hfull =>
        obtain ⟨e, he⟩ := hcall
        refine iff_of_false ?_ fun h => h.1 ⟨getLast?_concat, hfull⟩
        rintro ⟨rs, hcalls, -⟩
        rw [calls, he] at hcalls
        cases hcalls
      case isFalse hroom =>
        obtain ⟨r, hok, hreturned, hvalid', hsize, hrest⟩ := hcall
        rw [calls_succ hok hreturned, ← hsize, and_iff_right fun h => hroom h.2, ← hrest]
        exact ih hvalid'

end Calls

/-! ### Two streams -/

/-- There is always memory. -/
def enough : Memory where
  grants _ := true
  junk _ := 0

theorem linesReturned_iff_twoLines :
    ∃ rs, calls enough 3 ⟨none, 0, CString.lit "one\ntwo"⟩ = .ok rs ∧ rs.length = 3 ∧
      AllReturned (rawFrom (CString.lit "one\ntwo") []) rs := by
  have hvalid : Args.Valid ⟨none, 0, CString.lit "one\ntwo"⟩ := rfl
  refine (linesReturned_iff (fun _ => rfl) hvalid 3).mpr ?_
  have hlines : (rawFrom (CString.lit "one\ntwo") []).take 3 =
      [CString.lit "one\n", CString.lit "two"] := by decide
  rw [hlines, leavesRoom_cons_iff, leavesRoom_cons_iff]
  exact ⟨by decide, by decide, leavesRoom_nil⟩

/-- A line of a hundred bytes, with its newline. -/
def hundredBytes : CString := List.replicate 99 97 ++ [10]

/-- **The `NUL` does not fit**: from no buffer at all, a line of a hundred bytes gets one of its
own length. -/
theorem hundredBytes_not_returned :
    ¬∃ rs, calls enough 1 ⟨none, 0, hundredBytes⟩ = .ok rs ∧ rs.length = 1 ∧
      AllReturned (rawFrom hundredBytes []) rs := by
  have ht : 10 ∉ List.replicate 99 (97 : UInt8) := fun h =>
    absurd (eq_of_mem_replicate h) (by decide)
  have hcall := @getline_newline enough ⟨none, 0, hundredBytes⟩ _ [] (fun _ => rfl) rfl rfl ht
  rw [if_pos (by simp)] at hcall
  obtain ⟨e, he⟩ := hcall
  rintro ⟨rs, hcalls, -⟩
  rw [calls, he] at hcalls
  cases hcalls

end Distcc.Getline
