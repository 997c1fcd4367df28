import Distcc.Base.CString
import Distcc.Base.Prog

/-!
# Strings that are changed in place

A buffer is a number of bytes, and a string in it goes from some place up to the next NUL.
The functions of `<string.h>` that read and write such a buffer are computations on it
(`Buffer`), and to go beyond its end is a fault.

Two things are done with an occurrence of a string that was found in the buffer: the rest of
the text is moved so that there is room for another string (`Buffer.memmove_tail`), and
the other string is written there (`Buffer.write_eq`). On the text, that is to replace
the first occurrence (`CString.replaceFirst`). Doing so again behind the place of the
occurrence, with nothing to be written, deletes all of them from the left to the right
(`CString.eraseAll`).
-/

namespace Distcc

open List

namespace CString

/-! ### Occurrences of a string -/

/-- `strstr`: where the first occurrence of `needle` is. -/
def strstr (needle : CString) : CString → Option ℕ
  | [] => if needle = [] then some 0 else none
  | b :: hay => if needle.isPrefixOf (b :: hay) then some 0 else (strstr needle hay).map (· + 1)

/-- The text with the first occurrence of `needle` replaced. -/
def replaceFirst (needle new : CString) : CString → CString
  | [] => if needle = [] then new else []
  | b :: hay =>
    if needle.isPrefixOf (b :: hay) then new ++ (b :: hay).drop needle.length
    else b :: replaceFirst needle new hay

/-- The text without the occurrences of `needle`, the first bytes being part of one already. -/
def eraseFrom (needle : CString) : ℕ → CString → CString
  | _, [] => []
  | k + 1, _ :: hay => eraseFrom needle k hay
  | 0, b :: hay =>
    if needle.isPrefixOf (b :: hay) then eraseFrom needle (needle.length - 1) hay
    else b :: eraseFrom needle 0 hay

/-- The text without the occurrences of `needle`, which are looked for from the left to the
right and do not overlap. -/
def eraseAll (needle hay : CString) : CString := eraseFrom needle 0 hay

section Occurrences

variable {needle : CString}

theorem eraseFrom_append (skip post : CString) :
    eraseFrom needle skip.length (skip ++ post) = eraseAll needle post := by
  induction skip with
  | nil => rfl
  | cons b skip ih => exact ih

/-- An occurrence at the beginning. -/
theorem eraseAll_append (hne : needle ≠ []) (post : CString) :
    eraseAll needle (needle ++ post) = eraseAll needle post := by
  obtain ⟨b, tail, rfl⟩ := exists_cons_of_ne_nil hne
  rw [← eraseFrom_append tail post]
  exact if_pos (List.isPrefixOf_iff_prefix.mpr (prefix_append ..))

/-- **The first occurrence**, if there is one, and what becomes of the text. -/
theorem strstr_cases (hne : needle ≠ []) (hay : CString) :
    (strstr needle hay = none ∧ (∀ new, replaceFirst needle new hay = hay) ∧
      eraseAll needle hay = hay) ∨
    ∃ pre post, hay = pre ++ (needle ++ post) ∧ strstr needle hay = some pre.length ∧
      (∀ new, replaceFirst needle new hay = pre ++ (new ++ post)) ∧
      eraseAll needle hay = pre ++ eraseAll needle post := by
  induction hay with
  | nil => exact .inl ⟨if_neg hne, fun new => if_neg hne, rfl⟩
  | cons b hay ih =>
    by_cases hstart : needle.isPrefixOf (b :: hay)
    · obtain ⟨post, hpost⟩ := isPrefixOf_iff_prefix.mp hstart
      refine .inr ⟨[], post, hpost.symm, if_pos hstart, fun new => ?_, ?_⟩
      · rw [replaceFirst, if_pos hstart, ← hpost, drop_left]
        rfl
      · rw [← hpost, eraseAll_append hne]
        rfl
    · obtain ⟨hnone, hreplace, herase⟩ | ⟨pre, post, rfl, hsome, hreplace, herase⟩ := ih
      · refine .inl ⟨?_, fun new => ?_, ?_⟩
        · rw [strstr, if_neg hstart, hnone, Option.map_none]
        · rw [replaceFirst, if_neg hstart, hreplace]
        · exact (if_neg hstart).trans (congrArg (b :: ·) herase)
      · refine .inr ⟨b :: pre, post, rfl, ?_, fun new => ?_, ?_⟩
        · rw [strstr, if_neg hstart, hsome, Option.map_some, length_cons]
        · rw [replaceFirst, if_neg hstart, hreplace, cons_append]
        · exact (if_neg hstart).trans (congrArg (b :: ·) herase)

theorem NulFree.replaceFirst {new hay : CString} (hhay : hay.NulFree) (hnew : new.NulFree)
    (hne : needle ≠ []) : (CString.replaceFirst needle new hay).NulFree := by
  obtain ⟨-, heq, -⟩ | ⟨pre, post, rfl, -, heq, -⟩ := strstr_cases hne hay
  · exact (heq new).symm ▸ hhay
  · rw [heq]
    intro b hb
    simp only [mem_append] at hb
    obtain hb | hb | hb := hb
    · exact hhay b (by simp [hb])
    · exact hnew b hb
    · exact hhay b (by simp [hb])

/-- Nothing is added. -/
theorem eraseFrom_sublist (k : ℕ) (hay : CString) : (eraseFrom needle k hay).Sublist hay := by
  induction hay generalizing k with
  | nil => cases k <;> exact nil_sublist _
  | cons b hay ih =>
    cases k with
    | zero =>
      rw [eraseFrom]
      split
      · exact (ih _).cons b
      · exact (ih 0).cons_cons b
    | succ k => exact (ih k).cons b

end Occurrences

end CString

/-! ### Buffers -/

/-- A buffer of `size` bytes. -/
structure Buffer (size : ℕ) where
  bytes : List UInt8
  length_eq : bytes.length = size

namespace Buffer

variable {size : ℕ}

/-- Some bytes of the buffer are written over. -/
def splice (buf : Buffer size) (i : ℕ) (text : List UInt8) (h : i + text.length ≤ size) :
    Buffer size where
  bytes := buf.bytes.take i ++ (text ++ buf.bytes.drop (i + text.length))
  length_eq := by
    have hlen := buf.length_eq
    simp only [length_append, length_take, length_drop]
    omega

/-- `memcpy`, of bytes that are not in the buffer. -/
def write (i : ℕ) (text : List UInt8) : Prog (Buffer size) Fault Unit :=
  if h : i + text.length ≤ size then Prog.modify fun buf => buf.splice i text h
  else Prog.fail .bounds

/-- `memmove`, from one place in the buffer to another. -/
def memmove (dst src n : ℕ) : Prog (Buffer size) Fault Unit := do
  let buf ← Prog.get
  if src + n ≤ size then write dst ((buf.bytes.drop src).take n)
  else Prog.fail .bounds

/-- The string that starts at `i`. -/
def stringAt (i : ℕ) : Prog (Buffer size) Fault CString := do
  let buf ← Prog.get
  if 0 ∈ buf.bytes.drop i then pure (CString.ofBuffer (buf.bytes.drop i))
  else Prog.fail .bounds

/-- `strlen` -/
def strlen (i : ℕ) : Prog (Buffer size) Fault ℕ := do
  let s ← stringAt i
  pure s.length

/-- `strstr`, as a place in the buffer. -/
def strstr (i : ℕ) (needle : CString) : Prog (Buffer size) Fault (Option ℕ) := do
  let s ← stringAt i
  pure ((CString.strstr needle s).map (i + ·))

section Access

variable {buf : Buffer size} {pre text rest : List UInt8} {s : CString}

/-- Bytes are written over by as many others. -/
theorem write_eq {old : List UInt8} (hbytes : buf.bytes = pre ++ (old ++ rest))
    (hlen : old.length = text.length) :
    ∃ buf', write pre.length text buf = some (.ok (), buf') ∧
      buf'.bytes = pre ++ (text ++ rest) := by
  have hsize := buf.length_eq
  rw [hbytes, length_append, length_append, hlen] at hsize
  have hroom : pre.length + text.length ≤ size := by omega
  refine ⟨buf.splice pre.length text hroom, by rw [write, dif_pos hroom]; rfl, ?_⟩
  have hdrop : (pre ++ (old ++ rest)).drop (pre.length + text.length) = rest := by
    rw [← append_assoc, ← hlen, ← length_append, drop_left]
  show buf.bytes.take pre.length ++ (text ++ buf.bytes.drop (pre.length + text.length)) = _
  rw [hbytes, take_left, hdrop]

/-- The string at a place in the buffer. -/
theorem stringAt_eq (hbytes : buf.bytes = pre ++ (s ++ 0 :: rest)) (hs : s.NulFree) :
    stringAt pre.length buf = some (.ok s, buf) := by
  have hdrop : buf.bytes.drop pre.length = s ++ 0 :: rest := by rw [hbytes, drop_left]
  have hzero : (0 : UInt8) ∈ s ++ 0 :: rest := by simp
  have hstring : CString.ofBuffer (s ++ 0 :: rest) = s := by
    rw [CString.ofBuffer, takeWhile_append_of_pos fun b hb => by simpa using hs b hb]
    simp
  rw [stringAt, Prog.get_bind, hdrop, if_pos hzero, hstring]
  rfl

theorem strlen_eq (hbytes : buf.bytes = pre ++ (s ++ 0 :: rest)) (hs : s.NulFree) :
    strlen pre.length buf = some (.ok s.length, buf) :=
  Prog.bind_of_ok (stringAt_eq hbytes hs)

/-- **The end of a string is moved** so that there are `k` bytes between it and what is in
front of it, where `old` was. -/
theorem memmove_tail {old post : CString}
    (hbytes : buf.bytes = pre ++ (old ++ (post ++ 0 :: rest))) {k : ℕ}
    (hroom : pre.length + k + post.length < size) :
    ∃ buf' gap junk, memmove (pre.length + k) (pre.length + old.length) (post.length + 1) buf =
        some (.ok (), buf') ∧
      buf'.bytes = pre ++ (gap ++ (post ++ 0 :: junk)) ∧ gap.length = k := by
  have hsize := buf.length_eq
  rw [hbytes] at hsize
  simp only [length_append, length_cons] at hsize
  have htext : (buf.bytes.drop (pre.length + old.length)).take (post.length + 1) = post ++ [0] := by
    rw [hbytes, ← append_assoc, ← length_append, drop_left, append_cons]
    exact take_left' (length_append ..)
  have hfits : pre.length + k + (post ++ [0]).length ≤ size := by
    rw [length_append, length_singleton]
    omega
  have htake : buf.bytes.take (pre.length + k) = pre ++ (buf.bytes.drop pre.length).take k := by
    rw [hbytes, drop_left, take_append, take_of_length_le (Nat.le_add_right ..),
      Nat.add_sub_cancel_left]
  refine ⟨buf.splice (pre.length + k) (post ++ [0]) hfits, (buf.bytes.drop pre.length).take k,
    buf.bytes.drop (pre.length + k + (post ++ [0]).length), ?_, ?_, ?_⟩
  · rw [memmove, Prog.get_bind, if_pos (by omega), htext, write, dif_pos hfits]
    rfl
  · show buf.bytes.take (pre.length + k) ++ _ = _
    rw [htake]
    simp only [append_assoc, singleton_append]
  · rw [length_take, length_drop, buf.length_eq]
    omega

theorem strstr_eq {needle : CString} (hbytes : buf.bytes = pre ++ (s ++ 0 :: rest))
    (hs : s.NulFree) : strstr pre.length needle buf =
      some (.ok ((CString.strstr needle s).map (pre.length + ·)), buf) :=
  Prog.bind_of_ok (stringAt_eq hbytes hs)

end Access

end Buffer

end Distcc
