import Mathlib.Data.List.TakeWhile

/-!
# Strings of bytes, as the C library reads them

A C string is modelled by the list of its bytes, the terminating NUL left out.
This file gives the handful of `<string.h>` functions a program walks such
strings with, over nothing but lists: searching for the last occurrence of a
byte (`CString.strrchr`), and testing for a head or a tail
(`CString.startsWith`, `CString.endsWith`). A name made of fields joined by a byte
determines them, from the right, as long as they are free of it
(`CString.append_cons_inj`), and from the left, a field that is free of separators is
found again (`CString.span_free`).

A buffer that came from elsewhere may hold NULs of its own, and a C function
reading it as a string stops at the first of them: that is `CString.ofBuffer`,
and on the bytes of a string it is the identity
(`CString.ofBuffer_eq_self`).
-/

namespace Distcc

open List

/-- A string of bytes: a C string without its terminating NUL, or a buffer. -/
abbrev CString := List UInt8

namespace CString

/-- The bytes of an ASCII literal. -/
def lit (s : String) : CString := s.toList.map fun c => c.toNat.toUInt8

/-- What a C function reading `buf` as a string sees of it. -/
def ofBuffer (buf : CString) : CString := buf.takeWhile (· ≠ 0)

instance lawfulBEqBytes : LawfulBEq (List UInt8) := inferInstance

/-- What holds for all bytes of a string is decided by looking at these, and not at all bytes
that there are. -/
instance decidableForallMem (s : CString) (P : UInt8 → Prop) [DecidablePred P] :
    Decidable (∀ b ∈ s, P b) := List.decidableBAll P s

instance decidableForallMemOption (o : Option UInt8) (P : UInt8 → Prop) [DecidablePred P] :
    Decidable (∀ b ∈ o, P b) := Option.decidableForallMem o

instance decidableExistsMem (s : CString) (P : UInt8 → Prop) [DecidablePred P] :
    Decidable (∃ b ∈ s, P b) := List.decidableBEx P s

/-- The bytes of a C string: none of them is NUL. -/
def NulFree (s : CString) : Prop := ∀ b ∈ s, b ≠ 0
deriving Decidable

variable {s : CString}

theorem ofBuffer_eq_self (h : s.NulFree) : ofBuffer s = s := by
  refine takeWhile_eq_self_iff.mpr fun b hb => ?_
  simpa using h b hb

/-! ### Bytes -/

/-- `isspace` -/
def isSpace (b : UInt8) : Bool := b = 32 ∨ 9 ≤ b ∧ b ≤ 13

/-- A fact about all bytes is a finite one. -/
theorem forall_byte {P : UInt8 → Prop} (h : ∀ n < 256, P (UInt8.ofNat n)) (b : UInt8) : P b := by
  have hb := h b.toNat b.toNat_lt
  rwa [UInt8.ofNat_toNat] at hb

/-! ### Heads and tails -/

/-- `str_startswith`: does `worm` begin with `head`? -/
def startsWith (head worm : CString) : Bool := head.isPrefixOf worm

/-- `str_endswith`: does `tiger` end with `tail`? -/
def endsWith (tail tiger : CString) : Bool := tail.isSuffixOf tiger

theorem startsWith_iff {head worm : CString} :
    startsWith head worm = true ↔ ∃ t, worm = head ++ t := by
  rw [startsWith, isPrefixOf_iff_prefix]
  constructor
  · rintro ⟨t, rfl⟩
    exact ⟨t, rfl⟩
  · rintro ⟨t, rfl⟩
    exact ⟨t, rfl⟩

theorem endsWith_iff {tail tiger : CString} :
    endsWith tail tiger = true ↔ ∃ t, tiger = t ++ tail := by
  rw [endsWith, isSuffixOf_iff_suffix]
  constructor
  · rintro ⟨t, rfl⟩
    exact ⟨t, rfl⟩
  · rintro ⟨t, rfl⟩
    exact ⟨t, rfl⟩

/-- `strstr`, as a test: does `needle` occur in `hay`? -/
def contains (needle : CString) : CString → Bool
  | [] => needle.isPrefixOf []
  | b :: hay => needle.isPrefixOf (b :: hay) || contains needle hay

/-! ### The first and the last occurrence of a byte -/

/-- `strchr`: what is left of `s` from the first occurrence of `c` on. -/
def strchr (c : UInt8) : CString → Option CString
  | [] => none
  | b :: s => if b = c then some (b :: s) else strchr c s

variable {c : UInt8}

theorem strchr_eq_none (h : c ∉ s) : strchr c s = none := by
  induction s with
  | nil => rfl
  | cons b s ih =>
    rw [mem_cons, not_or] at h
    rw [strchr, if_neg (Ne.symm h.1), ih h.2]

theorem strchr_append_cons {p : CString} (hp : c ∉ p) (u : CString) :
    strchr c (p ++ c :: u) = some (c :: u) := by
  induction p with
  | nil => exact if_pos rfl
  | cons b p ih =>
    rw [mem_cons, not_or] at hp
    rw [cons_append, strchr, if_neg (Ne.symm hp.1), ih hp.2]

/-- `strrchr`: what is left of `s` from the last occurrence of `c` on. -/
def strrchr (c : UInt8) : CString → Option CString
  | [] => none
  | b :: s =>
    match strrchr c s with
    | some t => some t
    | none => if b = c then some (b :: s) else none

theorem strrchr_eq_none_iff : strrchr c s = none ↔ c ∉ s := by
  induction s with
  | nil => simp [strrchr]
  | cons b s ih =>
    cases h : strrchr c s with
    | some t =>
      have hmem : c ∈ s := by
        by_contra hc
        rw [ih.mpr hc] at h
        cases h
      simp [strrchr, h, hmem]
    | none =>
      have hmem : c ∉ s := ih.mp h
      by_cases hb : b = c
      · simp [strrchr, h, hb]
      · simp [strrchr, h, hb, hmem, Ne.symm hb]

/-- The last occurrence splits the string: what follows it is free of `c`. -/
theorem strrchr_eq_some {s t : CString} (h : strrchr c s = some t) :
    ∃ p u, s = p ++ t ∧ t = c :: u ∧ c ∉ u := by
  induction s with
  | nil => simp [strrchr] at h
  | cons b s ih =>
    cases hs : strrchr c s with
    | some t' =>
      rw [strrchr, hs] at h
      obtain rfl : t' = t := by simpa using h
      obtain ⟨p, u, hp, hu, hc⟩ := ih hs
      exact ⟨b :: p, u, by simp [hp], hu, hc⟩
    | none =>
      rw [strrchr, hs] at h
      by_cases hb : b = c
      · subst hb
        obtain rfl : b :: s = t := by simpa using h
        exact ⟨[], s, rfl, rfl, strrchr_eq_none_iff.mp hs⟩
      · simp [hb] at h

/-- A byte that stands before a tail free of it is its last occurrence. -/
theorem strrchr_append_cons (p : CString) {u : CString} (hu : c ∉ u) :
    strrchr c (p ++ c :: u) = some (c :: u) := by
  induction p with
  | nil => simp [strrchr, strrchr_eq_none_iff.mpr hu]
  | cons b p ih => simp [strrchr, ih]

/-- Two fields joined by a byte the second of them is free of can be told apart. -/
theorem append_cons_inj {p p' u u' : CString} (hu : c ∉ u) (hu' : c ∉ u') :
    p ++ c :: u = p' ++ c :: u' ↔ p = p' ∧ u = u' := by
  constructor
  · intro h
    have hlast : strrchr c (p ++ c :: u) = strrchr c (p' ++ c :: u') := by rw [h]
    rw [strrchr_append_cons p hu, strrchr_append_cons p' hu'] at hlast
    obtain rfl : u = u' := by simpa using hlast
    exact ⟨append_cancel_right h, rfl⟩
  · rintro ⟨rfl, rfl⟩
    rfl

/-! ### Cutting at separators -/

section Cutting

variable {sep s : CString} {b : UInt8}

theorem takeWhile_free_cons (h : b ∉ sep) :
    (b :: s).takeWhile (· ∉ sep) = b :: s.takeWhile (· ∉ sep) := by
  rw [takeWhile_cons, if_pos (decide_eq_true h)]

theorem dropWhile_free_cons (h : b ∉ sep) :
    (b :: s).dropWhile (· ∉ sep) = s.dropWhile (· ∉ sep) := by
  rw [dropWhile_cons, if_pos (decide_eq_true h)]

theorem mem_of_mem_head?_dropWhile (h : b ∈ (s.dropWhile (· ∉ sep)).head?) : b ∈ sep := by
  have hhead := head?_dropWhile_not (fun b : UInt8 => decide (b ∉ sep)) s
  rw [Option.mem_def.mp h] at hhead
  simpa using hhead

/-- **A field that is free of separators is cut out whole**, up to the next separator. -/
theorem span_free {p rest : CString} (hp : ∀ b ∈ p, b ∉ sep) (hrest : ∀ b ∈ rest.head?, b ∈ sep) :
    (p ++ rest).takeWhile (· ∉ sep) = p ∧ (p ++ rest).dropWhile (· ∉ sep) = rest := by
  have hfree : ∀ b ∈ p, decide (b ∉ sep) = true := fun b hb => decide_eq_true (hp b hb)
  rw [takeWhile_append_of_pos hfree, dropWhile_append_of_pos hfree]
  cases rest with
  | nil => exact ⟨append_nil p, rfl⟩
  | cons c rest =>
    have hc : c ∈ sep := hrest c rfl
    simp [hc]

/-- A string has a first byte of a kind, or none. -/
theorem first_cases (c : UInt8) (s : CString) :
    c ∉ s ∨ ∃ t rest : CString, s = t ++ c :: rest ∧ c ∉ t :=
  or_iff_not_imp_left.mpr fun h => eq_append_cons_of_mem (not_not.mp h)

end Cutting

end CString

end Distcc
