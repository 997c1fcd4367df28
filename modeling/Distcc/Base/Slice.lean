import Mathlib.Data.List.Basic
import Mathlib.Data.Nat.Notation

/-!
# Pieces of a file

Reading a piece of a list (`slice`), and writing one (`splice`). What is written
is read at its place, and everything else is read as before.
-/

namespace Distcc

open List

variable {α : Type} {l l' new : List α} {off n k : ℕ}

/-- The `n` elements from `off` on. -/
def slice (l : List α) (off n : ℕ) : List α := (l.drop off).take n

/-- The list with `new` for what is from `off` on. -/
def splice (l : List α) (off : ℕ) (new : List α) : List α :=
  l.take off ++ new ++ l.drop (off + new.length)

theorem length_slice (h : off + n ≤ l.length) : (slice l off n).length = n := by
  rw [slice, length_take, length_drop]
  omega

theorem length_splice (h : off + new.length ≤ l.length) :
    (splice l off new).length = l.length := by
  rw [splice, length_append, length_append, length_take, length_drop]
  omega

theorem slice_congr (h : ∀ k, off ≤ k → k < off + n → l[k]? = l'[k]?) :
    slice l off n = slice l' off n := by
  apply ext_getElem?
  intro k
  rw [slice, slice, getElem?_take, getElem?_take]
  split_ifs with hk
  · rw [getElem?_drop, getElem?_drop]
    exact h (off + k) (Nat.le_add_right off k) (by omega)
  · rfl

theorem getElem?_splice_of_outside (hnew : off + new.length ≤ l.length)
    (h : k < off ∨ off + new.length ≤ k) : (splice l off new)[k]? = l[k]? := by
  have hoff : off ≤ l.length := by omega
  rcases h with h | h
  · rw [splice, append_assoc, getElem?_append_left
      (by rw [length_take]; omega), getElem?_take, if_pos h]
  · have hlen : (l.take off ++ new).length = off + new.length := by
      rw [length_append, length_take, Nat.min_eq_left hoff]
    rw [splice, getElem?_append_right (hlen.symm ▸ h), hlen, getElem?_drop,
      Nat.add_sub_cancel' h]

theorem slice_succ_eq_cons_iff {a : α} {t : List α} :
    slice l off (n + 1) = a :: t ↔ l[off]? = some a ∧ slice l (off + 1) n = t := by
  rw [slice, slice, ← drop_drop]
  cases hdrop : l.drop off with
  | nil =>
    have hnone : l[off]? = none := getElem?_eq_none (drop_eq_nil_iff.mp hdrop)
    simp [hnone]
  | cons b rest =>
    have hsome : l[off]? = some b := by
      rw [← head?_drop, hdrop]
      rfl
    simp [hsome]

/-- What is written is read. -/
theorem slice_splice_self (h : off ≤ l.length) :
    slice (splice l off new) off new.length = new := by
  have hlen : (l.take off).length = off := by rw [length_take, Nat.min_eq_left h]
  rw [slice, splice, append_assoc, drop_left' hlen, take_left]

/-- What is elsewhere is read as before. -/
theorem slice_splice_of_disjoint {o : ℕ} (hnew : o + new.length ≤ l.length)
    (h : off + n ≤ o ∨ o + new.length ≤ off) : slice (splice l o new) off n = slice l off n := by
  refine slice_congr fun k hk hkn => getElem?_splice_of_outside hnew ?_
  omega

/-- Writing what is there changes nothing. -/
theorem splice_slice (h : off + n ≤ l.length) : splice l off (slice l off n) = l := by
  rw [splice, length_slice h, slice, append_assoc, ← drop_drop,
    take_append_drop, take_append_drop]

theorem slice_add (l : List α) (off n k : ℕ) :
    slice l off (n + k) = slice l off n ++ slice l (off + n) k := by
  rw [slice, slice, slice, take_add, drop_drop]

/-- Writing what is there behind something else. -/
theorem splice_append_slice (hn : new.length = n) (h : off + n + k ≤ l.length) :
    splice l off (new ++ slice l (off + n) k) = splice l off new := by
  have hlen : (slice l (off + n) k).length = k := length_slice h
  have htail : slice l (off + n) k ++ l.drop (off + n + k) = l.drop (off + n) := by
    have hdrop : l.drop (off + n + k) = (l.drop (off + n)).drop k := drop_drop.symm
    rw [slice, hdrop, take_append_drop]
  rw [splice, splice, length_append, hlen, hn, ← Nat.add_assoc,
    ← append_assoc (List.take off l), append_assoc, htail]

end Distcc
