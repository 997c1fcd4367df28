import Mathlib.Algebra.Ring.Int.Defs
import Mathlib.Algebra.Ring.Nat
import Mathlib.Data.Nat.Notation
import Mathlib.Logic.Function.Basic

/-!
# Rings of slots

A ring of `n` slots keeps the last `n` values of a function on the natural numbers: the
value at `s` is in slot `s` modulo `n`. `RingHolds` says up to where the ring was
filled. Writing the next value takes it one step further (`RingHolds.push`), since
the only value that is lost is the oldest one.
-/

namespace Distcc

variable {α : Type} {n : ℕ} [NeZero n]

/-- The ring holds the `n` values of `f` before `top`. -/
def RingHolds (ring : Fin n → α) (f : ℕ → α) (top : ℕ) : Prop :=
  ∀ s < top, top ≤ s + n → ring (Fin.ofNat n s) = f s

theorem ofNat_eq_ofNat_iff {s t : ℕ} : Fin.ofNat n s = Fin.ofNat n t ↔ s % n = t % n :=
  Fin.ext_iff

/-- Two numbers that are in one slot are far apart. -/
theorem eq_of_ofNat_eq {s t : ℕ} (hst : s ≤ t) (hlt : t < s + n)
    (h : Fin.ofNat n s = Fin.ofNat n t) : s = t := by
  rw [ofNat_eq_ofNat_iff] at h
  have hd : (t - s) % n = 0 := Nat.sub_mod_eq_zero_of_mod_eq h.symm
  rw [Nat.mod_eq_of_lt (by omega)] at hd
  omega

theorem ofNat_add_one (s : ℕ) : Fin.ofNat n (s + 1) = Fin.ofNat n s + 1 :=
  Fin.ext (Nat.add_mod s 1 n)

theorem ringHolds_const {v : α} {f : ℕ → α} {top : ℕ} (h : ∀ s < top, top ≤ s + n → f s = v) :
    RingHolds (fun _ : Fin n => v) f top := fun s hs htop => (h s hs htop).symm

namespace RingHolds

variable {ring : Fin n → α} {f g : ℕ → α} {top : ℕ}

variable (h : RingHolds ring f top)
include h

theorem congr (hfg : ∀ s < top, f s = g s) : RingHolds ring g top :=
  fun s hs htop => (h s hs htop).trans (hfg s hs)

/-- **The next value** goes into the slot of the oldest one. -/
theorem push : RingHolds (Function.update ring (Fin.ofNat n top) (f top)) f (top + 1) := by
  intro s hs htop
  by_cases hlast : s = top
  · rw [hlast, Function.update_self]
  · have hne : Fin.ofNat n s ≠ Fin.ofNat n top := fun heq =>
      hlast (eq_of_ofNat_eq (by omega) (by omega) heq)
    rw [Function.update_of_ne hne]
    exact h s (by omega) (by omega)

/-- The value `j` steps back is in the slot `n - j` steps ahead. -/
theorem back {j : ℕ} (hj : 0 < j) (hn : j ≤ n) (htop : j ≤ top) :
    ring (Fin.ofNat n top + Fin.ofNat n (n - j)) = f (top - j) := by
  have hslot : Fin.ofNat n top + Fin.ofNat n (n - j) = Fin.ofNat n (top - j) := by
    refine Fin.ext ?_
    show (top % n + (n - j) % n) % n = (top - j) % n
    rw [← Nat.add_mod, show top + (n - j) = top - j + n by omega, Nat.add_mod_right]
  rw [hslot]
  exact h (top - j) (by omega) (by omega)

end RingHolds

end Distcc
