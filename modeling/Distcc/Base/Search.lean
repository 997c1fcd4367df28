import Mathlib.Data.Int.Notation
import Mathlib.Data.Nat.Notation
import Mathlib.Logic.Basic
import Mathlib.Order.Defs.Unbundled
import Mathlib.Tactic.ByContra

/-!
# Where a key can be in a sorted list

A search by bisection keeps to a window of the list: outside of it there is no copy of
the key (`Window`). Comparing the key with an element of the list moves one end of
the window past that element. The list is sorted by a three-way comparison, and it is
sorted if no element is greater than a later one.
-/

namespace Distcc

variable {α : Type}

/-- No element is greater than a later one. -/
def SortedBy (cmp : α → α → Ordering) (l : List α) : Prop := l.Pairwise fun a b => cmp a b ≠ .gt

/-- Outside of the positions from `bottom` to `top`, the key is not in the list. -/
structure Window (l : List α) (key : α) (bottom top : ℤ) : Prop where
  bottom_nonneg : 0 ≤ bottom
  top_lt : top < l.length
  within : ∀ i : ℕ, l[i]? = some key → bottom ≤ i ∧ i ≤ top

theorem window_whole (l : List α) (key : α) : Window l key 0 (l.length - 1) where
  bottom_nonneg := Int.le_refl 0
  top_lt := by omega
  within i hi := by
    obtain ⟨hlt, -⟩ := List.getElem?_eq_some_iff.mp hi
    omega

namespace Window

variable {cmp : α → α → Ordering} {l : List α} {key a : α} {bottom top : ℤ} {m : ℕ}

theorem not_mem (h : Window l key bottom top) (hempty : top < bottom) : key ∉ l := by
  intro hmem
  obtain ⟨i, hi⟩ := List.getElem?_of_mem hmem
  have := h.within i hi
  omega

/-- An element is not the key if comparing says so. -/
theorem ne_of_compare [Std.ReflCmp cmp] (ha : l[m]? = some a) (h : cmp key a ≠ .eq) {i : ℕ}
    (hi : l[i]? = some key) : i ≠ m := by
  rintro rfl
  obtain rfl := Option.some.inj (hi.symm.trans ha)
  exact h Std.ReflCmp.compare_self

/-- In a sorted list, comparing an element with a later one. -/
theorem compare_of_lt (hl : SortedBy cmp l) {i j : ℕ} {b : α} (hi : l[i]? = some a)
    (hj : l[j]? = some b) (hij : i < j) : cmp a b ≠ .gt := by
  obtain ⟨hilt, rfl⟩ := List.getElem?_eq_some_iff.mp hi
  obtain ⟨hjlt, rfl⟩ := List.getElem?_eq_some_iff.mp hj
  exact List.pairwise_iff_getElem.mp hl i j hilt hjlt hij

variable [Std.OrientedCmp cmp]

/-- The key is less than an element of the list. -/
theorem lower (h : Window l key bottom top) (hl : SortedBy cmp l) (hm : l[m]? = some a)
    (hlt : cmp key a = .lt) : Window l key bottom (m - 1) where
  bottom_nonneg := h.bottom_nonneg
  top_lt := by
    obtain ⟨hlen, -⟩ := List.getElem?_eq_some_iff.mp hm
    omega
  within i hi := by
    refine ⟨(h.within i hi).1, ?_⟩
    have hcmp : cmp key a ≠ .eq := by simp [hlt]
    have hne := ne_of_compare hm hcmp hi
    by_contra hge
    exact compare_of_lt hl hm hi (by omega) (Std.OrientedCmp.gt_of_lt hlt)

/-- The key is greater than an element of the list. -/
theorem upper (h : Window l key bottom top) (hl : SortedBy cmp l) (hm : l[m]? = some a)
    (hgt : cmp key a = .gt) : Window l key (m + 1) top where
  bottom_nonneg := by omega
  top_lt := h.top_lt
  within i hi := by
    refine ⟨?_, (h.within i hi).2⟩
    have hcmp : cmp key a ≠ .eq := by simp [hgt]
    have hne := ne_of_compare hm hcmp hi
    by_contra hle
    exact compare_of_lt hl hi hm (by omega) hgt

end Window

end Distcc
