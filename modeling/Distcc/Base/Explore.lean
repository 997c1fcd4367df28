import Mathlib.Algebra.BigOperators.Group.Finset.Basic
import Mathlib.Logic.Relation

/-!
# Exploring a graph with a stack

The nodes of a graph are numbered, and a stack holds those that are still to be looked at.
The one on top is taken off, and if it was not there before it is acted upon and what it
points at goes on the stack (`explore`). Cycles do no harm.

What is acted upon is exactly what can be reached (`mem_explore_iff`), and the
exploration of a finite graph comes to an end (`explore_returns`): a turn takes one
number off the stack and puts on it only what a node points at that will not be looked at
again.
-/

namespace Distcc

open List

variable {β : Type} {succ : ℕ → List ℕ} {act : β → ℕ → β} {stack visited : List ℕ} {acc out : β}
  {n : ℕ}

/-- At most so many turns. The head of the list is the top of the stack, and what is put
on it last comes off first. -/
def explore (succ : ℕ → List ℕ) (act : β → ℕ → β) : ℕ → List ℕ → List ℕ → β → Option β
  | _, [], _, acc => some acc
  | 0, _ :: _, _, _ => none
  | fuel + 1, n :: stack, visited, acc =>
    if n ∈ visited then explore succ act fuel stack visited acc
    else explore succ act fuel ((succ n).reverse ++ stack) (n :: visited) (act acc n)

/-! ### What is acted upon -/

/-- What a visited node points at was visited, or is on the stack. -/
def Pending (succ : ℕ → List ℕ) (stack visited : List ℕ) : Prop :=
  ∀ n ∈ visited, ∀ m ∈ succ n, m ∈ visited ∨ m ∈ stack

theorem Pending.skip (h : Pending succ (n :: stack) visited) (hn : n ∈ visited) :
    Pending succ stack visited := by
  intro a ha b hb
  obtain hvisited | hstack := h a ha b hb
  · exact Or.inl hvisited
  · obtain rfl | hrest := mem_cons.mp hstack
    · exact Or.inl hn
    · exact Or.inr hrest

theorem Pending.visit (h : Pending succ (n :: stack) visited) :
    Pending succ ((succ n).reverse ++ stack) (n :: visited) := by
  intro a ha b hb
  rw [mem_append, mem_reverse, mem_cons]
  obtain rfl | ha := mem_cons.mp ha
  · exact Or.inr (Or.inl hb)
  · obtain hvisited | hstack := h a ha b hb
    · exact Or.inl (Or.inr hvisited)
    · obtain rfl | hrest := mem_cons.mp hstack
      · exact Or.inl (Or.inl rfl)
      · exact Or.inr (Or.inr hrest)

/-- The nodes of a list come from the stack, and with those that were visited before they
are closed. -/
structure Explored (succ : ℕ → List ℕ) (stack visited order : List ℕ) : Prop where
  reached : ∀ m ∈ order, ∃ n ∈ stack, Relation.ReflTransGen (fun a b => b ∈ succ a) n m
  covered : ∀ m ∈ stack, m ∈ visited ∨ m ∈ order
  closed : ∀ n, n ∈ visited ∨ n ∈ order → ∀ m ∈ succ n, m ∈ visited ∨ m ∈ order

theorem Pending.explored_nil (h : Pending succ [] visited) : Explored succ [] visited [] where
  reached _ hm := absurd hm not_mem_nil
  covered _ hm := absurd hm not_mem_nil
  closed n hn m hm :=
    Or.inl ((h n (hn.resolve_right not_mem_nil) m hm).resolve_right not_mem_nil)

theorem Explored.skip {order : List ℕ} (h : Explored succ stack visited order)
    (hn : n ∈ visited) : Explored succ (n :: stack) visited order where
  reached m hm := by
    obtain ⟨k, hk, hpath⟩ := h.reached m hm
    exact ⟨k, mem_cons_of_mem _ hk, hpath⟩
  covered m hm := by
    obtain rfl | hm := mem_cons.mp hm
    · exact Or.inl hn
    · exact h.covered m hm
  closed := h.closed

theorem Explored.visit {order : List ℕ}
    (h : Explored succ ((succ n).reverse ++ stack) (n :: visited) order) :
    Explored succ (n :: stack) visited (n :: order) := by
  have hmem : ∀ m, m ∈ n :: visited ∨ m ∈ order ↔ m ∈ visited ∨ m ∈ n :: order := by
    intro m
    rw [mem_cons, mem_cons]
    tauto
  refine ⟨fun m hm => ?_, fun m hm => ?_, fun k hk m hm => ?_⟩
  · obtain rfl | hm := mem_cons.mp hm
    · exact ⟨m, mem_cons_self, .refl⟩
    · obtain ⟨k, hk, hpath⟩ := h.reached m hm
      rw [mem_append, mem_reverse] at hk
      obtain hk | hk := hk
      · exact ⟨n, mem_cons_self, .head hk hpath⟩
      · exact ⟨k, mem_cons_of_mem _ hk, hpath⟩
  · obtain rfl | hm := mem_cons.mp hm
    · exact Or.inr mem_cons_self
    · exact (hmem m).mp (h.covered m (mem_append_right _ hm))
  · exact (hmem m).mp (h.closed k ((hmem k).mpr hk) m hm)

/-- The nodes in the order in which they are acted upon. -/
theorem explore_order {fuel : ℕ} (hpending : Pending succ stack visited)
    (h : explore succ act fuel stack visited acc = some out) :
    ∃ order : List ℕ, out = order.foldl act acc ∧ Explored succ stack visited order := by
  induction fuel generalizing stack visited acc with
  | zero =>
    cases stack with
    | nil => exact ⟨[], (Option.some.inj h).symm, hpending.explored_nil⟩
    | cons n stack => cases h
  | succ fuel ih =>
    cases stack with
    | nil => exact ⟨[], (Option.some.inj h).symm, hpending.explored_nil⟩
    | cons n stack =>
      rw [explore] at h
      split at h
      · case isTrue hn =>
        obtain ⟨order, hout, hexplored⟩ := ih (hpending.skip hn) h
        exact ⟨order, hout, hexplored.skip hn⟩
      · obtain ⟨order, hout, hexplored⟩ := ih hpending.visit h
        exact ⟨n :: order, hout, hexplored.visit⟩

/-- **What is acted upon is what can be reached.** -/
theorem mem_explore_iff {fuel root : ℕ} (h : explore succ act fuel [root] [] acc = some out) :
    ∃ order : List ℕ, out = order.foldl act acc ∧
      ∀ m, m ∈ order ↔ Relation.ReflTransGen (fun a b => b ∈ succ a) root m := by
  obtain ⟨order, hout, hexplored⟩ := explore_order (fun n hn => absurd hn not_mem_nil) h
  refine ⟨order, hout, fun m => ⟨fun hm => ?_, fun hm => ?_⟩⟩
  · obtain ⟨k, hk, hpath⟩ := hexplored.reached m hm
    exact mem_singleton.mp hk ▸ hpath
  · induction hm with
    | refl => exact (hexplored.covered root mem_cons_self).resolve_left not_mem_nil
    | tail _ hstep ih =>
      exact (hexplored.closed _ (Or.inr ih) _ hstep).resolve_left not_mem_nil

/-! ### The end of an exploration -/

/-- What the nodes that were not visited yet can still put on the stack. -/
def toCome (succ : ℕ → List ℕ) (bound : ℕ) (visited : List ℕ) : ℕ :=
  ∑ n ∈ (Finset.range bound).filter (· ∉ visited), (succ n).length

theorem toCome_visit {bound n : ℕ} (hbound : ∀ n, bound ≤ n → succ n = []) (hn : n ∉ visited) :
    toCome succ bound visited = (succ n).length + toCome succ bound (n :: visited) := by
  have hfilter : (Finset.range bound).filter (· ∉ n :: visited) =
      ((Finset.range bound).filter (· ∉ visited)).erase n := by
    ext m
    simp only [Finset.mem_filter, Finset.mem_erase, mem_cons, not_or]
    tauto
  rw [toCome, toCome, hfilter]
  by_cases hlt : n < bound
  · refine (Finset.add_sum_erase _ (fun n => (succ n).length) ?_).symm
    exact Finset.mem_filter.mpr ⟨Finset.mem_range.mpr hlt, hn⟩
  · rw [hbound n (Nat.le_of_not_lt hlt), Finset.erase_eq_of_notMem]
    · exact (Nat.zero_add _).symm
    · exact fun hmem => hlt (Finset.mem_range.mp (Finset.mem_filter.mp hmem).1)

/-- **The exploration of a finite graph ends.** -/
theorem explore_returns {bound fuel : ℕ} (hbound : ∀ n, bound ≤ n → succ n = [])
    (hfuel : stack.length + toCome succ bound visited ≤ fuel) :
    ∃ out, explore succ act fuel stack visited acc = some out := by
  induction fuel generalizing stack visited acc with
  | zero =>
    obtain rfl : stack = [] := length_eq_zero_iff.mp (by omega)
    exact ⟨acc, rfl⟩
  | succ fuel ih =>
    cases stack with
    | nil => exact ⟨acc, rfl⟩
    | cons n stack =>
      rw [length_cons] at hfuel
      rw [explore]
      split
      · exact ih (by omega)
      · case isFalse hn =>
        refine ih ?_
        rw [toCome_visit hbound hn] at hfuel
        rw [length_append, length_reverse]
        omega

/-- More turns than needed change nothing. -/
theorem explore_mono {fuel fuel' : ℕ} (hle : fuel ≤ fuel')
    (h : explore succ act fuel stack visited acc = some out) :
    explore succ act fuel' stack visited acc = some out := by
  induction fuel generalizing fuel' stack visited acc with
  | zero =>
    cases stack with
    | nil =>
      cases fuel' <;> exact h
    | cons n stack => cases h
  | succ fuel ih =>
    obtain ⟨fuel', rfl⟩ : ∃ k, fuel' = k + 1 := ⟨fuel' - 1, by omega⟩
    cases stack with
    | nil => exact h
    | cons n stack =>
      rw [explore] at h ⊢
      split at h
      · case isTrue hn =>
        rw [if_pos hn]
        exact ih (by omega) h
      · case isFalse hn =>
        rw [if_neg hn]
        exact ih (by omega) h

end Distcc
