import Mathlib.Algebra.Order.BigOperators.Group.Finset
import Mathlib.Data.Finset.Option
import Mathlib.Logic.Relation

/-!
# Things that have one owner

Processes share a table that says of each thing which process owns it, and a
process takes part in a pool by owning one of its things. However often the table
changes hands, a pool never has more owners than things: an owner is found from
the thing it owns (`card_le_card_of_owner`).

What holds at the start of a run and is kept by each of its steps holds at every
moment of it (`invariant_of_step`).
-/

namespace Distcc

section Owners

variable {P R : Type} {owner : R → Option P}

/-- **A pool has no more owners than things.** -/
theorem card_le_card_of_owner {ps : Finset P} {pool : Finset R}
    (h : ∀ p ∈ ps, ∃ r ∈ pool, owner r = some p) : ps.card ≤ pool.card := by
  classical
  have hsub : ps ⊆ pool.biUnion fun r => (owner r).toFinset := by
    intro p hp
    obtain ⟨r, hr, hown⟩ := h p hp
    exact Finset.mem_biUnion.mpr ⟨r, hr, by simp [hown]⟩
  calc ps.card ≤ (pool.biUnion fun r => (owner r).toFinset).card := Finset.card_le_card hsub
    _ ≤ pool.card * 1 := by
      refine Finset.card_biUnion_le_card_mul pool _ 1 fun r _ => ?_
      cases owner r <;> simp
    _ = pool.card := Nat.mul_one _

/-- The things of a pool may be given by number. -/
theorem card_le_of_owner_lt {ps : Finset P} {n : ℕ} (thing : ℕ → R)
    (h : ∀ p ∈ ps, ∃ i < n, owner (thing i) = some p) : ps.card ≤ n := by
  classical
  have hpool : ∀ p ∈ ps, ∃ r ∈ (Finset.range n).image thing, owner r = some p := by
    intro p hp
    obtain ⟨i, hi, hown⟩ := h p hp
    exact ⟨thing i, Finset.mem_image_of_mem thing (Finset.mem_range.mpr hi), hown⟩
  calc ps.card ≤ ((Finset.range n).image thing).card := card_le_card_of_owner hpool
    _ ≤ (Finset.range n).card := Finset.card_image_le
    _ = n := Finset.card_range n

end Owners

section Runs

variable {S : Type} {Step : S → S → Prop} {Inv : S → Prop}

/-- **What every step keeps, every run keeps.** -/
theorem invariant_of_step (hstep : ∀ s s', Step s s' → Inv s → Inv s') {s s' : S}
    (hrun : Relation.ReflTransGen Step s s') (hinit : Inv s) : Inv s' := by
  induction hrun with
  | refl => exact hinit
  | tail _ hlast ih => exact hstep _ _ hlast ih

end Runs

end Distcc
