import Mathlib.Data.List.Forall2

/-!
# Lists that match

Two lists whose elements are related one by one: each element of one has its counterpart
in the other.

Two searches in one list, by different tests, find the same if the tests agree on
everything up to the first element that passes the second one
(`find?_eq_find?_iff`).
-/

namespace Distcc

open List

theorem forall₂_exists_right {α β : Type} {R : α → β → Prop} {as : List α} {bs : List β}
    (h : List.Forall₂ R as bs) {a : α} (ha : a ∈ as) : ∃ b ∈ bs, R a b := by
  induction h with
  | nil => cases ha
  | cons hab _ ih =>
    obtain rfl | ha := mem_cons.mp ha
    · exact ⟨_, mem_cons_self, hab⟩
    · obtain ⟨b, hb, hR⟩ := ih ha
      exact ⟨b, mem_cons_of_mem _ hb, hR⟩

theorem forall₂_exists_left {α β : Type} {R : α → β → Prop} {as : List α} {bs : List β}
    (h : List.Forall₂ R as bs) {b : β} (hb : b ∈ bs) : ∃ a ∈ as, R a b :=
  forall₂_exists_right h.flip hb

/-- Two tests agree up to the first element that passes the second one. -/
def AgreeUpTo {α : Type} (p q : α → Bool) (l : List α) : Prop :=
  ∀ before a after, l = before ++ a :: after → (∀ b ∈ before, q b = false) → p a = q a

theorem agreeUpTo_cons {α : Type} {p q : α → Bool} {a : α} {l : List α} :
    AgreeUpTo p q (a :: l) ↔ p a = q a ∧ (q a = false → AgreeUpTo p q l) := by
  constructor
  · intro h
    refine ⟨h [] a l rfl (forall_mem_nil _), fun ha before b after hl hbefore => ?_⟩
    exact h (a :: before) b after (by rw [hl, cons_append])
      (forall_mem_cons.mpr ⟨ha, hbefore⟩)
  · rintro ⟨ha, hrest⟩ before b after hl hbefore
    cases before with
    | nil =>
      obtain ⟨rfl, -⟩ := List.cons.inj hl
      exact ha
    | cons c before =>
      obtain ⟨rfl, hrest'⟩ := List.cons.inj hl
      obtain ⟨hc, hbefore⟩ := forall_mem_cons.mp hbefore
      exact hrest hc before b after hrest' hbefore

/-- **Two searches find the same** if the tests agree up to what is found. -/
theorem find?_eq_find?_iff {α : Type} {p q : α → Bool} {l : List α} :
    l.find? p = l.find? q ↔ AgreeUpTo p q l := by
  induction l with
  | nil => exact iff_of_true rfl fun before a after hl => by simp at hl
  | cons a l ih =>
    rw [agreeUpTo_cons, find?_cons, find?_cons]
    cases hp : p a with
    | true =>
      cases hq : q a with
      | true => simp
      | false =>
        refine iff_of_false (fun h => ?_) nofun
        simp [find?_some h.symm] at hq
    | false =>
      cases hq : q a with
      | true =>
        refine iff_of_false (fun h => ?_) nofun
        simp [find?_some h] at hp
      | false => simpa using ih

end Distcc
