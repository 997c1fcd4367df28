import Mathlib.Data.List.Nodup
import Mathlib.Logic.Function.Basic

/-!
# Linked lists in memory

Nodes that point to one another: `next` gives for each of them where it points, and
`none` is the null pointer. `Chain` says which nodes are met from a pointer on
until the null pointer is reached. There is at most one such list
(`Chain.unique`), and hence no node is met twice (`Chain.nodup`): a chain is
a list that ends, and has no cycle in it.

A node can be put behind the last one (`Chain.snoc`), and any nodes can be made a
chain by pointing each of them to the one that follows it (`chain_relink`).
-/

namespace Distcc

open List

variable {α : Type}

/-- From this pointer on, these nodes are met, and then the null pointer. -/
def Chain (next : α → Option α) : Option α → List α → Prop
  | p, [] => p = none
  | p, a :: as => p = some a ∧ Chain next (next a) as

/-- The nodes that are met in so many steps, unless the null pointer is met before. -/
def follow (next : α → Option α) : ℕ → Option α → Option (List α)
  | 0, _ => some []
  | _ + 1, none => none
  | n + 1, some a => (follow next n (next a)).map (a :: ·)

variable {next next' : α → Option α} {p : Option α} {as bs : List α}

theorem Chain.unique (h : Chain next p as) (h' : Chain next p bs) : as = bs := by
  induction as generalizing p bs with
  | nil =>
    cases bs with
    | nil => rfl
    | cons b bs => cases h.symm.trans h'.1
  | cons a as ih =>
    cases bs with
    | nil => cases h'.symm.trans h.1
    | cons b bs =>
      obtain rfl : a = b := Option.some.inj (h.1.symm.trans h'.1)
      rw [ih h.2 h'.2]

/-- The rest of a chain is a chain. -/
theorem Chain.of_append {a : α} (h : Chain next p (as ++ a :: bs)) :
    Chain next (some a) (a :: bs) := by
  induction as generalizing p with
  | nil => exact ⟨rfl, h.2⟩
  | cons b as ih => exact ih h.2

/-- **No node is met twice**: from there on, the chain would go on as before. -/
theorem Chain.nodup (h : Chain next p as) : as.Nodup := by
  induction as generalizing p with
  | nil => exact nodup_nil
  | cons a as ih =>
    refine nodup_cons.mpr ⟨fun hmem => ?_, ih h.2⟩
    obtain ⟨us, vs, rfl⟩ := append_of_mem hmem
    have hagain : Chain next (some a) (a :: vs) := h.2.of_append
    have heq : a :: (us ++ a :: vs) = a :: vs := Chain.unique ⟨rfl, h.2⟩ hagain
    have hlen := congrArg List.length heq
    simp only [length_cons, length_append] at hlen
    omega

/-- The nodes of a chain, by following it. -/
theorem Chain.follow (h : Chain next p as) : follow next as.length p = some as := by
  induction as generalizing p with
  | nil => rfl
  | cons a as ih =>
    obtain ⟨rfl, h⟩ := h
    rw [length_cons, Distcc.follow, ih h]
    rfl

/-! ### Making chains -/

/-- **A new node behind the last one.** -/
theorem Chain.snoc {last new : α} (h : Chain next p (as ++ [last])) (hlast : next' last = some new)
    (hend : next' new = none) (hnext : ∀ a ∈ as, next' a = next a) :
    Chain next' p (as ++ [last, new]) := by
  induction as generalizing p with
  | nil => exact ⟨h.1, hlast, hend⟩
  | cons a as ih =>
    refine ⟨h.1, ?_⟩
    rw [hnext a mem_cons_self]
    exact ih h.2 fun b hb => hnext b (mem_cons_of_mem _ hb)

variable [DecidableEq α]

/-- Each of these nodes is pointed to the one that follows it, and the last one to none. -/
def relink (next : α → Option α) : List α → α → Option α
  | [] => next
  | a :: as => relink (Function.update next a as.head?) as

theorem relink_of_not_mem {a : α} (h : a ∉ as) : relink next as a = next a := by
  induction as generalizing next with
  | nil => rfl
  | cons b as ih =>
    rw [mem_cons, not_or] at h
    rw [relink, ih h.2, Function.update_of_ne h.1]

/-- **Any nodes can be made a chain.** -/
theorem chain_relink (next : α → Option α) (h : as.Nodup) : Chain (relink next as) as.head? as := by
  induction as generalizing next with
  | nil => rfl
  | cons a as ih =>
    obtain ⟨ha, hnodup⟩ := nodup_cons.mp h
    refine ⟨rfl, ?_⟩
    rw [relink, relink_of_not_mem ha, Function.update_self]
    exact ih _ hnodup

end Distcc
