import Mathlib.Logic.Basic

/-!
# Two locks, one inside the other

A process takes locks and gives them back, and each lock is of one of two kinds.
The discipline is that of brackets: it holds at most one lock of each kind, takes
the inner one only while it holds nothing or the outer one, gives back the lock it
took last, and ends with none. `Nested` follows a list of acts under that
discipline, from the locks held at its start, oldest first.
-/

namespace Distcc

/-- Taking a lock of kind `k`, known by the descriptor `d`, or giving one back. -/
inductive LockAct (K D : Type) where
  /-- A lock is taken. -/
  | acquire (k : K) (d : D)
  /-- The lock of a descriptor is given back. -/
  | release (d : D)

section Discipline

variable {K D : Type} (outer inner : K)

/-- **The discipline**, from the locks in `held` on. -/
def Nested : List (K × D) → List (LockAct K D) → Prop
  | held, [] => held = []
  | held, .acquire k d :: acts =>
    (held = [] ∨ ∃ d₀, held = [(outer, d₀)] ∧ k = inner ∧ d ≠ d₀) ∧
      Nested (held ++ [(k, d)]) acts
  | held, .release d :: acts =>
    (∃ before k, held = before ++ [(k, d)]) ∧ Nested held.dropLast acts

variable {outer inner} {acts : List (LockAct K D)} {d d₀ : D}

@[simp] theorem nested_nil {held : List (K × D)} : Nested outer inner held [] ↔ held = [] :=
  Iff.rfl

@[simp] theorem nested_acquire_nil {k : K} {d : D} :
    Nested outer inner [] (.acquire k d :: acts) ↔ Nested outer inner [(k, d)] acts := by
  simp [Nested]

@[simp] theorem nested_acquire_one {k k₀ : K} :
    Nested outer inner [(k₀, d₀)] (.acquire k d :: acts) ↔
      (k₀ = outer ∧ k = inner ∧ d ≠ d₀) ∧ Nested outer inner [(k₀, d₀), (k, d)] acts := by
  simp [Nested, and_assoc]

@[simp] theorem nested_release_nil {d : D} :
    ¬Nested outer inner [] (.release d :: acts) := by
  simp [Nested]

/-- What is given back is what was taken last. -/
theorem nested_release_concat (before : List (K × D)) {k₀ : K} :
    Nested outer inner (before ++ [(k₀, d₀)]) (.release d :: acts) ↔
      d₀ = d ∧ Nested outer inner before acts := by
  rw [Nested, List.dropLast_concat]
  constructor
  · rintro ⟨⟨before', k, h⟩, hacts⟩
    have hlast := List.singleton_inj.mp (List.append_inj' h rfl).2
    exact ⟨congrArg Prod.snd hlast, hacts⟩
  · rintro ⟨rfl, hacts⟩
    exact ⟨⟨before, k₀, rfl⟩, hacts⟩

@[simp] theorem nested_release_one {k₀ : K} :
    Nested outer inner [(k₀, d₀)] (.release d :: acts) ↔ d₀ = d ∧ Nested outer inner [] acts :=
  nested_release_concat []

@[simp] theorem nested_release_two {k₀ k₁ : K} {d d₀ d₁ : D} :
    Nested outer inner [(k₀, d₀), (k₁, d₁)] (.release d :: acts) ↔
      d₁ = d ∧ Nested outer inner [(k₀, d₀)] acts :=
  nested_release_concat [(k₀, d₀)]

end Discipline

end Distcc
