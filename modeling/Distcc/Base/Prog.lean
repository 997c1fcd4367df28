import Distcc.Base.Forall
import Mathlib.Algebra.Group.Int.Defs
import Mathlib.Algebra.Group.Nat.Defs
import Mathlib.Data.Nat.Notation
import Mathlib.Logic.Basic
import Mathlib.Order.Defs.Unbundled

/-!
# Computations that can fail

A result is an `Except`: a value, or the code the caller gets instead. What every
proof about such computations needs is to take a sequence apart: the sequence
gave a value exactly when its first part gave one and the rest did, from there
(`Except.bind_eq_ok_iff`).

`Prog` is the same for computations that also change a state. A failure does
not undo what was changed before it, and a caller may look at the code and go on
(`Prog.attempt`). A computation may also never return, because it waits for
ever, is killed or leaves the program.

That a run ends, and how, is `Prog.Total`.
A loop whose number of turns is bounded in advance is `Prog.loop`. Two rules
suffice for it: what every turn preserves holds at the end
(`Prog.loop_rule`), and a loop all of whose turns come to an end and make progress
does so as well (`Prog.loop_total`). A preorder on the states that every piece of a
computation keeps to, the whole keeps to, failed or not (`Prog.Keeps`).
-/

namespace Distcc

open List

section Results

variable {ε α β : Type}

@[simp] theorem Except.ok_bind (a : α) (f : α → Except ε β) : (Except.ok a >>= f) = f a := rfl

@[simp] theorem Except.error_bind (e : ε) (f : α → Except ε β) :
    (Except.error e >>= f) = Except.error e := rfl

theorem Except.bind_eq_ok_iff {x : Except ε α} {f : α → Except ε β} {b : β} :
    x >>= f = .ok b ↔ ∃ a, x = .ok a ∧ f a = .ok b := by
  cases x <;> simp

end Results

/-- A computation on states in `σ`, that may fail with an `ε`. The result `none` is
that of a computation that never returns. -/
structure Prog (σ ε α : Type) where
  /-- Running it from a state. -/
  run : σ → Option (Except ε α × σ)

namespace Prog

variable {σ ε α β : Type}

instance : CoeFun (Prog σ ε α) fun _ => σ → Option (Except ε α × σ) := ⟨run⟩

instance : Monad (Prog σ ε) where
  pure a := ⟨fun s => some (.ok a, s)⟩
  bind x f :=
    ⟨fun s =>
      match x s with
      | some (.ok a, s) => f a s
      | some (.error e, s) => some (.error e, s)
      | none => none⟩

/-- The caller gets the code `e`. -/
def fail (e : ε) : Prog σ ε α := ⟨fun s => some (.error e, s)⟩

/-- The caller never gets anything. -/
def never : Prog σ ε α := ⟨fun _ => none⟩

/-- A computation on a part of the state. -/
def zoom {τ : Type} (view : σ → τ) (put : σ → τ → σ) (x : Prog τ ε α) : Prog σ ε α :=
  ⟨fun s => (x (view s)).map fun r => (r.1, put s r.2)⟩

/-- Looking at the state. -/
def get : Prog σ ε σ := ⟨fun s => some (.ok s, s)⟩

/-- Changing the state. -/
def modify (f : σ → σ) : Prog σ ε Unit := ⟨fun s => some (.ok (), f s)⟩

/-- A result that is known. -/
def ofExcept : Except ε α → Prog σ ε α
  | .ok a => ⟨fun s => some (.ok a, s)⟩
  | .error e => fail e

/-- Going on after `x`, whatever it returned. -/
def attempt (x : Prog σ ε α) : Prog σ ε (Except ε α) :=
  ⟨fun s => (x s).map fun r => (.ok r.1, r.2)⟩

/-! ### Taking a run apart -/

section Runs

variable {x : Prog σ ε α} {f : α → Prog σ ε β} {s s' : σ} {a : α} {b : β} {e : ε} {r : Except ε α}

theorem bind_apply :
    (x >>= f) s = match x s with
      | some (.ok a, s) => f a s
      | some (.error e, s) => some (.error e, s)
      | none => none :=
  rfl

theorem bind_eq_ok_iff :
    (x >>= f) s = some (.ok b, s') ↔
      ∃ a s₁, x s = some (.ok a, s₁) ∧ f a s₁ = some (.ok b, s') := by
  rw [bind_apply]
  rcases x s with _ | ⟨_ | a, s₁⟩ <;> simp [and_assoc]

theorem bind_eq_error_iff :
    (x >>= f) s = some (.error e, s') ↔ x s = some (.error e, s') ∨
      ∃ a s₁, x s = some (.ok a, s₁) ∧ f a s₁ = some (.error e, s') := by
  rw [bind_apply]
  rcases x s with _ | ⟨_ | a, s₁⟩ <;> simp [and_assoc]

/-- A run whose first part succeeds goes on with the second. -/
theorem bind_of_ok {s₁ : σ} (h : x s = some (.ok a, s₁)) : (x >>= f) s = f a s₁ := by
  rw [bind_apply, h]

theorem bind_of_error {s₁ : σ} (h : x s = some (.error e, s₁)) :
    (x >>= f) s = some (.error e, s₁) := by
  rw [bind_apply, h]

/-- A run has one result. -/
theorem run_unique {r' : Except ε α} {s₁ s₂ : σ} (h : x s = some (r, s₁))
    (h' : x s = some (r', s₂)) : r = r' ∧ s₁ = s₂ :=
  Prod.mk.inj (Option.some.inj (h.symm.trans h'))

theorem ok_unique {a' : α} {s₁ s₂ : σ} (h : x s = some (.ok a, s₁)) (h' : x s = some (.ok a', s₂)) :
    a = a' ∧ s₁ = s₂ :=
  (run_unique h h').imp_left Except.ok.inj

theorem zoom_eq {τ : Type} {view : σ → τ} {put : σ → τ → σ} {y : Prog τ ε α} {t : τ}
    (h : y (view s) = some (r, t)) : zoom view put y s = some (r, put s t) :=
  congrArg (Option.map _) h

theorem get_bind {g : σ → Prog σ ε β} : (get >>= g) s = g s s := rfl

theorem modify_bind {g : σ → σ} {f : Unit → Prog σ ε β} : (modify g >>= f) s = f () (g s) := rfl

@[simp] theorem pure_eq_some_iff :
    (pure a : Prog σ ε α) s = some (r, s') ↔ .ok a = r ∧ s = s' := by
  change some (.ok a, s) = some (r, s') ↔ _
  simp

theorem pure_eq_ok_iff {a' : α} :
    (pure a : Prog σ ε α) s = some (.ok a', s') ↔ a = a' ∧ s = s' := by
  simp

theorem bind_pure_eq_ok_iff {g : α → β} :
    (x >>= fun a => pure (g a)) s = some (.ok b, s') ↔
      ∃ a, x s = some (.ok a, s') ∧ g a = b := by
  simp only [bind_eq_ok_iff, pure_eq_ok_iff, ← and_assoc, exists_eq_right]

@[simp] theorem fail_eq_some_iff :
    (fail e : Prog σ ε α) s = some (r, s') ↔ .error e = r ∧ s = s' := by
  simp [fail]

@[simp] theorem never_eq_some_iff :
    (never : Prog σ ε α) s = some (r, s') ↔ False := by
  simp [never]

@[simp] theorem get_eq_some_iff {r : Except ε σ} :
    (get : Prog σ ε σ) s = some (r, s') ↔ .ok s = r ∧ s = s' := by
  simp [get]

@[simp] theorem modify_eq_some_iff {g : σ → σ} {r : Except ε Unit} :
    (modify g : Prog σ ε Unit) s = some (r, s') ↔ .ok () = r ∧ g s = s' := by
  simp [modify]

theorem attempt_eq_ok_iff : x.attempt s = some (.ok r, s') ↔ x s = some (r, s') := by
  rcases hx : x s with _ | ⟨r', s₁⟩ <;> simp [attempt, hx]

theorem attempt_ne_error : x.attempt s ≠ some (.error e, s') := by
  rcases hx : x s with _ | ⟨r', s₁⟩ <;> simp [attempt, hx]

/-- A sequence fails in its first part, or goes on with the second. -/
theorem bind_cases {r : Except ε β} (h : (x >>= f) s = some (r, s')) :
    (∃ e, r = .error e ∧ x s = some (.error e, s')) ∨
      ∃ a s₁, x s = some (.ok a, s₁) ∧ f a s₁ = some (r, s') := by
  cases r with
  | ok b => exact .inr (bind_eq_ok_iff.mp h)
  | error e => exact (bind_eq_error_iff.mp h).imp_left fun hrun => ⟨e, rfl, hrun⟩

/-- Running `x` and handing on a value made from its own. -/
theorem bind_pure_cases {g : α → β} {r : Except ε β}
    (h : (x >>= fun a => pure (g a)) s = some (r, s')) :
    (∃ a, x s = some (.ok a, s') ∧ r = .ok (g a)) ∨
      ∃ e, x s = some (.error e, s') ∧ r = .error e := by
  rcases bind_cases h with ⟨e, rfl, hrun⟩ | ⟨a, s₁, hrun, hrest⟩
  · exact .inr ⟨e, hrun, rfl⟩
  · obtain ⟨rfl, rfl⟩ := pure_eq_some_iff.mp hrest
    exact .inl ⟨a, hrun, rfl⟩

/-- Running `x` and going on whatever it returned. -/
theorem attempt_bind_cases {g : Except ε α → Prog σ ε β} {r : Except ε β}
    (h : (x.attempt >>= g) s = some (r, s')) :
    ∃ ret s₁, x s = some (ret, s₁) ∧ g ret s₁ = some (r, s') := by
  rcases bind_cases h with ⟨e, -, hrun⟩ | ⟨ret, s₁, hrun, hrest⟩
  · exact absurd hrun attempt_ne_error
  · exact ⟨ret, s₁, attempt_eq_ok_iff.mp hrun, hrest⟩

/-- Does a run return, with this result? A test, to be evaluated. -/
def yields (x : Prog σ ε α) (s : σ) (p : α → σ → Bool) : Bool :=
  match x s with
  | some (.ok a, s') => p a s'
  | _ => false

section Yields

variable {p : α → σ → Bool} (h : x.yields s p = true)
include h

theorem exists_of_yields : ∃ a s', x s = some (.ok a, s') ∧ p a s' = true := by
  unfold yields at h
  split at h
  · case h_1 a s' hrun => exact ⟨a, s', hrun, h⟩
  · cases h

theorem of_yields {s' : σ} (hrun : x s = some (.ok a, s')) : p a s' = true := by
  rwa [yields, hrun] at h

end Yields

end Runs

/-! ### Runs that end -/

/-- **Total correctness**: the run from `s` ends, with a result and in a state as `Q` says. -/
def Total (x : Prog σ ε α) (s : σ) (Q : Except ε α → σ → Prop) : Prop :=
  ∃ r s', x s = some (r, s') ∧ Q r s'

namespace Total

variable {x : Prog σ ε α} {f : α → Prog σ ε β} {s s' : σ} {P : Except ε α → σ → Prop}
  {Q : Except ε β → σ → Prop} {r : Except ε α}

/-- What is known of some run from a state is known of every run. -/
theorem spec (h : x.Total s P) (hrun : x s = some (r, s')) : P r s' := by
  obtain ⟨r₁, s₁, hrun1, hP⟩ := h
  obtain ⟨rfl, rfl⟩ := run_unique hrun1 hrun
  exact hP

/-- The same for a computation that does not fail. -/
theorem spec_ok {P : α → σ → Prop} (h : ∃ a s', x s = some (.ok a, s') ∧ P a s')
    (hrun : x s = some (r, s')) : ∃ a, r = .ok a ∧ P a s' := by
  obtain ⟨a, s₁, hrun1, hP⟩ := h
  exact spec (P := fun r s' => ∃ a, r = .ok a ∧ P a s') ⟨.ok a, s₁, hrun1, a, rfl, hP⟩ hrun

/-- A sequence ends if its parts do. -/
theorem bind (h : x.Total s P) (hok : ∀ a s', P (.ok a) s' → (f a).Total s' Q)
    (herror : ∀ e s', P (.error e) s' → Q (.error e) s') : (x >>= f).Total s Q := by
  obtain ⟨e | a, s₁, hrun, hP⟩ := h
  · exact ⟨.error e, s₁, bind_of_error hrun, herror e s₁ hP⟩
  · obtain ⟨r, s', hrest, hQ⟩ := hok a s₁ hP
    exact ⟨r, s', (bind_of_ok hrun).trans hrest, hQ⟩

end Total

/-! ### Loops -/

/-- At most so many turns of a loop. A turn says how to go on, or what the loop
gives. -/
def loop (turn : β → Prog σ ε (β ⊕ α)) : ℕ → β → Prog σ ε α
  | 0, _ => never
  | n + 1, b => do
    match ← turn b with
    | .inl b => loop turn n b
    | .inr a => pure a

section Loops

variable {turn : β → Prog σ ε (β ⊕ α)} {n : ℕ} {Q : Except ε α → σ → Prop} {I : β → σ → Prop}
  {s s' : σ}

theorem loop_next {b b' : β} (h : turn b s = some (.ok (.inl b'), s')) :
    loop turn (n + 1) b s = loop turn n b' s' := bind_of_ok h

theorem loop_done {b : β} {a : α} (h : turn b s = some (.ok (.inr a), s')) :
    loop turn (n + 1) b s = some (.ok a, s') := bind_of_ok h

theorem loop_error {b : β} {e : ε} (h : turn b s = some (.error e, s')) :
    loop turn (n + 1) b s = some (.error e, s') := bind_of_error h

/-- **What every turn preserves**, holds when the loop ends. -/
theorem loop_rule (hnext : ∀ ⦃b s b' s'⦄, I b s → turn b s = some (.ok (.inl b'), s') → I b' s')
    (hdone : ∀ ⦃b s a s'⦄, I b s → turn b s = some (.ok (.inr a), s') → Q (.ok a) s')
    (hfail : ∀ ⦃b s e s'⦄, I b s → turn b s = some (.error e, s') → Q (.error e) s') :
    ∀ {b s r s'}, I b s → loop turn n b s = some (r, s') → Q r s' := by
  induction n with
  | zero =>
    intro b s r s' _ hrun
    simp [loop] at hrun
  | succ n ih =>
    intro b s r s' hI hrun
    rcases bind_cases hrun with ⟨e, rfl, herr⟩ | ⟨next, s₁, hturn, hrest⟩
    · exact hfail hI herr
    · cases next with
      | inl b' => exact ih (hnext hI hturn) hrest
      | inr a =>
        obtain ⟨rfl, rfl⟩ := pure_eq_some_iff.mp hrest
        exact hdone hI hturn

/-- What a turn comes to: the loop goes on from a state of the one kind, or ends in one of the
other. -/
inductive TurnEnds (next : β → σ → Prop) (final : Except ε α → σ → Prop) :
    Except ε (β ⊕ α) → σ → Prop
  | next {b : β} {s : σ} : next b s → TurnEnds next final (.ok (.inl b)) s
  | done {a : α} {s : σ} : final (.ok a) s → TurnEnds next final (.ok (.inr a)) s
  | error {e : ε} {s : σ} : final (.error e) s → TurnEnds next final (.error e) s

theorem TurnEnds.imp {next next' : β → σ → Prop} {final final' : Except ε α → σ → Prop}
    {r : Except ε (β ⊕ α)} {s : σ} (h : TurnEnds next final r s)
    (hnext : ∀ b, next b s → next' b s) (hfinal : ∀ r, final r s → final' r s) :
    TurnEnds next' final' r s := by
  cases h with
  | next h => exact .next (hnext _ h)
  | done h => exact .done (hfinal _ h)
  | error h => exact .error (hfinal _ h)

/-- **A loop whose turns come to an end and make progress** comes to an end. -/
theorem loop_total (m : β → σ → ℕ) (hturn : ∀ ⦃b s⦄, I b s →
      (turn b).Total s (TurnEnds (fun b' s' => I b' s' ∧ m b' s' < m b s) Q)) {b : β}
    {s : σ} (hI : I b s) (hm : m b s < n) : (loop turn n b).Total s Q := by
  induction n generalizing b s with
  | zero => exact absurd hm (Nat.not_lt_zero _)
  | succ n ih =>
    obtain ⟨_, s₁, hrun, ⟨hI', hm'⟩ | hQ | hQ⟩ := hturn hI
    · rw [Total, loop_next hrun]
      exact ih hI' (Nat.lt_of_lt_of_le hm' (Nat.le_of_lt_succ hm))
    · exact ⟨_, s₁, loop_done hrun, hQ⟩
    · exact ⟨_, s₁, loop_error hrun, hQ⟩

/-- A turn takes the loop from one state to the next. -/
def Goes (turn : β → Prog σ ε (β ⊕ α)) (p q : β × σ) : Prop :=
  turn p.1 p.2 = some (.ok (.inl q.1), q.2)

end Loops

/-- The same for each element of a list. -/
def forEach (x : α → Prog σ ε Unit) : List α → Prog σ ε Unit
  | [] => pure ()
  | a :: as => do
    x a
    forEach x as

theorem forEach_append {x : α → Prog σ ε Unit} {as bs : List α} {s s₁ : σ}
    (h : forEach x as s = some (.ok (), s₁)) : forEach x (as ++ bs) s = forEach x bs s₁ := by
  induction as generalizing s with
  | nil =>
    obtain ⟨-, rfl⟩ := Prod.mk.inj (Option.some.inj h)
    rfl
  | cons a as ih =>
    obtain ⟨_, s₂, ha, has⟩ := bind_eq_ok_iff.mp h
    exact (bind_of_ok ha).trans (ih has)

/-- **A loop over a list**: if each turn succeeds and takes the invariant one element
further, the loop succeeds. -/
theorem forEach_returns {x : α → Prog σ ε Unit} {I : List α → σ → Prop} {as : List α}
    (hturn : ∀ done, ∀ a ∈ as, ∀ s, I done s →
      ∃ s', x a s = some (.ok (), s') ∧ I (done ++ [a]) s') {s : σ} (h : I [] s) :
    ∃ s', forEach x as s = some (.ok (), s') ∧ I as s' := by
  suffices hrest : ∀ done rest s, (∀ a ∈ rest, a ∈ as) → I done s →
      ∃ s', forEach x rest s = some (.ok (), s') ∧ I (done ++ rest) s' from
    hrest [] as s (fun _ ha => ha) h
  intro done rest
  induction rest generalizing done with
  | nil =>
    intro s _ hI
    exact ⟨s, rfl, (append_nil done).symm ▸ hI⟩
  | cons a rest ih =>
    intro s hrest hI
    obtain ⟨s₁, hrun, hI1⟩ := hturn done a (hrest a mem_cons_self) s hI
    obtain ⟨s', hrun', hI'⟩ :=
      ih (done ++ [a]) s₁ (fun b hb => hrest b (mem_cons_of_mem _ hb)) hI1
    refine ⟨s', bind_eq_ok_iff.mpr ⟨(), s₁, hrun, hrun'⟩, ?_⟩
    rwa [append_assoc] at hI'

/-- The same so many times over, and what it gives each time. -/
def times (x : Prog σ ε α) : ℕ → Prog σ ε (List α)
  | 0 => pure []
  | n + 1 => do
    let a ← x
    let as ← times x n
    pure (a :: as)

/-- What `x` gives for each element of a list. -/
def collect (x : α → Prog σ ε β) : List α → Prog σ ε (List β)
  | [] => pure []
  | a :: as => do
    let b ← x a
    let bs ← collect x as
    pure (b :: bs)

/-- What `x` gives for each element of a list, all in one. -/
def gather (x : α → Prog σ ε (List β)) (as : List α) : Prog σ ε (List β) := do
  let bss ← collect x as
  pure bss.flatten

/-! ### Computations that return more often -/

/-- Where `x` returns, `y` returns the same. -/
def Below (x y : Prog σ ε α) : Prop := ∀ ⦃s r⦄, x s = some r → y s = some r

section Order

variable {x y : Prog σ ε α} {f g : α → Prog σ ε β}

theorem Below.refl (x : Prog σ ε α) : x.Below x := fun _ _ h => h

theorem never_below (x : Prog σ ε α) : (never : Prog σ ε α).Below x := by
  intro s r h
  cases h

theorem Below.bind (hx : x.Below y) (hf : ∀ a, (f a).Below (g a)) :
    (x >>= f).Below (y >>= g) := by
  intro s r h
  rw [bind_apply] at h ⊢
  cases hrun : x s with
  | none =>
    rw [hrun] at h
    cases h
  | some r₁ =>
    rw [hrun] at h
    rw [hx hrun]
    obtain ⟨_ | a, s₁⟩ := r₁
    · exact h
    · exact hf a h

theorem Below.bind_right (hf : ∀ a, (f a).Below (g a)) : (x >>= f).Below (x >>= g) :=
  (Below.refl x).bind hf

theorem Below.bind_left (hx : x.Below y) : (x >>= f).Below (y >>= f) :=
  hx.bind fun _ => Below.refl _

theorem Below.forEach {x y : α → Prog σ ε Unit} (h : ∀ a, (x a).Below (y a)) (as : List α) :
    (Prog.forEach x as).Below (Prog.forEach y as) := by
  induction as with
  | nil => exact Below.refl _
  | cons a as ih => exact (h a).bind fun _ => ih

theorem Below.collect {x y : α → Prog σ ε β} (h : ∀ a, (x a).Below (y a)) (as : List α) :
    (Prog.collect x as).Below (Prog.collect y as) := by
  induction as with
  | nil => exact Below.refl _
  | cons a as ih => exact (h a).bind fun _ => ih.bind_left

theorem Below.gather {x y : α → Prog σ ε (List β)} (h : ∀ a, (x a).Below (y a)) (as : List α) :
    (Prog.gather x as).Below (Prog.gather y as) :=
  (Below.collect h as).bind_left

end Order

/-! ### Computations without a state -/

section Stateless

variable {x : α → Prog Unit ε β} {as : List α} {bs : List β}

/-- The same computation, where there is a state. -/
def lift (x : Prog Unit ε α) : Prog σ ε α := ⟨fun s => (x ()).map fun r => (r.1, s)⟩

/-- **A list of results**: one for each element. -/
theorem collect_eq_ok_iff : collect x as () = some (.ok bs, ()) ↔
    List.Forall₂ (fun a b => x a () = some (.ok b, ())) as bs := by
  induction as generalizing bs with
  | nil =>
    rw [collect, pure_eq_some_iff, List.forall₂_nil_left_iff]
    simp [eq_comm]
  | cons a as ih =>
    rw [collect, bind_eq_ok_iff, List.forall₂_cons_left_iff]
    constructor
    · rintro ⟨b, ⟨⟩, hb, hrest⟩
      obtain ⟨bs', hbs, rfl⟩ := bind_pure_eq_ok_iff.mp hrest
      exact ⟨b, bs', hb, ih.mp hbs, rfl⟩
    · rintro ⟨b, bs', hb, hbs, rfl⟩
      exact ⟨b, (), hb, bind_eq_ok_iff.mpr ⟨bs', (), ih.mpr hbs, rfl⟩⟩

/-- The elements of what was gathered. -/
theorem gather_eq_ok_iff {x : α → Prog Unit ε (List β)} : gather x as () = some (.ok bs, ()) ↔
      ∃ bss, List.Forall₂ (fun a b => x a () = some (.ok b, ())) as bss ∧ bs = bss.flatten := by
  rw [gather, bind_pure_eq_ok_iff]
  exact exists_congr fun bss => and_congr collect_eq_ok_iff eq_comm

theorem gather_singleton {x : α → Prog Unit ε (List β)} {a : α} :
    gather x [a] () = some (.ok bs, ()) ↔ x a () = some (.ok bs, ()) := by
  rw [gather_eq_ok_iff]
  constructor
  · rintro ⟨bss, hbss, rfl⟩
    obtain ⟨b, bss, hb, hnil, rfl⟩ := List.forall₂_cons_left_iff.mp hbss
    cases hnil
    rwa [flatten_singleton]
  · intro h
    exact ⟨[bs], .cons h .nil, flatten_singleton.symm⟩

/-- What any element contributes is in what was gathered. -/
theorem exists_of_gather {x : α → Prog Unit ε (List β)}
    (h : gather x as () = some (.ok bs, ())) {a : α} (ha : a ∈ as) :
    ∃ b, x a () = some (.ok b, ()) ∧ ∀ c ∈ b, c ∈ bs := by
  obtain ⟨bss, hbss, rfl⟩ := gather_eq_ok_iff.mp h
  obtain ⟨b, hb, hrun⟩ := forall₂_exists_right hbss ha
  exact ⟨b, hrun, fun c hc => mem_flatten.mpr ⟨b, hb, hc⟩⟩

/-- What was gathered comes from one of the elements. -/
theorem exists_of_mem_gather {x : α → Prog Unit ε (List β)}
    (h : gather x as () = some (.ok bs, ())) {c : β} (hc : c ∈ bs) :
    ∃ a ∈ as, ∃ b, x a () = some (.ok b, ()) ∧ c ∈ b := by
  obtain ⟨bss, hbss, rfl⟩ := gather_eq_ok_iff.mp h
  obtain ⟨b, hb, hcb⟩ := mem_flatten.mp hc
  obtain ⟨a, ha, hrun⟩ := forall₂_exists_right hbss.flip hb
  exact ⟨a, ha, b, hrun, hcb⟩

/-- **Fewer values**: where both computations give a list, the one is contained in the
other. -/
def Within (x y : Prog Unit ε (List β)) : Prop :=
  ∀ ⦃bs cs⦄, x () = some (.ok bs, ()) → y () = some (.ok cs, ()) → bs ⊆ cs

theorem Within.gather {x y : α → Prog Unit ε (List β)} {as' : List α}
    (h : ∀ a ∈ as, (x a).Within (y a)) (has : as ⊆ as') :
    (Prog.gather x as).Within (Prog.gather y as') := by
  intro bs cs hbs hcs c hc
  obtain ⟨a, ha, b, hb, hcb⟩ := exists_of_mem_gather hbs hc
  obtain ⟨b', hb', hsub⟩ := exists_of_gather hcs (has ha)
  exact hsub c (h a ha hb hb' hcb)

/-- The lists for the elements of a list, one by one. -/
theorem Within.collect {x y : α → Prog Unit ε (List β)} (h : ∀ a, (x a).Within (y a))
    {bss css : List (List β)} (hbss : Prog.collect x as () = some (.ok bss, ()))
    (hcss : Prog.collect y as () = some (.ok css, ())) : List.Forall₂ (· ⊆ ·) bss css := by
  rw [collect_eq_ok_iff] at hbss hcss
  induction hbss generalizing css with
  | nil =>
    cases hcss
    exact .nil
  | cons hb _ ih =>
    obtain ⟨c, css, hc, hrest, rfl⟩ := List.forall₂_cons_left_iff.mp hcss
    exact .cons (h _ hb hc) (ih hrest)

end Stateless

/-! ### What a computation may fail with -/

/-- Every code that is returned satisfies `P`. -/
def Raises (P : ε → Prop) (x : Prog σ ε α) : Prop := ∀ ⦃s e s'⦄, x s = some (.error e, s') → P e

section Failures

variable {P : ε → Prop} {f x : α → Prog σ ε β}

theorem raises_pure (a : α) : (pure a : Prog σ ε α).Raises P := by
  intro s e s' h
  cases (pure_eq_some_iff.mp h).1

theorem raises_never : (never : Prog σ ε α).Raises P := by
  intro s e s' h
  cases h

theorem raises_fail {e : ε} (he : P e) : (fail e : Prog σ ε α).Raises P := by
  intro s e' s' h
  obtain ⟨heq, -⟩ := fail_eq_some_iff.mp h
  exact Except.error.inj heq ▸ he

theorem Raises.bind {x : Prog σ ε α} (hx : x.Raises P)
    (hf : ∀ a, (f a).Raises P) : (x >>= f).Raises P := by
  intro s e s' h
  rcases bind_eq_error_iff.mp h with h | ⟨a, s₁, -, h⟩
  · exact hx h
  · exact hf a h

theorem Raises.collect {as : List α} (hx : ∀ a ∈ as, (x a).Raises P) :
    (Prog.collect x as).Raises P := by
  induction as with
  | nil => exact raises_pure []
  | cons a as ih =>
    refine (hx a mem_cons_self).bind fun _ => ?_
    exact (ih fun b hb => hx b (mem_cons_of_mem _ hb)).bind fun _ => raises_pure _

theorem Raises.gather {x : α → Prog σ ε (List β)} {as : List α}
    (hx : ∀ a ∈ as, (x a).Raises P) : (Prog.gather x as).Raises P :=
  (Raises.collect hx).bind fun _ => raises_pure _

/-- There is a result from every state, and every code satisfies `P`. -/
def Ends (P : ε → Prop) (x : Prog σ ε α) : Prop :=
  ∀ s, ∃ r s', x s = some (r, s') ∧ ∀ e, r = .error e → P e

theorem ends_pure (a : α) : (pure a : Prog σ ε α).Ends P := fun s => ⟨.ok a, s, rfl, nofun⟩

theorem ends_fail {e : ε} (he : P e) : (fail e : Prog σ ε α).Ends P :=
  fun s => ⟨.error e, s, rfl, fun _ heq => Except.error.inj heq ▸ he⟩

theorem ends_get : (get : Prog σ ε σ).Ends P := fun s => ⟨.ok s, s, rfl, nofun⟩

theorem ends_modify (g : σ → σ) : (modify g : Prog σ ε Unit).Ends P :=
  fun s => ⟨.ok (), g s, rfl, nofun⟩

theorem Ends.bind {x : Prog σ ε α} (hx : x.Ends P) (hf : ∀ a, (f a).Ends P) : (x >>= f).Ends P := by
  intro s
  obtain ⟨r, s₁, hrun, hr⟩ := hx s
  cases r with
  | error e =>
    refine ⟨.error e, s₁, bind_eq_error_iff.mpr (.inl hrun), fun e' he' => ?_⟩
    exact Except.error.inj he' ▸ hr e rfl
  | ok a =>
    obtain ⟨r, s', hrest, hr'⟩ := hf a s₁
    exact ⟨r, s', (bind_of_ok hrun).trans hrest, hr'⟩

theorem Ends.collect (hx : ∀ a, (x a).Ends P) (as : List α) : (Prog.collect x as).Ends P := by
  induction as with
  | nil => exact ends_pure []
  | cons a as ih => exact (hx a).bind fun _ => ih.bind fun _ => ends_pure _

end Failures

/-! ### Computations that are given more and more fuel -/

/-- With more fuel, the same results and possibly more of them. -/
def Rising (x : ℕ → Prog σ ε α) : Prop := ∀ n, (x n).Below (x (n + 1))

/-- With enough fuel, there is a result. -/
def Settles (x : ℕ → Prog Unit ε α) : Prop := ∃ n r, x n () = some r

theorem rising_const (x : Prog σ ε α) : Rising fun _ => x := fun _ => Below.refl x

variable {x : ℕ → Prog σ ε α}

theorem Rising.bind {f : ℕ → α → Prog σ ε β} (hx : Rising x)
    (hf : ∀ a, Rising fun n => f n a) : Rising fun n => x n >>= f n :=
  fun n => (hx n).bind fun a => hf a n

theorem Rising.le (hx : Rising x) {m n : ℕ} (h : m ≤ n) : (x m).Below (x n) := by
  induction h with
  | refl => exact Below.refl _
  | step _ ih => exact fun s r hrun => hx _ (ih hrun)

/-- There is one result, however much fuel there is. -/
theorem Rising.unique (hx : Rising x) {m n : ℕ} {s : σ}
    {r r' : Except ε α × σ} (h : x m s = some r) (h' : x n s = some r') : r = r' := by
  rcases Nat.le_total m n with hle | hle
  · exact Option.some.inj ((hx.le hle h).symm.trans h')
  · exact Option.some.inj (h.symm.trans (hx.le hle h'))

section Fuel

variable {x : ℕ → Prog Unit ε α}

/-- With one more unit of fuel it is the same. -/
theorem Settles.of_succ (h : Settles fun n => x (n + 1)) : Settles x := by
  obtain ⟨n, r, hr⟩ := h
  exact ⟨n + 1, r, hr⟩

theorem settles_const {y : Prog Unit ε α} {r : Except ε α × Unit} (h : y () = some r) :
    Settles fun _ => y :=
  ⟨0, r, h⟩

theorem Settles.bind {f : ℕ → α → Prog Unit ε β} (h : Settles x) (hx : Rising x)
    (hf : ∀ a, Rising fun n => f n a)
    (hs : ∀ a n, x n () = some (.ok a, ()) → Settles fun n => f n a) :
    Settles fun n => x n >>= f n := by
  obtain ⟨n, ⟨r, ⟨⟩⟩, hrun⟩ := h
  cases r with
  | error e => exact ⟨n, (.error e, ()), bind_eq_error_iff.mpr (.inl hrun)⟩
  | ok a =>
    obtain ⟨m, r, hrest⟩ := hs a n hrun
    refine ⟨max m n, r, ?_⟩
    rw [bind_of_ok (hx.le (Nat.le_max_right m n) hrun)]
    exact (hf a).le (Nat.le_max_left m n) hrest

theorem Settles.bind_pure (hx : Rising x) (h : Settles x) (g : α → β) :
    Settles fun n => x n >>= fun a => pure (g a) :=
  h.bind hx (fun _ => rising_const _) fun _ _ _ => settles_const rfl

theorem Settles.collect {x : ℕ → α → Prog Unit ε β} {as : List α}
    (hx : ∀ a, Rising fun n => x n a) (h : ∀ a ∈ as, Settles fun n => x n a) :
    Settles fun n => Prog.collect (x n) as := by
  induction as with
  | nil => exact settles_const rfl
  | cons a as ih =>
    have hrest : Rising fun n => Prog.collect (x n) as :=
      fun n => Below.collect (fun a => hx a n) as
    refine (h a mem_cons_self).bind (hx a) (fun b => ?_) fun b _ _ => ?_
    · exact hrest.bind fun bs => rising_const _
    · exact .bind_pure hrest (ih fun a' ha' => h a' (mem_cons_of_mem _ ha')) _

theorem Rising.gather {x : ℕ → α → Prog σ ε (List β)} (hx : ∀ a, Rising fun n => x n a)
    (as : List α) : Rising fun n => Prog.gather (x n) as :=
  fun n => Below.gather (fun a => hx a n) as

theorem Settles.gather {x : ℕ → α → Prog Unit ε (List β)} {as : List α}
    (hx : ∀ a, Rising fun n => x n a) (h : ∀ a ∈ as, Settles fun n => x n a) :
    Settles fun n => Prog.gather (x n) as :=
  .bind_pure (fun n => Below.collect (fun a => hx a n) as) (.collect hx h) _

end Fuel

/-! ### What a computation keeps to -/

/-- From whatever state `x` starts, the state it leaves is related to it. -/
def Keeps (R : σ → σ → Prop) (x : Prog σ ε α) : Prop :=
  ∀ ⦃s r s'⦄, x s = some (r, s') → R s s'

section Keeping

variable {R : σ → σ → Prop} {x : Prog σ ε α} {f : α → Prog σ ε β}

theorem Keeps.mono {R' : σ → σ → Prop} (hx : x.Keeps R) (h : ∀ ⦃s s'⦄, R s s' → R' s s') :
    x.Keeps R' :=
  fun _ _ _ hrun => h (hx hrun)

theorem keeps_modify {g : σ → σ} (h : ∀ s, R s (g s)) : (modify g : Prog σ ε Unit).Keeps R := by
  intro s r s' hrun
  obtain ⟨-, rfl⟩ := modify_eq_some_iff.mp hrun
  exact h s

theorem Keeps.attempt (hx : x.Keeps R) : x.attempt.Keeps R := by
  intro s r s' h
  cases r with
  | ok r => exact hx (attempt_eq_ok_iff.mp h)
  | error e => exact absurd h attempt_ne_error

theorem keeps_never : (never : Prog σ ε α).Keeps R := by
  intro s r s' h
  cases never_eq_some_iff.mp h

variable [IsPreorder σ R]

theorem keeps_pure (a : α) : (pure a : Prog σ ε α).Keeps R := by
  intro s r s' h
  obtain ⟨-, rfl⟩ := pure_eq_some_iff.mp h
  exact refl s

theorem keeps_fail (e : ε) : (fail e : Prog σ ε α).Keeps R := by
  intro s r s' h
  obtain ⟨-, rfl⟩ := fail_eq_some_iff.mp h
  exact refl s

theorem Keeps.bind (hx : x.Keeps R) (hf : ∀ a, (f a).Keeps R) : (x >>= f).Keeps R := by
  intro s r s' h
  rcases bind_cases h with ⟨e, -, hrun⟩ | ⟨a, s₁, hrun, hrest⟩
  · exact hx hrun
  · exact IsTrans.trans _ _ _ (hx hrun) (hf a hrest)

/-- The same where an error of the first is looked at. -/
theorem Keeps.bind_result {ε' : Type} {x : Prog σ ε (Except ε' α)}
    {f : Except ε' α → Prog σ ε β} (hx : x.Keeps R) (herror : ∀ e, (f (.error e)).Keeps R)
    (hok : ∀ a, (f (.ok a)).Keeps R) : (x >>= f).Keeps R := by
  refine hx.bind fun res => ?_
  cases res with
  | error e => exact herror e
  | ok a => exact hok a

/-- The same from one state, where what comes second may depend on what came first. -/
theorem Keeps.bind_from {r : Except ε β} {s s' : σ} (hx : x.Keeps R)
    (h : (x >>= f) s = some (r, s'))
    (hf : ∀ a s₁, x s = some (.ok a, s₁) → f a s₁ = some (r, s') → R s₁ s') : R s s' := by
  rcases bind_cases h with ⟨e, -, hrun⟩ | ⟨a, s₁, hrun, hrest⟩
  · exact hx hrun
  · exact IsTrans.trans _ _ _ (hx hrun) (hf a s₁ hrun hrest)

theorem keeps_get : (get : Prog σ ε σ).Keeps R := by
  intro s r s' h
  obtain ⟨-, rfl⟩ := get_eq_some_iff.mp h
  exact refl s

theorem Keeps.forEach {g : α → Prog σ ε Unit} {as : List α} (hg : ∀ a ∈ as, (g a).Keeps R) :
    (Prog.forEach g as).Keeps R := by
  induction as with
  | nil => exact keeps_pure ()
  | cons a as ih =>
    exact (hg a mem_cons_self).bind fun _ => ih fun b hb => hg b (mem_cons_of_mem _ hb)

theorem Keeps.times (hx : x.Keeps R) (n : ℕ) : (Prog.times x n).Keeps R := by
  induction n with
  | zero => exact keeps_pure []
  | succ n ih => exact hx.bind fun _ => ih.bind fun _ => keeps_pure _

theorem Keeps.loop {turn : β → Prog σ ε (β ⊕ α)} (hturn : ∀ b, (turn b).Keeps R) (n : ℕ) (b : β) :
    (Prog.loop turn n b).Keeps R := by
  intro s r s' h
  refine loop_rule (I := fun _ s₁ => R s s₁) (Q := fun _ s₁ => R s s₁) ?_ ?_ ?_ (refl s) h
  · exact fun _ _ _ _ hI hrun => IsTrans.trans _ _ _ hI (hturn _ hrun)
  · exact fun _ _ _ _ hI hrun => IsTrans.trans _ _ _ hI (hturn _ hrun)
  · exact fun _ _ _ _ hI hrun => IsTrans.trans _ _ _ hI (hturn _ hrun)

end Keeping

end Prog

/-! ### Faults -/

/-- What C leaves undefined, or stops the program for. -/
inductive Fault
  /-- An access outside of an array. -/
  | bounds
  /-- A pointer that is followed, or counted on from, is `NULL`. -/
  | null
  /-- An `assert` fails. -/
  | assertion
  /-- Memory is read that was not written to. -/
  | unset
  /-- Memory is used after it was freed. -/
  | freed
  /-- A result is not an `int`. -/
  | overflow
  deriving DecidableEq, Repr

end Distcc
