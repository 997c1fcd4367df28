import Mathlib.Algebra.Ring.Parity
import Mathlib.Data.List.Induction
import Distcc.Base.Prog

/-!
# Walking along a vector that ends with NULL

Loops of the form `for (i = 0; (a = argv[i]); i++)`, over a vector of pointers whose end is
marked by a `NULL`. The body may look at the next slot, and it may take the index one
further, so that the next element is stepped over. A body that does so without looking, at
the last element, makes the loop go on behind the `NULL`.

What is behind the `NULL` is not part of the vector. A walk is modelled on all the slots
there are (`walkSlots`), and an access outside of them is a fault. What it is on the
elements alone is `walkWords`, which is `none` if the walk goes on behind the `NULL`.
In any other case both agree, whatever is behind it (`walkSlots_of_some`); and with
nothing behind it, a walk that goes on is a fault (`walkSlots_of_none`).

A walk that never stops early and steps over an element after those with a property, goes on
behind the `NULL` if the run of such elements at the end of the vector is odd
(`walkWords_eq_none_iff`): in such a run, each second one is stepped over.
-/

namespace Distcc

open List Prog

variable {α σ ρ : Type}

/-- The slots of a vector with these elements, and what is behind it. -/
def terminated (words : List α) (behind : List (Option α)) : List (Option α) :=
  words.map some ++ none :: behind

/-- The elements of a vector. -/
def wordsOf : List (Option α) → List α
  | some a :: slots => a :: wordsOf slots
  | _ => []

@[simp] theorem wordsOf_terminated (words : List α) (behind : List (Option α)) :
    wordsOf (terminated words behind) = words := by
  induction words with
  | nil => rfl
  | cons a words ih => exact congrArg (a :: ·) ih

/-- `v[i]` -/
def slotAt (v : List (Option α)) (i : ℕ) : Prog Unit Fault (Option α) :=
  match v[i]? with
  | none => Prog.fail .bounds
  | some slot => pure slot

/-- How a loop goes on. -/
inductive Move (σ ρ : Type) where
  /-- With the next element. -/
  | next (s : σ)
  /-- With the element after the next. -/
  | skip (s : σ)
  /-- Not at all. -/
  | stop (r : ρ)

/-- What the body of a loop does with an element. -/
inductive Body (α σ ρ : Type) where
  /-- It goes on. -/
  | move (m : Move σ ρ)
  /-- It looks at the next slot, and goes on. -/
  | look (f : Option α → Move σ ρ)

/-- How the loop goes on, this being the next slot. -/
def Body.after (body : Body α σ ρ) (slot : Option α) : Move σ ρ :=
  match body with
  | .move m => m
  | .look f => f slot

section Walk

variable (step : σ → α → Body α σ ρ)

/-- Going on from the element with this index. -/
def Move.from (i : ℕ) : Move σ ρ → ℕ × σ ⊕ (σ ⊕ ρ)
  | .next s => .inl (i + 1, s)
  | .skip s => .inl (i + 2, s)
  | .stop r => .inr (.inr r)

/-- A turn of the loop. -/
def walkTurn (v : List (Option α)) (st : ℕ × σ) : Prog Unit Fault (ℕ × σ ⊕ (σ ⊕ ρ)) := do
  match ← slotAt v st.1 with
  | none => pure (.inr (.inl st.2))
  | some a =>
    match step st.2 a with
    | .move m => pure (m.from st.1)
    | .look f => do
      let slot ← slotAt v (st.1 + 1)
      pure ((f slot).from st.1)

/-- The loop: it ends at the `NULL`, or stops. -/
def walkSlots (v : List (Option α)) (s : σ) : Prog Unit Fault (σ ⊕ ρ) :=
  Prog.loop (walkTurn step v) (v.length + 1) (0, s)

/-- The loop, on the elements from one of them on. -/
def walkWords : List α → σ → Option (σ ⊕ ρ)
  | [], s => some (.inl s)
  | a :: rest, s =>
    match (step s a).after rest.head? with
    | .next s => walkWords rest s
    | .skip s =>
      match rest with
      | [] => none
      | _ :: rest => walkWords rest s
    | .stop r => some (.inr r)

end Walk

section Turns

variable {step : σ → α → Body α σ ρ} {pre words rest : List α} {behind : List (Option α)} {a : α}
  {s : σ} {k : ℕ} {ι β : Type} (p : α → Bool)

theorem getElem?_terminated (pre words : List α) (behind : List (Option α)) :
    (terminated (pre ++ words) behind)[pre.length]? = some words.head? := by
  have hlen : (pre.map some).length = pre.length := length_map ..
  rw [terminated, map_append, append_assoc, ← hlen, getElem?_append_right le_rfl,
    Nat.sub_self]
  cases words <;> rfl

theorem slotAt_terminated (pre words : List α) (behind : List (Option α)) :
    slotAt (terminated (pre ++ words) behind) pre.length () = some (.ok words.head?, ()) := by
  rw [slotAt, getElem?_terminated]
  rfl

/-- The loop ends at the `NULL`. -/
theorem walkTurn_nil :
    walkTurn step (terminated pre behind) (pre.length, s) () = some (.ok (.inr (.inl s)), ()) := by
  have hslot := slotAt_terminated pre [] behind
  rw [append_nil] at hslot
  rw [walkTurn, bind_of_ok hslot]
  rfl

theorem walkTurn_cons :
    walkTurn step (terminated (pre ++ a :: rest) behind) (pre.length, s) () =
      some (.ok (((step s a).after rest.head?).from pre.length), ()) := by
  rw [walkTurn, bind_of_ok (slotAt_terminated pre (a :: rest) behind)]
  dsimp only [head?_cons]
  cases step s a with
  | move m => rfl
  | look f =>
    have hnext := slotAt_terminated (pre ++ [a]) rest behind
    rw [append_assoc, singleton_append, length_append] at hnext
    exact bind_of_ok hnext

/-- Behind the `NULL` there is nothing. -/
theorem walkTurn_behind :
    walkTurn step (terminated pre []) (pre.length + 1, s) () = some (.error .bounds, ()) := by
  have hslot : slotAt (terminated pre []) (pre.length + 1) () = some (.error .bounds, ()) := by
    rw [slotAt, getElem?_eq_none]
    · rfl
    · simp [terminated]
  exact bind_of_error hslot

theorem walkTurn_next {s' : σ} (hmove : (step s a).after rest.head? = .next s') :
    walkTurn step (terminated (pre ++ a :: rest) behind) (pre.length, s) () =
      some (.ok (.inl ((pre ++ [a]).length, s')), ()) := by
  rw [walkTurn_cons, hmove, length_append]
  rfl

theorem walkTurn_skip {s' : σ} {b : α} (hmove : (step s a).after (b :: rest).head? = .skip s') :
    walkTurn step (terminated (pre ++ a :: b :: rest) behind) (pre.length, s) () =
      some (.ok (.inl ((pre ++ [a, b]).length, s')), ()) := by
  rw [walkTurn_cons, hmove, length_append]
  rfl

/-- With enough turns, the walk from an element on is that on the elements. If it goes on behind
the `NULL`, where there is nothing, this is a fault. -/
theorem loop_walkTurn (hbehind : walkWords step words s = none → behind = [])
    (hk : words.length < k) :
    Prog.loop (walkTurn step (terminated (pre ++ words) behind)) k (pre.length, s) () =
      some ((walkWords step words s).elim (.error .bounds) .ok, ()) := by
  fun_induction walkWords step words s generalizing pre k with
  | case1 s =>
    obtain ⟨k, rfl⟩ := Nat.exists_eq_add_one.mpr hk
    rw [append_nil]
    exact loop_done walkTurn_nil
  | case2 a rest s s' hmove ih =>
    obtain ⟨k, rfl⟩ := Nat.exists_eq_add_one.mpr (Nat.zero_lt_of_lt hk)
    have hrest := @ih (pre ++ [a]) k hbehind (Nat.lt_of_succ_lt_succ hk)
    rw [append_assoc] at hrest
    exact (loop_next (walkTurn_next hmove)).trans hrest
  | case3 a s s' hmove =>
    obtain rfl := hbehind rfl
    obtain ⟨k, rfl⟩ := Nat.exists_eq_add_of_le' (show 2 ≤ k from hk)
    have hturn : walkTurn step (terminated (pre ++ [a]) []) (pre.length, s) () =
        some (.ok (.inl ((pre ++ [a]).length + 1, s')), ()) := by
      rw [walkTurn_cons, hmove, length_append]
      rfl
    rw [loop_next hturn]
    exact loop_error walkTurn_behind
  | case4 a s s' b rest hmove ih =>
    obtain ⟨k, rfl⟩ := Nat.exists_eq_add_one.mpr (Nat.zero_lt_of_lt hk)
    have hrest := @ih (pre ++ [a, b]) k hbehind (by simp at hk; omega)
    rw [append_assoc] at hrest
    exact (loop_next (walkTurn_skip hmove)).trans hrest
  | case5 a rest s r' hmove =>
    obtain ⟨k, rfl⟩ := Nat.exists_eq_add_one.mpr (Nat.zero_lt_of_lt hk)
    refine loop_done ?_
    rw [walkTurn_cons, hmove]
    rfl

theorem walkSlots_eq (hbehind : walkWords step words s = none → behind = []) :
    walkSlots step (terminated words behind) s () =
      some ((walkWords step words s).elim (.error .bounds) .ok, ()) := by
  refine @loop_walkTurn _ _ _ step [] words behind s _ hbehind ?_
  rw [terminated, length_append, length_map, length_cons]
  omega

/-- **A walk that stays inside** depends on the elements only. -/
theorem walkSlots_of_some {r : σ ⊕ ρ} (h : walkWords step words s = some r)
    (behind : List (Option α)) :
    walkSlots step (terminated words behind) s () = some (.ok r, ()) := by
  rw [walkSlots_eq (h ▸ nofun), h]
  rfl

/-- **A walk that goes on behind the vector** is a fault. -/
theorem walkSlots_of_none (h : walkWords step words s = none) :
    walkSlots step (terminated words []) s () = some (.error .bounds, ()) := by
  rw [walkSlots_eq fun _ => rfl, h]
  rfl

/-! ### Staying inside -/

/-- **A function stays inside what it is given**: whatever is outside, it ends in the same
way, and not with an access there. -/
def Inside {ι β : Type} (f : ι → Prog Unit Fault β) : Prop :=
  ∃ r, r ≠ .error .bounds ∧ ∀ i, f i () = some (r, ())

/-- **A function stays inside if the walk it begins with does**, and what comes after it. -/
theorem inside_walkSlots_bind_iff {f : ι → Prog Unit Fault β}
    {behind : ι → List (Option α)} {k : ι → σ ⊕ ρ → Prog Unit Fault β}
    (hf : ∀ i, f i () = (walkSlots step (terminated words (behind i)) s >>= k i) ())
    (hbehind : ∃ i, behind i = [])
    (hk : ∀ r, walkWords step words s = some r → Inside fun i => k i r) :
    Inside f ↔ walkWords step words s ≠ none := by
  constructor
  · rintro ⟨r, hr, hrun⟩ hnone
    obtain ⟨i, hi⟩ := hbehind
    have hfault := (hf i).trans (bind_of_error (hi ▸ walkSlots_of_none hnone))
    obtain ⟨rfl, -⟩ := Prod.mk.inj (Option.some.inj ((hrun i).symm.trans hfault))
    exact hr rfl
  · intro hsome
    obtain ⟨r, hr⟩ := Option.ne_none_iff_exists'.mp hsome
    obtain ⟨b, hb, hrun⟩ := hk r hr
    refine ⟨b, hb, fun i => ?_⟩
    rw [hf, bind_of_ok (walkSlots_of_some hr (behind i)), hrun]

theorem Inside.comp {ι κ β : Type} {f : ι → Prog Unit Fault β} (h : Inside f) (g : κ → ι) :
    Inside fun i => f (g i) := by
  obtain ⟨r, hr, hrun⟩ := h
  exact ⟨r, hr, fun i => hrun (g i)⟩

theorem Inside.bind {ι β γ : Type} {f : ι → Prog Unit Fault β} {k : ι → β → Prog Unit Fault γ}
    (hf : Inside f) (hk : ∀ b, Inside fun i => k i b) : Inside fun i => f i >>= k i := by
  obtain ⟨r, hr, hrun⟩ := hf
  cases r with
  | error e => exact ⟨.error e, fun he => hr (congrArg _ (Except.error.inj he)), fun i =>
      bind_of_error (hrun i)⟩
  | ok b =>
    obtain ⟨r', hr', hrun'⟩ := hk b
    exact ⟨r', hr', fun i => (bind_of_ok (hrun i)).trans (hrun' i)⟩

theorem inside_fail {e : Fault} (h : e ≠ .bounds) :
    Inside fun _ : ι => (Prog.fail e : Prog Unit Fault β) :=
  ⟨.error e, fun he => h (Except.error.inj he), fun _ => rfl⟩

theorem inside_pure (b : β) : Inside fun _ : ι => (pure b : Prog Unit Fault β) :=
  ⟨.ok b, nofun, fun _ => rfl⟩

/-! ### Elements that are stepped over -/

/-- Is the element after these to be stepped over, as those are that follow an element with
the property? -/
def pending (p : α → Bool) : Bool → List α → Bool
  | skip, [] => skip
  | skip, a :: rest => pending p (!skip && p a) rest

@[simp] theorem pending_nil (skip : Bool) : pending p skip [] = skip := rfl

@[simp] theorem pending_cons (skip : Bool) (a : α) (rest : List α) :
    pending p skip (a :: rest) = pending p (!skip && p a) rest := rfl

theorem pending_append (skip : Bool) (xs ys : List α) :
    pending p skip (xs ++ ys) = pending p (pending p skip xs) ys := by
  induction xs generalizing skip with
  | nil => rfl
  | cons a xs ih => exact ih (!skip && p a)

/-- The run at the end of a vector of elements with the property is odd. -/
def Dangles (p : α → Bool) (words : List α) : Prop := Odd (words.reverse.takeWhile p).length
deriving Decidable

/-- In a run of elements with the property, each second one is stepped over. -/
theorem dangles_iff_pending (words : List α) : Dangles p words ↔ pending p false words = true := by
  induction words using List.reverseRecOn with
  | nil => simp [Dangles]
  | append_singleton words a ih =>
    rw [pending_append, pending_cons, pending_nil, Dangles, reverse_append]
    rw [Dangles] at ih
    cases hp : p a with
    | false => simp [hp]
    | true => simp [hp, Nat.odd_add_one, ih]

/-- **A walk that never stops goes on behind the vector** if an element there would be stepped
over. -/
theorem walkWords_eq_none_iff {p : α → Bool}
    (hskip : ∀ s a slot, p a = true → ∃ s', (step s a).after slot = .skip s')
    (hnext : ∀ s a slot, p a = false → ∃ s', (step s a).after slot = .next s') :
    walkWords step words s = none ↔ Dangles p words := by
  rw [dangles_iff_pending]
  fun_induction walkWords step words s with
  | case1 s => simp
  | case2 a rest s s' hmove ih =>
    have hp : p a = false := by
      by_contra hp
      obtain ⟨_, hmove'⟩ := hskip s a rest.head? (Bool.not_eq_false _ ▸ hp)
      cases hmove.symm.trans hmove'
    rw [ih, pending_cons, hp]
    rfl
  | case3 a s s' hmove =>
    have hp : p a = true := by
      by_contra hp
      obtain ⟨_, hmove'⟩ := hnext s a none (Bool.not_eq_true _ ▸ hp)
      cases hmove.symm.trans hmove'
    simp [hp]
  | case4 a s s' b rest hmove ih =>
    have hp : p a = true := by
      by_contra hp
      obtain ⟨_, hmove'⟩ := hnext s a (some b) (Bool.not_eq_true _ ▸ hp)
      cases hmove.symm.trans hmove'
    rw [ih, pending_cons, hp]
    rfl
  | case5 a rest s r' hmove =>
    cases hp : p a with
    | true =>
      obtain ⟨_, hmove'⟩ := hskip s a rest.head? hp
      cases hmove.symm.trans hmove'
    | false =>
      obtain ⟨_, hmove'⟩ := hnext s a rest.head? hp
      cases hmove.symm.trans hmove'

end Turns

end Distcc
