import Mathlib.Data.List.Basic
import Mathlib.Logic.Function.Basic

/-!
# Regular expressions that are matched by backtracking

A matcher that backtracks tries one way after the other, and the first one to succeed
gives the match. `Regex.run` has all of them, in the order in which they are tried:
it is a list of the places where a match may end, each with what the groups have caught on
the way there. The match is the head of the list (`Regex.first`).

What holds of every way is proved from membership alone: the bytes that a match consumed
(`Regex.consumed_of_mem_run`), and that a group catches what its expression consumes
(`Regex.mem_run_group`, `Regex.groups_of_mem_run`). Which way comes first
matters for repetitions. One that is greedy takes all it can (`Regex.first_many`), one
that is not takes as little as what comes after it allows (`Regex.firstThen_few`).
-/

namespace Distcc

open List

/-- A regular expression over `α`, with groups named by `γ`. -/
inductive Regex (α γ : Type) where
  | empty
  /-- One of some bytes. -/
  | char (p : α → Bool)
  /-- A condition on the byte before and on all that follows; nothing is consumed. -/
  | look (p : Option α → List α → Bool)
  | seq (r s : Regex α γ)
  /-- The first, or else the second. -/
  | alt (r s : Regex α γ)
  /-- Any number of times: as many as there can be, or else as few. -/
  | star (greedy : Bool) (r : Regex α γ)
  /-- What is matched is remembered. -/
  | group (g : γ) (r : Regex α γ)

namespace Regex

variable {α γ : Type}

/-- Where a match has got to. -/
structure Cursor (α γ : Type) where
  /-- The byte before. -/
  last : Option α
  /-- What is to come. -/
  rest : List α
  /-- What the groups have caught. -/
  groups : γ → Option (List α)

namespace Cursor

/-- A place in a string, before anything is matched. -/
def start (last : Option α) (s : List α) : Cursor α γ := ⟨last, s, fun _ => none⟩

/-- What lies between two places. -/
def taken (c c' : Cursor α γ) : List α := c.rest.take (c.rest.length - c'.rest.length)

/-- The byte before, once `u` was read. -/
def lastOf : Option α → List α → Option α
  | last, [] => last
  | _, a :: u => lastOf (some a) u

/-- The place behind `u`, where `v` is to come. -/
def past (c : Cursor α γ) (u v : List α) : Cursor α γ :=
  { c with last := lastOf c.last u, rest := v }

theorem taken_eq {c c' : Cursor α γ} {u : List α} (h : c.rest = u ++ c'.rest) :
    c.taken c' = u := by
  rw [taken, h, length_append, Nat.add_sub_cancel, take_left]

variable (c : Cursor α γ)

@[simp] theorem past_rest (u v : List α) : (c.past u v).rest = v := rfl

@[simp] theorem past_groups (u v : List α) : (c.past u v).groups = c.groups := rfl

@[simp] theorem past_last (u v : List α) :
    (c.past u v).last = lastOf c.last u := rfl

theorem past_nil {c : Cursor α γ} {v : List α} (h : c.rest = v) : c.past [] v = c := by
  subst h
  rfl

theorem past_cons (a : α) (u v : List α) : c.past (a :: u) v = (c.past [a] (u ++ v)).past u v := rfl

theorem lastOf_append (last : Option α) (u v : List α) :
    lastOf last (u ++ v) = lastOf (lastOf last u) v := by
  induction u generalizing last with
  | nil => rfl
  | cons a u ih => exact ih _

theorem past_past (u u' v v' : List α) : (c.past u v).past u' v' = c.past (u ++ u') v' := by
  simp only [past, lastOf_append]

theorem lastOf_concat (last : Option α) (u : List α) (a : α) :
    lastOf last (u ++ [a]) = some a := lastOf_append last u [a]

end Cursor

open Cursor

/-! ### Matching -/

variable [DecidableEq γ]

/-- The ends of a repetition, of so many turns. A turn that consumes nothing is not made. -/
def turns (step : Cursor α γ → List (Cursor α γ)) (greedy : Bool) :
    ℕ → Cursor α γ → List (Cursor α γ)
  | 0, c => [c]
  | n + 1, c =>
    let more := ((step c).filter fun c' => c'.rest.length < c.rest.length).flatMap
      (turns step greedy n)
    if greedy then more ++ [c] else c :: more

/-- **The places where a match may end**, in the order in which they are found. -/
def run : Regex α γ → Cursor α γ → List (Cursor α γ)
  | .empty, c => [c]
  | .char p, c =>
    match c.rest with
    | [] => []
    | a :: v => if p a then [c.past [a] v] else []
  | .look p, c => if p c.last c.rest then [c] else []
  | .seq r s, c => (run r c).flatMap (run s)
  | .alt r s, c => run r c ++ run s c
  | .star greedy r, c => turns (run r) greedy c.rest.length c
  | .group g r, c => (run r c).map fun c' =>
    { c' with groups := Function.update c'.groups g (some (c.taken c')) }

/-- The match at a place. -/
def first (r : Regex α γ) (c : Cursor α γ) : Option (Cursor α γ) := (run r c).head?

/-- A text. -/
def text [DecidableEq α] : List α → Regex α γ
  | [] => .empty
  | a :: u => .seq (.char fun b => b = a) (text u)

/-- One after the other. -/
def seqs : List (Regex α γ) → Regex α γ
  | [] => .empty
  | [r] => r
  | r :: rs => .seq r (seqs rs)

/-- The first of several that matches. -/
def alts : List (Regex α γ) → Regex α γ
  | [] => .char fun _ => false
  | [r] => r
  | r :: rs => .alt r (alts rs)

/-- There, or not there. -/
def opt (r : Regex α γ) : Regex α γ := .alt r .empty

/-- As often as possible. -/
def many (r : Regex α γ) : Regex α γ := .star true r

/-- As rarely as possible. -/
def few (r : Regex α γ) : Regex α γ := .star false r

/-- Once at least, as often as possible. -/
def plus (r : Regex α γ) : Regex α γ := .seq r (many r)

/-- `match`: a match at the beginning of a string. -/
def matchStart (r : Regex α γ) (s : List α) : Option (Cursor α γ) := first r (.start none s)

/-- `search`: the first place where there is a match; what lies before it, what is matched,
and the end of the match. -/
def search (r : Regex α γ) : Option α → List α → Option (List α × List α × Cursor α γ)
  | last, [] => (first r (.start last [])).map fun c => ([], [], c)
  | last, a :: s =>
    match first r (.start last (a :: s)) with
    | some c => some ([], (Cursor.start last (a :: s)).taken c, c)
    | none => (search r (some a) s).map fun found => (a :: found.1, found.2)

/-- `sub`: every match is replaced, from the left. Inside a match there are `skip` more
bytes of it. A match of nothing counts unless it stands where another one has just ended. -/
def subFrom (r : Regex α γ) (repl : Cursor α γ → List α) :
    (skip : ℕ) → (matched : Bool) → Option α → List α → List α
  | 0, matched, last, [] =>
    match first r (.start last []) with
    | some c => if matched then [] else repl c
    | none => []
  | 0, matched, last, a :: s =>
    match first r (.start last (a :: s)) with
    | none => a :: subFrom r repl 0 false (some a) s
    | some c =>
      match s.length + 1 - c.rest.length with
      | 0 => (if matched then [] else repl c) ++ a :: subFrom r repl 0 false (some a) s
      | n + 1 => repl c ++ subFrom r repl n true (some a) s
  | _ + 1, _, _, [] => []
  | n + 1, matched, _, a :: s => subFrom r repl n matched (some a) s

/-- `sub`, on a whole string. -/
def sub (r : Regex α γ) (repl : Cursor α γ → List α) (s : List α) : List α :=
  subFrom r repl 0 false none s

/-- `findall`: what is matched, from the left. -/
def findallFrom (r : Regex α γ) : (skip : ℕ) → Option α → List α → List (List α)
  | 0, last, [] => (first r (.start last [])).toList.map fun _ => []
  | 0, last, a :: s =>
    match first r (.start last (a :: s)) with
    | none => findallFrom r 0 (some a) s
    | some c =>
      match s.length + 1 - c.rest.length with
      | 0 => [] :: findallFrom r 0 (some a) s
      | n + 1 => (Cursor.start last (a :: s)).taken c :: findallFrom r n (some a) s
  | _ + 1, _, [] => []
  | n + 1, _, a :: s => findallFrom r n (some a) s

/-- `findall`, on a whole string. -/
def findall (r : Regex α γ) (s : List α) : List (List α) := findallFrom r 0 none s

/-! ### What every match does -/

variable {r s : Regex α γ} {c c' c₁ c₂ : Cursor α γ} {p : α → Bool} {g : γ} {greedy : Bool}
  {u v : List α} {last : Option α}

theorem mem_run_char : c' ∈ run (.char p) c ↔
    ∃ a v, p a = true ∧ c.rest = a :: v ∧ c' = c.past [a] v := by
  rw [run]
  cases c.rest with
  | nil => simp
  | cons a v =>
    dsimp only
    split
    · case isTrue hp => simp [hp]
    · case isFalse hp =>
      simp only [not_mem_nil, false_iff]
      rintro ⟨a', v', hp', hrest, -⟩
      obtain ⟨rfl, rfl⟩ := List.cons.inj hrest
      exact hp hp'

theorem mem_run_seq : c' ∈ run (.seq r s) c ↔ ∃ c₁ ∈ run r c, c' ∈ run s c₁ := mem_flatMap

theorem mem_run_alt : c' ∈ run (.alt r s) c ↔ c' ∈ run r c ∨ c' ∈ run s c := mem_append

theorem mem_run_look {p : Option α → List α → Bool} :
    c' ∈ run (.look p) c ↔ p c.last c.rest = true ∧ c' = c := by
  rw [run]
  split
  · case isTrue hp => simp [hp]
  · case isFalse hp => simp [hp]

omit [DecidableEq γ] in
/-- More turns than there are bytes make no difference. -/
theorem turns_eq {step : Cursor α γ → List (Cursor α γ)} {m n : ℕ}
    (hm : c.rest.length ≤ m) (hn : c.rest.length ≤ n) :
    turns step greedy m c = turns step greedy n c := by
  have hempty : c.rest.length = 0 →
      (step c).filter (fun c' => decide (c'.rest.length < c.rest.length)) = [] := by
    intro h0
    refine filter_eq_nil_iff.mpr fun c' _ => ?_
    simp [h0]
  induction m generalizing c n with
  | zero =>
    cases n with
    | zero => rfl
    | succ n => cases greedy <;> simp [turns, hempty (Nat.le_zero.mp hm)]
  | succ m ih =>
    cases n with
    | zero => cases greedy <;> simp [turns, hempty (Nat.le_zero.mp hn)]
    | succ n =>
      have hmore : ((step c).filter fun c' => c'.rest.length < c.rest.length).flatMap
            (turns step greedy m) =
          ((step c).filter fun c' => c'.rest.length < c.rest.length).flatMap
            (turns step greedy n) := by
        refine flatMap_congr fun c' hc' => ?_
        have hlt : c'.rest.length < c.rest.length := by simpa using (mem_filter.mp hc').2
        refine ih (Nat.le_of_lt_succ (Nat.lt_of_lt_of_le hlt hm))
          (Nat.le_of_lt_succ (Nat.lt_of_lt_of_le hlt hn)) ?_
        intro h0
        refine filter_eq_nil_iff.mpr fun c'' _ => ?_
        simp [h0]
      rw [turns, turns, hmore]

/-- **One turn of a repetition.** -/
theorem run_star (greedy : Bool) (r : Regex α γ) (c : Cursor α γ) :
    run (.star greedy r) c =
      let more := ((run r c).filter fun c' => c'.rest.length < c.rest.length).flatMap
        (run (.star greedy r))
      if greedy then more ++ [c] else c :: more := by
  have hmore : ((run r c).filter fun c' => c'.rest.length < c.rest.length).flatMap
        (turns (run r) greedy c.rest.length) =
      ((run r c).filter fun c' => c'.rest.length < c.rest.length).flatMap
        (run (.star greedy r)) := by
    refine flatMap_congr fun c' hc' => ?_
    have hlt : c'.rest.length < c.rest.length := by simpa using (mem_filter.mp hc').2
    exact turns_eq (Nat.le_of_lt hlt) (Nat.le_refl _)
  dsimp only
  rw [← hmore]
  exact turns_eq (n := c.rest.length + 1) (Nat.le_refl _) (Nat.le_succ _)

/-- **What every turn does**, a repetition does. -/
theorem star_induction {R : Cursor α γ → Cursor α γ → Prop} (hrefl : ∀ c, R c c)
    (hturn : ∀ c c₁ c', c₁ ∈ run r c → R c₁ c' → R c c') (h : c' ∈ run (.star greedy r) c) :
    R c c' := by
  induction hn : c.rest.length using Nat.strongRecOn generalizing c with
  | ind n ih =>
    have hcases : c' = c ∨ ∃ c₁ ∈ run r c, c₁.rest.length < c.rest.length ∧
        c' ∈ run (.star greedy r) c₁ := by
      rw [run_star] at h
      have hmem : c' = c ∨ c' ∈ ((run r c).filter fun c' => c'.rest.length < c.rest.length).flatMap
          (run (.star greedy r)) := by
        cases greedy with
        | true => simpa [or_comm] using h
        | false => simpa using h
      refine hmem.imp_right fun hmore => ?_
      obtain ⟨c₁, hc1, hrest⟩ := mem_flatMap.mp hmore
      obtain ⟨hrun, hlt⟩ := mem_filter.mp hc1
      exact ⟨c₁, hrun, by simpa using hlt, hrest⟩
    obtain rfl | ⟨c₁, hrun, hlt, hrest⟩ := hcases
    · exact hrefl c'
    · exact hturn c c₁ c' hrun (ih _ (hn ▸ hlt) hrest rfl)

/-- All bytes that the expression can consume satisfy `P`. -/
def Over (P : α → Prop) : Regex α γ → Prop
  | .empty => True
  | .char p => ∀ a, p a = true → P a
  | .look _ => True
  | .seq r s => Over P r ∧ Over P s
  | .alt r s => Over P r ∧ Over P s
  | .star _ r => Over P r
  | .group _ r => Over P r

omit [DecidableEq γ] in
theorem over_true (r : Regex α γ) : Over (fun _ => True) r := by
  induction r with
  | empty => trivial
  | char p => exact fun _ _ => trivial
  | look p => trivial
  | seq r s hr hs => exact ⟨hr, hs⟩
  | alt r s hr hs => exact ⟨hr, hs⟩
  | star greedy r hr => exact hr
  | group g r hr => exact hr

omit [DecidableEq γ] in
theorem over_text [DecidableEq α] {P : α → Prop} (hu : ∀ a ∈ u, P a) :
    Over P (text u : Regex α γ) := by
  induction u with
  | nil => trivial
  | cons a u ih =>
    obtain ⟨ha, hu⟩ := forall_mem_cons.mp hu
    exact ⟨fun b hb => of_decide_eq_true hb ▸ ha, ih hu⟩

/-- **What a match consumes.** -/
theorem consumed_of_mem_run {P : α → Prop} (hr : r.Over P) (h : c' ∈ run r c) :
    ∃ u, (∀ a ∈ u, P a) ∧ c.rest = u ++ c'.rest := by
  induction r generalizing c c' with
  | empty =>
    obtain rfl := mem_singleton.mp h
    exact ⟨[], by simp, rfl⟩
  | char p =>
    obtain ⟨a, v, hp, hrest, rfl⟩ := mem_run_char.mp h
    exact ⟨[a], by simpa using hr a hp, hrest⟩
  | look p =>
    obtain ⟨-, rfl⟩ := mem_run_look.mp h
    exact ⟨[], by simp, rfl⟩
  | seq r s ihr ihs =>
    obtain ⟨c₁, h1, h2⟩ := mem_run_seq.mp h
    obtain ⟨u, hu, hc⟩ := ihr hr.1 h1
    obtain ⟨v, hv, hc1⟩ := ihs hr.2 h2
    refine ⟨u ++ v, ?_, by rw [hc, hc1, append_assoc]⟩
    intro a ha
    exact (mem_append.mp ha).elim (hu a) (hv a)
  | alt r s ihr ihs =>
    rcases mem_run_alt.mp h with h | h
    · exact ihr hr.1 h
    · exact ihs hr.2 h
  | star greedy r ihr =>
    refine star_induction (R := fun c c' => ∃ u, (∀ a ∈ u, P a) ∧ c.rest = u ++ c'.rest) ?_ ?_ h
    · exact fun c => ⟨[], by simp, rfl⟩
    · rintro c c₁ c' h1 ⟨v, hv, hc1⟩
      obtain ⟨u, hu, hc⟩ := ihr hr h1
      refine ⟨u ++ v, ?_, by rw [hc, hc1, append_assoc]⟩
      intro a ha
      exact (mem_append.mp ha).elim (hu a) (hv a)
  | group g r ihr =>
    obtain ⟨c₁, h1, rfl⟩ := mem_map.mp h
    show ∃ u, (∀ a ∈ u, P a) ∧ c.rest = u ++ c₁.rest
    exact ihr hr h1

/-- Is there a group of that name? -/
def mentions (g : γ) : Regex α γ → Bool
  | .empty => false
  | .char _ => false
  | .look _ => false
  | .seq r s => mentions g r || mentions g s
  | .alt r s => mentions g r || mentions g s
  | .star _ r => mentions g r
  | .group g' r => g' = g || mentions g r

/-- **A group that is not there catches nothing.** -/
theorem groups_of_mem_run (hr : r.mentions g = false) (h : c' ∈ run r c) :
    c'.groups g = c.groups g := by
  induction r generalizing c c' with
  | empty =>
    obtain rfl := mem_singleton.mp h
    rfl
  | char p =>
    obtain ⟨a, v, -, -, rfl⟩ := mem_run_char.mp h
    rfl
  | look p =>
    obtain ⟨-, rfl⟩ := mem_run_look.mp h
    rfl
  | seq r s ihr ihs =>
    obtain ⟨hr, hs⟩ := Bool.or_eq_false_iff.mp hr
    obtain ⟨c₁, h1, h2⟩ := mem_run_seq.mp h
    exact (ihs hs h2).trans (ihr hr h1)
  | alt r s ihr ihs =>
    obtain ⟨hr, hs⟩ := Bool.or_eq_false_iff.mp hr
    rcases mem_run_alt.mp h with h | h
    · exact ihr hr h
    · exact ihs hs h
  | star greedy r ihr =>
    refine star_induction (R := fun c c' => c'.groups g = c.groups g) (fun _ => rfl) ?_ h
    intro c c₁ c' h1 hR
    exact hR.trans (ihr hr h1)
  | group g' r ihr =>
    obtain ⟨hne, hr⟩ := Bool.or_eq_false_iff.mp hr
    obtain ⟨c₁, h1, rfl⟩ := mem_map.mp h
    have hg : g ≠ g' := fun heq => of_decide_eq_false hne heq.symm
    exact (Function.update_of_ne hg _ _).trans (ihr hr h1)

/-- What a group catches is what its expression consumes. -/
theorem mem_run_group (h : c' ∈ run (.group g r) c) : ∃ c₁ ∈ run r c, ∃ u,
    c.rest = u ++ c₁.rest ∧ c' = { c₁ with groups := Function.update c₁.groups g (some u) } := by
  obtain ⟨c₁, h1, rfl⟩ := mem_map.mp h
  obtain ⟨u, -, hu⟩ := consumed_of_mem_run (over_true r) h1
  exact ⟨c₁, h1, u, hu, by rw [Cursor.taken_eq hu]⟩

/-! ### Which match comes first -/

theorem first_seq (h1 : first r c = some c₁) (h2 : first s c₁ = some c₂) :
    first (.seq r s) c = some c₂ := by
  obtain ⟨cs, hcs⟩ := head?_eq_some_iff.mp h1
  obtain ⟨cs', hcs'⟩ := head?_eq_some_iff.mp h2
  rw [first, run, hcs, flatMap_cons, hcs', cons_append, head?_cons]

theorem first_alt_left (h : first r c = some c₁) : first (.alt r s) c = some c₁ := by
  obtain ⟨cs, hcs⟩ := head?_eq_some_iff.mp h
  rw [first, run, hcs, cons_append, head?_cons]

theorem first_alt_right (h : run r c = []) : first (.alt r s) c = first s c := by
  rw [first, run, h, nil_append, first]

theorem run_seq_eq_nil (h : ∀ c₁ ∈ run r c, run s c₁ = []) : run (.seq r s) c = [] := by
  rw [run]
  exact flatMap_eq_nil_iff.mpr h

theorem first_group (h : first r c = some c₁) (hu : c.rest = u ++ c₁.rest) : first (.group g r) c =
      some { c₁ with groups := Function.update c₁.groups g (some u) } := by
  obtain ⟨cs, hcs⟩ := head?_eq_some_iff.mp h
  rw [first, run, hcs, map_cons, head?_cons, Cursor.taken_eq hu]

theorem run_opt_eq_self (h : run r c = []) : run (opt r) c = [c] := by
  rw [opt, run, h, nil_append, run]

theorem run_char_cons {a : α} {v : List α} (hrest : c.rest = a :: v) :
    run (.char p) c = if p a then [c.past [a] v] else [] := by
  rw [run, hrest]

theorem run_char_nil (hrest : c.rest = []) : run (.char p) c = [] := by
  rw [run, hrest]

theorem run_text [DecidableEq α] (h : c.rest = u ++ v) : run (text u) c = [c.past u v] := by
  induction u generalizing c with
  | nil => rw [text, run, Cursor.past_nil (v := v) h]
  | cons a u ih =>
    rw [text, run, run_char_cons (h.trans cons_append), if_pos (decide_eq_true rfl),
      flatMap_cons, flatMap_nil, append_nil, ih rfl, Cursor.past_cons c a u v]

theorem first_text [DecidableEq α] (h : c.rest = u ++ v) :
    first (text u) c = some (c.past u v) := by
  rw [first, run_text h, head?_cons]

theorem run_text_eq_nil [DecidableEq α] (h : ¬ u <+: c.rest) : run (text u) c = [] := by
  induction u generalizing c with
  | nil => exact absurd nil_prefix h
  | cons a u ih =>
    refine run_seq_eq_nil fun c₁ hc1 => ?_
    obtain ⟨b, v, hb, hrest, rfl⟩ := mem_run_char.mp hc1
    obtain rfl : b = a := by simpa using hb
    refine ih fun hpre => h ?_
    rw [hrest]
    exact cons_prefix_cons.mpr ⟨rfl, hpre⟩

theorem rest_of_mem_run_text [DecidableEq α] (h : c' ∈ run (text u) c) : c.rest = u ++ c'.rest := by
  by_cases hpre : u <+: c.rest
  · obtain ⟨v, hv⟩ := hpre
    rw [run_text hv.symm] at h
    obtain rfl := mem_singleton.mp h
    exact hv.symm
  · rw [run_text_eq_nil hpre] at h
    cases h

/-- A greedy repetition goes on after a turn. -/
theorem first_many_cons (h1 : first r c = some c₁) (hlt : c₁.rest.length < c.rest.length)
    (h2 : first (many r) c₁ = some c₂) : first (many r) c = some c₂ := by
  obtain ⟨cs, hcs⟩ := head?_eq_some_iff.mp h1
  obtain ⟨cs', hcs'⟩ := head?_eq_some_iff.mp h2
  change run (.star true r) c₁ = _ at hcs'
  rw [first, many, run_star, hcs, filter_cons_of_pos (by simpa using hlt),
    flatMap_cons, hcs']
  rfl

/-- A repetition without a turn. -/
theorem run_star_eq_self (h : run r c = []) : run (.star greedy r) c = [c] := by
  rw [run_star, h]
  cases greedy <;> rfl

/-- A repetition always has a match. -/
theorem exists_first_star (greedy : Bool) (r : Regex α γ) (c : Cursor α γ) :
    ∃ c', first (.star greedy r) c = some c' := by
  obtain ⟨c', cs, hcs⟩ : ∃ c' cs, run (.star greedy r) c = c' :: cs := by
    refine exists_cons_of_ne_nil ?_
    rw [run_star]
    cases greedy <;> simp
  exact ⟨c', by rw [first, hcs, head?_cons]⟩

/-- A repetition with one way to make a turn. -/
theorem run_star_of_run (h : run r c = [c₁])
    (hlt : c₁.rest.length < c.rest.length) : run (.star greedy r) c =
      if greedy then run (.star greedy r) c₁ ++ [c] else c :: run (.star greedy r) c₁ := by
  rw [run_star, h, filter_cons_of_pos (by simpa using hlt), filter_nil,
    flatMap_cons, flatMap_nil, append_nil]

/-- **A greedy repetition takes all it can.** -/
theorem first_many (hrest : c.rest = u ++ v) (hu : ∀ a ∈ u, p a = true)
    (hv : ∀ a ∈ v.head?, p a = false) : first (many (.char p)) c = some (c.past u v) := by
  induction u generalizing c with
  | nil =>
    have hnil : run (.char p) c = [] := by
      cases v with
      | nil => exact run_char_nil hrest
      | cons a v => rw [run_char_cons hrest, hv a rfl]; rfl
    rw [first, many, run_star_eq_self hnil, Cursor.past_nil (v := v) hrest]
    rfl
  | cons a u ih =>
    have hchar : first (.char p) c = some (c.past [a] (u ++ v)) := by
      rw [first, run_char_cons hrest, hu a mem_cons_self]
      rfl
    refine first_many_cons hchar ?_ ((ih rfl fun b hb => hu b (mem_cons_of_mem _ hb)).trans ?_)
    · rw [hrest, Cursor.past_rest, cons_append, length_cons]
      exact Nat.lt_succ_self _
    · rw [← Cursor.past_cons]

/-- A repetition that finds nothing. -/
theorem first_many_nothing (hc : ∀ a ∈ c.rest.head?, p a = false) :
    first (many (.char p)) c = some c := by
  have hfirst := first_many (u := []) rfl nofun hc
  rwa [past_nil rfl] at hfirst

/-- A greedy repetition that has to have a turn. -/
theorem first_plus (hrest : c.rest = u ++ v) (hne : u ≠ [])
    (hu : ∀ a ∈ u, p a = true) (hv : ∀ a ∈ v.head?, p a = false) :
    first (plus (.char p)) c = some (c.past u v) := by
  obtain ⟨a, u, rfl⟩ := exists_cons_of_ne_nil hne
  have hchar : first (.char p) c = some (c.past [a] (u ++ v)) := by
    rw [first, run_char_cons hrest, hu a mem_cons_self]
    rfl
  exact first_seq hchar (first_many rfl (fun b hb => hu b (mem_cons_of_mem _ hb)) hv)

/-- The first match that `k` can go on from, and where that leads. -/
def firstThen (r : Regex α γ) (k : Cursor α γ → List (Cursor α γ)) (c : Cursor α γ) :
    Option (Cursor α γ) := ((run r c).flatMap k).head?

section Then

variable {k : Cursor α γ → List (Cursor α γ)}

theorem firstThen_seq :
    firstThen (.seq r s) k c = firstThen r (fun c' => (run s c').flatMap k) c := by
  rw [firstThen, run, flatMap_assoc, firstThen]

theorem firstThen_alt_right (h : run r c = []) : firstThen (.alt r s) k c = firstThen s k c := by
  rw [firstThen, run, h, nil_append, firstThen]

theorem firstThen_group : firstThen (.group g r) k c = firstThen r (fun c' =>
    k { c' with groups := Function.update c'.groups g (some (c.taken c')) }) c := by
  rw [firstThen, run, flatMap_map, firstThen]

theorem firstThen_of_first (h : first r c = some c₁) (hk : (k c₁).head? = some c₂) :
    firstThen r k c = some c₂ := by
  obtain ⟨cs, hcs⟩ := head?_eq_some_iff.mp h
  obtain ⟨cs', hcs'⟩ := head?_eq_some_iff.mp hk
  rw [firstThen, hcs, flatMap_cons, hcs', cons_append, head?_cons]

theorem firstThen_seq_of_first (h : first r c = some c₁) (hs : firstThen s k c₁ = some c₂) :
    firstThen (.seq r s) k c = some c₂ := by
  rw [firstThen_seq]
  exact firstThen_of_first h hs

/-- **A repetition that is not greedy takes as little as possible**: there is no going on
from anything shorter. -/
theorem firstThen_few {u v : List α} (hrest : c.rest = u ++ v) (hu : ∀ a ∈ u, p a = true)
    (hmin : ∀ w b t, u = w ++ b :: t → k (c.past w (b :: t ++ v)) = [])
    (h : (k (c.past u v)).head? = some c₂) : firstThen (few (.char p)) k c = some c₂ := by
  induction u generalizing c with
  | nil =>
    rw [Cursor.past_nil (v := v) hrest] at h
    obtain ⟨cs, hcs⟩ := head?_eq_some_iff.mp h
    rw [firstThen, few, run_star]
    simp [hcs]
  | cons a u ih =>
    have hskip : k c = [] := by
      rw [← Cursor.past_nil hrest]
      exact hmin [] a u rfl
    have hstep : firstThen (few (.char p)) k (c.past [a] (u ++ v)) = some c₂ := by
      refine ih rfl (fun b hb => hu b (mem_cons_of_mem _ hb)) ?_ ?_
      · intro w b t hw
        exact hmin (a :: w) b t (by rw [hw, cons_append])
      · rwa [← Cursor.past_cons]
    have hlt : (c.past [a] (u ++ v)).rest.length < c.rest.length := by
      rw [hrest, Cursor.past_rest, cons_append, length_cons]
      exact Nat.lt_succ_self _
    have hrun : run (few (.char p)) c = c :: run (few (.char p)) (c.past [a] (u ++ v)) := by
      rw [few, run_star_of_run ?_ hlt]
      · rfl
      · rw [run_char_cons hrest, if_pos (hu a mem_cons_self)]
        rfl
    rw [firstThen, hrun, flatMap_cons, hskip, nil_append]
    exact hstep

end Then

/-! ### Searching -/

theorem search_of_first {t : List α} (h : first r (.start last t) = some c) :
    search r last t = some ([], (Cursor.start last t).taken c, c) := by
  cases t with
  | nil =>
    have htaken : (Cursor.start last [] : Cursor α γ).taken c = [] := take_nil
    rw [search, h, htaken, Option.map_some]
  | cons a t => rw [search, h]

/-- **Nothing is found** where there is no match at any place. -/
theorem search_eq_none_iff {t : List α} : search r last t = none ↔
      ∀ w v, t = w ++ v → first r (.start (lastOf last w) v) = none := by
  induction t generalizing last with
  | nil =>
    rw [search, Option.map_eq_none_iff]
    constructor
    · intro h w v hwv
      obtain ⟨rfl, rfl⟩ := append_eq_nil_iff.mp hwv.symm
      exact h
    · exact fun h => h [] [] rfl
  | cons a t ih =>
    constructor
    · intro h w v hwv
      rw [search] at h
      split at h
      · cases h
      · case h_2 hhere =>
        cases w with
        | nil =>
          rw [nil_append] at hwv
          exact hwv ▸ hhere
        | cons b w =>
          obtain ⟨rfl, rfl⟩ := List.cons.inj hwv
          exact ih.mp (Option.map_eq_none_iff.mp h) w v rfl
    · intro h
      have hhere : first r (.start last (a :: t)) = none := h [] (a :: t) rfl
      rw [search, hhere, Option.map_eq_none_iff]
      exact ih.mpr fun w v hwv => h (a :: w) v (congrArg (a :: ·) hwv)

/-- **What is found** is a match, and there is none before it. -/
theorem search_eq_some {t before found : List α} (h : search r last t = some (before, found, c)) :
    t = before ++ (found ++ c.rest) ∧
      c ∈ run r (.start (lastOf last before) (found ++ c.rest)) ∧
      ∀ w v, t = w ++ v → w.length < before.length →
        first r (.start (lastOf last w) v) = none := by
  induction t generalizing last before with
  | nil =>
    rw [search] at h
    obtain ⟨c', hc', heq⟩ := Option.map_eq_some_iff.mp h
    obtain ⟨rfl, rfl, rfl⟩ : [] = before ∧ [] = found ∧ c' = c := by simpa using heq
    have hrun := mem_of_mem_head? hc'
    obtain ⟨u, -, hu⟩ := consumed_of_mem_run (over_true r) hrun
    obtain ⟨-, hrest⟩ := append_eq_nil_iff.mp hu.symm
    rw [hrest]
    exact ⟨rfl, hrun, fun w v _ hlt => absurd hlt (Nat.not_lt_zero _)⟩
  | cons a t ih =>
    rw [search] at h
    split at h
    · case h_1 c' hc' =>
      obtain ⟨rfl, rfl, rfl⟩ :
          [] = before ∧ (Cursor.start last (a :: t)).taken c' = found ∧ c' = c := by
        simpa using h
      have hrun := mem_of_mem_head? hc'
      obtain ⟨u, -, hu⟩ := consumed_of_mem_run (over_true r) hrun
      rw [taken_eq hu, ← hu]
      exact ⟨rfl, hrun, fun w v _ hlt => absurd hlt (Nat.not_lt_zero _)⟩
    · case h_2 hhere =>
      obtain ⟨⟨before', found', c'⟩, hsearch, heq⟩ := Option.map_eq_some_iff.mp h
      obtain ⟨rfl, rfl, rfl⟩ : a :: before' = before ∧ found' = found ∧ c' = c := by
        simpa using heq
      obtain ⟨ht, hrun, hmin⟩ := ih hsearch
      refine ⟨congrArg (a :: ·) ht, hrun, fun w v hwv hlt => ?_⟩
      cases w with
      | nil =>
        rw [nil_append] at hwv
        exact hwv ▸ hhere
      | cons b w =>
        obtain ⟨rfl, htail⟩ := List.cons.inj hwv
        exact hmin w v htail (Nat.lt_of_succ_lt_succ hlt)

/-! ### Replacing -/

section Replacing

variable {repl : Cursor α γ → List α} {matched : Bool}

/-- Where there is no match, the text stays. -/
theorem subFrom_append
    (h : ∀ w b t, u = w ++ b :: t → first r (.start (lastOf last w) (b :: t ++ v)) = none) :
    ∃ matched', subFrom r repl 0 matched last (u ++ v) =
      u ++ subFrom r repl 0 matched' (lastOf last u) v := by
  induction u generalizing last matched with
  | nil => exact ⟨matched, rfl⟩
  | cons a u ih =>
    have hsub : ∃ matched', subFrom r repl 0 false (some a) (u ++ v) =
        u ++ subFrom r repl 0 matched' (lastOf (some a) u) v :=
      ih fun w b t hw => h (a :: w) b t (by rw [hw, cons_append])
    obtain ⟨matched', hsub⟩ := hsub
    refine ⟨matched', ?_⟩
    have hnone := h [] a u rfl
    rw [cons_append, subFrom, show first r (.start last (a :: (u ++ v))) = none from hnone]
    exact congrArg (a :: ·) hsub

theorem subFrom_eq_self (h : ∀ w t, u = w ++ t → first r (.start (lastOf last w) t) = none) :
    subFrom r repl 0 matched last u = u := by
  have hsub : ∃ matched', subFrom r repl 0 matched last (u ++ []) =
      u ++ subFrom r repl 0 matched' (lastOf last u) [] :=
    subFrom_append fun w b t hw => by
      rw [append_nil]
      exact h w (b :: t) hw
  obtain ⟨matched', hsub⟩ := hsub
  rw [append_nil] at hsub
  rw [hsub, subFrom, h u [] (append_nil u).symm]
  exact append_nil u

theorem subFrom_skip : subFrom r repl u.length matched last (u ++ v) =
    subFrom r repl 0 matched (lastOf last u) v := by
  induction u generalizing last with
  | nil => rfl
  | cons a u ih => exact ih

/-- **A match is replaced.** -/
theorem subFrom_of_first (hu : u ≠ []) (h : first r (.start last (u ++ v)) = some c)
    (hc : c.rest = v) : subFrom r repl 0 matched last (u ++ v) =
      repl c ++ subFrom r repl 0 true (lastOf last u) v := by
  obtain ⟨a, u, rfl⟩ := exists_cons_of_ne_nil hu
  have hlen : (u ++ v).length + 1 - c.rest.length = u.length + 1 := by
    rw [hc, length_append]
    omega
  rw [cons_append] at h ⊢
  rw [subFrom, h]
  simp only [hlen]
  rw [subFrom_skip]
  rfl

/-- Matches of nothing that are replaced by nothing. -/
theorem subFrom_nothing (h : ∀ last t c, first r (.start last t) = some c → c.rest = t) :
    subFrom r (fun _ => []) 0 matched last u = u := by
  induction u generalizing matched last with
  | nil =>
    rw [subFrom]
    split
    · split <;> rfl
    · rfl
  | cons a u ih =>
    rw [subFrom]
    split
    · exact congrArg (a :: ·) ih
    · case h_2 c hc =>
      have hlen : u.length + 1 - c.rest.length = 0 := by
        rw [h _ _ _ hc, length_cons, Nat.sub_self]
      rw [hlen]
      cases matched <;> exact congrArg (a :: ·) ih

end Replacing

/-! ### Bytes -/

section Bytes

/-- `\w` -/
def isWord (b : UInt8) : Bool := (48 ≤ b ∧ b ≤ 57) ∨ (65 ≤ b ∧ b ≤ 90) ∨ b = 95 ∨ (97 ≤ b ∧ b ≤ 122)

/-- `.` -/
def dot : Regex UInt8 γ := .char fun b => b ≠ 10

/-- A word begins or ends here. -/
def atBoundary (last : Option UInt8) (rest : List UInt8) : Bool :=
  last.any isWord != rest.head?.any isWord

/-- `\b` -/
def boundary : Regex UInt8 γ := .look atBoundary

/-- `\B` -/
def noBoundary : Regex UInt8 γ := .look fun last rest => !atBoundary last rest

/-- `^`, with `re.MULTILINE` -/
def lineStart : Regex UInt8 γ := .look fun last _ => last = none ∨ last = some 10

/-- `^` -/
def textStart : Regex UInt8 γ := .look fun last _ => last = none

/-- `$` -/
def textEnd : Regex UInt8 γ := .look fun _ rest => rest = [] ∨ rest = [10]

/-- `(?!…)`, for a text. -/
def notAhead (u : List UInt8) : Regex UInt8 γ := .look fun _ rest => !u.isPrefixOf rest

end Bytes

end Regex

end Distcc
