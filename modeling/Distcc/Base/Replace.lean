import Mathlib.Data.List.Infix
import Mathlib.Data.Nat.Notation

/-!
# Replacing a word in a text

A word `s` is replaced by a word `c` of the same length, in place. What this should do is
`replaceAll`: from left to right, each occurrence that does not overlap the one before
it. What a loop over the positions does is `scanReplace`: it looks at each position in
the text as it is by then, and so may find the word where it has put in a part of it.

The two differ at the first position where one replaces and the other does not
(`scanReplace_eq_iff`). The reason is that a replacement changes nothing before the
place where `s` and `c` first differ. So if the two disagree at a position, they disagree for
good on the element that stands as far behind it.
-/

namespace Distcc

open List

variable {α : Type} [DecidableEq α] (s c : List α)

/-- **Replacing from left to right**, with `pending` for what is still to be put in. An
occurrence counts if something is behind it. -/
def replaceFrom : List α → List α → List α
  | _, [] => []
  | r :: pending, _ :: rest => r :: replaceFrom pending rest
  | [], b :: rest =>
    if s <+: b :: rest ∧ s.length < (b :: rest).length then
      match c with
      | [] => b :: replaceFrom [] rest
      | r :: pending => r :: replaceFrom pending rest
    else b :: replaceFrom [] rest

/-- Replacing each occurrence that something is behind of. -/
def replaceAll (text : List α) : List α := replaceFrom s c [] text

/-- Replacing the word at the beginning of a text, if it is there. -/
def putIn (text : List α) : List α := if s <+: text then c ++ text.drop s.length else text

/-- A loop over the first positions of a text, which replaces the word where it finds it. -/
def scanReplace : ℕ → List α → List α
  | 0, text => text
  | n + 1, text =>
    match putIn s c text with
    | [] => []
    | b :: rest => b :: scanReplace n rest

/-- The occurrences that are replaced: their positions, and what is behind them. The first of
the positions is `i`, and `k` elements belong to the occurrence before. -/
def occurrencesFrom : ℕ → ℕ → List α → List (ℕ × List α)
  | _, _, [] => []
  | k + 1, i, _ :: rest => occurrencesFrom k (i + 1) rest
  | 0, i, b :: rest =>
    if s <+: b :: rest ∧ s.length < (b :: rest).length then
      (i, rest.drop (s.length - 1)) :: occurrencesFrom (s.length - 1) (i + 1) rest
    else occurrencesFrom 0 (i + 1) rest

/-- The occurrences that are replaced. -/
def occurrences (text : List α) : List (ℕ × List α) := occurrencesFrom s 0 0 text

/-! ### Texts do not change their length -/

variable {s c}

theorem putIn_of_not_isPrefix {text : List α} (h : ¬s <+: text) : putIn s c text = text := if_neg h

theorem putIn_append (u : List α) : putIn s c (s ++ u) = c ++ u := by
  rw [putIn, if_pos (prefix_append s u), drop_left]

theorem length_putIn (h : c.length = s.length) (text : List α) :
    (putIn s c text).length = text.length := by
  by_cases hs : s <+: text
  · obtain ⟨u, rfl⟩ := hs
    rw [putIn_append, length_append, length_append, h]
  · rw [putIn_of_not_isPrefix hs]

theorem length_scanReplace (h : c.length = s.length) (n : ℕ) (text : List α) :
    (scanReplace s c n text).length = text.length := by
  induction n generalizing text with
  | zero => rfl
  | succ n ih =>
    rw [scanReplace, ← length_putIn h text]
    cases putIn s c text with
    | nil => rfl
    | cons b rest => exact congrArg (· + 1) (ih rest)

/-! ### Steps -/

section Steps

variable {b r : α} {p rest : List α}

theorem replaceFrom_of_taken (h : s <+: b :: rest ∧ s.length < (b :: rest).length)
    (hc : c = r :: p) : replaceFrom s c [] (b :: rest) = r :: replaceFrom s c p rest := by
  subst hc
  rw [replaceFrom.eq_def]
  exact if_pos h

theorem replaceFrom_of_not_taken (h : ¬(s <+: b :: rest ∧ s.length < (b :: rest).length)) :
    replaceFrom s c [] (b :: rest) = b :: replaceFrom s c [] rest := by
  rw [replaceFrom.eq_def]
  exact if_neg h

theorem occurrencesFrom_of_taken (h : s <+: b :: rest ∧ s.length < (b :: rest).length) (i : ℕ) :
    occurrencesFrom s 0 i (b :: rest) =
      (i, rest.drop (s.length - 1)) :: occurrencesFrom s (s.length - 1) (i + 1) rest := by
  rw [occurrencesFrom, if_pos h]

theorem occurrencesFrom_of_not_taken (h : ¬(s <+: b :: rest ∧ s.length < (b :: rest).length))
    (i : ℕ) : occurrencesFrom s 0 i (b :: rest) = occurrencesFrom s 0 (i + 1) rest := by
  rw [occurrencesFrom, if_neg h]

theorem scanReplace_of_not_isPrefix (h : ¬s <+: b :: rest) (n : ℕ) :
    scanReplace s c (n + 1) (b :: rest) = b :: scanReplace s c n rest := by
  rw [scanReplace, putIn_of_not_isPrefix h]

/-- A position that is not looked at, or where the word is not found. -/
theorem scanReplace_sub_cons {m i : ℕ} (h : i < m → ¬s <+: b :: rest) :
    scanReplace s c (m - i) (b :: rest) = b :: scanReplace s c (m - (i + 1)) rest := by
  by_cases hi : i < m
  · obtain ⟨n, rfl⟩ := Nat.exists_eq_add_of_lt hi
    rw [show i + n + 1 - i = n + 1 by omega, show i + n + 1 - (i + 1) = n by omega,
      scanReplace_of_not_isPrefix (h hi)]
  · rw [show m - i = 0 by omega, show m - (i + 1) = 0 by omega]
    rfl

theorem scanReplace_of_isPrefix (h : s <+: b :: rest) (hc : c = r :: p)
    (hlen : c.length = s.length) (n : ℕ) :
    scanReplace s c (n + 1) (b :: rest) = r :: scanReplace s c n (p ++ rest.drop p.length) := by
  subst hc
  rw [scanReplace, putIn, if_pos h, ← hlen]
  rfl

end Steps

/-- What is behind the positions that are looked at does not matter. -/
theorem scanReplace_append (hlen : c.length = s.length) {n : ℕ} {l : List α}
    (h : n + s.length ≤ l.length) (u : List α) :
    scanReplace s c n (l ++ u) = scanReplace s c n l ++ u := by
  induction n generalizing l with
  | zero => rfl
  | succ n ih =>
    have hput : putIn s c (l ++ u) = putIn s c l ++ u := by
      by_cases hs : s <+: l
      · obtain ⟨v, rfl⟩ := hs
        rw [append_assoc, putIn_append, putIn_append, append_assoc]
      · have hs' : ¬s <+: l ++ u := fun hp =>
          hs (prefix_of_prefix_length_le hp (prefix_append l u) (by omega))
        rw [putIn_of_not_isPrefix hs, putIn_of_not_isPrefix hs']
    have hrest := length_putIn hlen l
    rw [scanReplace, hput, scanReplace]
    cases hl : putIn s c l with
    | nil => rw [hl, length_nil] at hrest; omega
    | cons b rest =>
      rw [hl, length_cons] at hrest
      exact congrArg (b :: ·) (ih (by omega))

/-! ### What a replacement does not change -/

section Agree

variable {j : ℕ}

omit [DecidableEq α] in
theorem take_le {l l' : List α} {i j : ℕ} (h : l.take j = l'.take j) (hi : i ≤ j) :
    l.take i = l'.take i := by
  have htake := congrArg (List.take i) h
  rwa [take_take, take_take, Nat.min_eq_left hi] at htake

section

variable (hlen : c.length = s.length)
include hlen

variable (hagree : s.take j = c.take j)
include hagree

variable (hj : j < s.length)
include hj

theorem take_putIn (text : List α) : (putIn s c text).take j = text.take j := by
  by_cases h : s <+: text
  · obtain ⟨u, rfl⟩ := h
    rw [putIn_append, take_append_of_le_length (hlen ▸ hj.le),
      take_append_of_le_length hj.le, hagree]
  · rw [putIn_of_not_isPrefix h]

/-- The loop changes nothing before the first difference. -/
theorem take_scanReplace (n : ℕ) (text : List α) :
    (scanReplace s c n text).take j = text.take j := by
  induction n generalizing text with
  | zero => rfl
  | succ n ih =>
    rw [scanReplace, ← take_putIn hlen hagree hj text]
    cases putIn s c text with
    | nil => rfl
    | cons b rest =>
      cases j with
      | zero => rfl
      | succ j => exact congrArg (b :: ·) (take_le (ih rest) (Nat.le_succ j))

/-- Where the loop replaces the word, the difference stays. -/
theorem take_scanReplace_of_isPrefix {text : List α} (h : s <+: text) (n : ℕ) :
    (scanReplace s c (n + 1) text).take (j + 1) = c.take (j + 1) := by
  obtain ⟨u, rfl⟩ := h
  have hjc : j < c.length := hlen.symm ▸ hj
  rw [scanReplace, putIn_append]
  cases c with
  | nil => exact absurd hjc (Nat.not_lt_zero j)
  | cons r p =>
    have hrest := take_scanReplace hlen hagree hj n (p ++ u)
    have hp : j ≤ p.length := Nat.le_of_lt_succ hjc
    change r :: (scanReplace s (r :: p) n (p ++ u)).take j = r :: p.take j
    rw [hrest, take_append_of_le_length hp]

/-- Replacing from left to right changes nothing before the first difference either, from
where it may replace next. -/
theorem take_replaceFrom {pending text : List α} (hpending : pending.length ≤ text.length) :
    (replaceFrom s c pending text).take (pending.length + j) =
      (pending ++ text.drop pending.length).take (pending.length + j) := by
  induction text generalizing pending with
  | nil =>
    obtain rfl := length_eq_zero_iff.mp (Nat.le_zero.mp hpending)
    rfl
  | cons b rest ih =>
    cases pending with
    | cons r p =>
      rw [replaceFrom, length_cons, Nat.add_right_comm, take_succ_cons, cons_append,
        take_succ_cons, drop_succ_cons, ih (Nat.le_of_succ_le_succ hpending)]
    | nil =>
      rw [length_nil, Nat.zero_add, nil_append, drop_zero]
      by_cases h : s <+: b :: rest ∧ s.length < (b :: rest).length
      · obtain ⟨r, p, hc⟩ := exists_cons_of_length_pos (hlen ▸ Nat.zero_lt_of_lt hj)
        have hp : p.length ≤ rest.length := by
          have hlt := h.2
          rw [← hlen, hc, length_cons, length_cons] at hlt
          omega
        have hput := take_putIn hlen hagree hj (b :: rest)
        rw [putIn, if_pos h.1, ← hlen, hc, length_cons, drop_succ_cons] at hput
        rw [replaceFrom_of_taken h hc, ← hput]
        cases j with
        | zero => rfl
        | succ j => exact congrArg (r :: ·) (take_le (ih hp) (by omega))
      · rw [replaceFrom_of_not_taken h]
        cases j with
        | zero => rfl
        | succ j =>
          have hrest := @ih [] (Nat.zero_le _)
          rw [length_nil, Nat.zero_add, nil_append, drop_zero] at hrest
          exact congrArg (b :: ·) (take_le hrest (Nat.le_succ j))

end

omit [DecidableEq α] in
theorem take_of_isPrefix {text : List α} (h : s <+: text) (hj : j < s.length) :
    text.take (j + 1) = s.take (j + 1) := by
  obtain ⟨u, rfl⟩ := h
  exact take_append_of_le_length hj

/-- The elements that are put in stand first. -/
theorem take_cons_replaceFrom (hlen : c.length = s.length) (hagree : s.take j = c.take j)
    (hj : j < s.length) {r : α} {p rest : List α} (hp : p.length ≤ rest.length) :
    (r :: replaceFrom s c p rest).take (j + 1) =
      (r :: (p ++ rest.drop p.length)).take (j + 1) :=
  congrArg (r :: ·) (take_le (take_replaceFrom hlen hagree hj hp) (Nat.le_add_left j p.length))

omit [DecidableEq α] in
/-- Where two words of the same length differ first. -/
theorem exists_first_difference (hlen : c.length = s.length) (hne : c ≠ s) :
    ∃ j < s.length, s.take j = c.take j ∧ s.take (j + 1) ≠ c.take (j + 1) := by
  induction s generalizing c with
  | nil => exact absurd (length_eq_zero_iff.mp hlen) hne
  | cons a s ih =>
    cases c with
    | nil => cases hlen
    | cons r p =>
      by_cases hr : a = r
      · subst hr
        obtain ⟨j, hj, hagree, hdiffer⟩ :=
          ih (Nat.succ.inj hlen) (fun h => hne (congrArg (a :: ·) h))
        exact ⟨j + 1, Nat.succ_lt_succ hj, congrArg (a :: ·) hagree,
          fun h => hdiffer (List.cons.inj h).2⟩
      · exact ⟨0, Nat.zero_lt_succ _, rfl, fun h => hr (List.cons.inj h).1⟩

end Agree

/-! ### When the loop does as it should -/

/-- **No occurrence is missed or made up**, with the positions below `m` looked at: each
occurrence is at one of them, and the word is not found where it was put in a moment ago. -/
def Faithful (s c : List α) (m : ℕ) (found : List (ℕ × List α)) : Prop :=
  ∀ o ∈ found, o.1 < m ∧
    ∀ t, 0 < t → t < s.length → o.1 + t < m → ¬s <+: c.drop t ++ o.2

/-- The word is not found in what is put in. -/
def NotFound (s : List α) (m i : ℕ) (pending text : List α) : Prop :=
  ∀ t, t < pending.length → i + t < m → ¬s <+: (pending ++ text.drop pending.length).drop t

omit [DecidableEq α] in
theorem notFound_cons_iff {m i : ℕ} {r b : α} {p rest : List α} :
    NotFound s m i (r :: p) (b :: rest) ↔
      (i < m → ¬s <+: r :: (p ++ rest.drop p.length)) ∧ NotFound s m (i + 1) p rest := by
  constructor
  · intro h
    refine ⟨fun hi => h 0 (Nat.zero_lt_succ _) hi, fun t ht hi => ?_⟩
    exact h (t + 1) (Nat.succ_lt_succ ht) (by omega)
  · rintro ⟨hfirst, hrest⟩ t ht hi
    cases t with
    | zero => exact hfirst hi
    | succ t => exact hrest t (Nat.lt_of_succ_lt_succ ht) (by omega)

/-- An occurrence that is replaced is to be looked at, and what is put in is not the word. -/
theorem faithful_taken_iff {m i : ℕ} {r b : α} {p rest : List α}
    (h : s <+: b :: rest ∧ s.length < (b :: rest).length) (hc : c = r :: p)
    (hlen : c.length = s.length) :
    Faithful s c m (occurrencesFrom s 0 i (b :: rest)) ↔
      i < m ∧ NotFound s m (i + 1) p rest ∧
        Faithful s c m (occurrencesFrom s p.length (i + 1) rest) := by
  have hp : s.length - 1 = p.length := by
    rw [← hlen, hc, length_cons, Nat.add_sub_cancel]
  have hnot : (∀ t, 0 < t → t < s.length → i + t < m → ¬s <+: c.drop t ++ rest.drop p.length) ↔
      NotFound s m (i + 1) p rest := by
    constructor
    · intro hall t ht hi
      have hdrop := hall (t + 1) (Nat.zero_lt_succ t) (by omega) (by omega)
      rwa [hc, drop_succ_cons, ← drop_append_of_le_length ht.le] at hdrop
    · intro hall t ht hts hi
      obtain ⟨t, rfl⟩ := Nat.exists_eq_add_one_of_ne_zero ht.ne'
      have hdrop := hall t (by omega) (by omega)
      rwa [hc, drop_succ_cons, ← drop_append_of_le_length (by omega)]
  rw [occurrencesFrom_of_taken h, hp, Faithful, forall_mem_cons, hnot, and_assoc]
  rfl

/-- What the loop does and what it should do, from a position on. -/
theorem scanReplace_eq_replaceFrom_iff (hlen : c.length = s.length) (hne : c ≠ s) {m i : ℕ}
    {pending text : List α} (hpending : pending.length ≤ text.length)
    (hm : i < m → m + s.length < i + text.length) :
    scanReplace s c (m - i) (pending ++ text.drop pending.length) = replaceFrom s c pending text ↔
      NotFound s m i pending text ∧ Faithful s c m (occurrencesFrom s pending.length i text) := by
  obtain ⟨j, hj, hagree, hdiffer⟩ := exists_first_difference hlen hne
  induction text generalizing i pending with
  | nil =>
    obtain rfl := length_eq_zero_iff.mp (Nat.le_zero.mp hpending)
    refine iff_of_true ?_ ⟨nofun, forall_mem_nil _⟩
    exact length_eq_zero_iff.mp (length_scanReplace hlen _ _)
  | cons b rest ih =>
    have hm' : i + 1 < m → m + s.length < i + 1 + rest.length := fun hi => by
      have := hm (by omega)
      rw [length_cons] at this
      omega
    cases pending with
    | cons r p =>
      have hp : p.length ≤ rest.length := Nat.le_of_succ_le_succ hpending
      rw [notFound_cons_iff, and_assoc, length_cons, occurrencesFrom, ← ih hp hm',
        cons_append, drop_succ_cons, replaceFrom]
      by_cases hfirst : i < m → ¬s <+: r :: (p ++ rest.drop p.length)
      · rw [scanReplace_sub_cons hfirst, List.cons.injEq, and_iff_right rfl, and_iff_right hfirst]
      · -- the loop finds the word in what was put in
        refine iff_of_false (fun heq => ?_) (fun hand => hfirst hand.1)
        obtain ⟨hi, hs⟩ := Classical.not_imp.mp hfirst
        rw [not_not] at hs
        have htake := congrArg (List.take (j + 1)) heq
        rw [← Nat.succ_pred_eq_of_pos (Nat.sub_pos_of_lt hi),
          take_scanReplace_of_isPrefix hlen hagree hj hs,
          take_cons_replaceFrom hlen hagree hj hp, take_of_isPrefix hs hj] at htake
        exact hdiffer htake.symm
    | nil =>
      rw [length_nil, drop_zero, nil_append]
      have hnone : NotFound s m i [] (b :: rest) := nofun
      rw [and_iff_right hnone]
      by_cases h : s <+: b :: rest ∧ s.length < (b :: rest).length
      · obtain ⟨r, p, hc⟩ := exists_cons_of_length_pos (hlen ▸ Nat.zero_lt_of_lt hj)
        have hp : p.length ≤ rest.length := by
          have hlt := h.2
          rw [← hlen, hc, length_cons, length_cons] at hlt
          omega
        rw [faithful_taken_iff h hc hlen, ← ih hp hm', replaceFrom_of_taken h hc]
        by_cases hi : i < m
        · rw [and_iff_right hi, show m - i = m - (i + 1) + 1 by omega,
            scanReplace_of_isPrefix h.1 hc hlen, List.cons.injEq, and_iff_right rfl]
        · -- the loop does not come so far
          refine iff_of_false (fun heq => ?_) (fun hand => hi hand.1)
          have htake := congrArg (List.take (j + 1)) heq
          have hput : r :: (p ++ rest.drop p.length) = c ++ rest.drop p.length := by rw [hc]; rfl
          rw [Nat.sub_eq_zero_of_le (Nat.le_of_not_lt hi), scanReplace, take_of_isPrefix h.1 hj,
            take_cons_replaceFrom hlen hagree hj hp, hput,
            take_append_of_le_length (hlen.symm ▸ hj)] at htake
          exact hdiffer htake
      · have hfirst : i < m → ¬s <+: b :: rest := fun hi hs =>
          h ⟨hs, by have := hm hi; omega⟩
        have hrest := @ih (i + 1) [] (Nat.zero_le _) hm'
        rw [length_nil, drop_zero, nil_append, and_iff_right nofun] at hrest
        rw [scanReplace_sub_cons hfirst, replaceFrom_of_not_taken h, occurrencesFrom_of_not_taken h,
          List.cons.injEq, and_iff_right rfl, hrest]

/-! ### Replacing a word by itself -/

theorem putIn_self (text : List α) : putIn s s text = text := by
  by_cases h : s <+: text
  · obtain ⟨u, rfl⟩ := h
    exact putIn_append u
  · exact putIn_of_not_isPrefix h

theorem scanReplace_self (n : ℕ) (text : List α) : scanReplace s s n text = text := by
  induction n generalizing text with
  | zero => rfl
  | succ n ih =>
    rw [scanReplace, putIn_self]
    cases text with
    | nil => rfl
    | cons b rest => exact congrArg (b :: ·) (ih rest)

theorem replaceFrom_self {pending text : List α} (h : pending <+: text) :
    replaceFrom s s pending text = text := by
  induction text generalizing pending with
  | nil => cases pending <;> rfl
  | cons b rest ih =>
    cases pending with
    | cons r p =>
      obtain ⟨rfl, hp⟩ := cons_prefix_cons.mp h
      rw [replaceFrom, ih hp]
    | nil =>
      by_cases ht : s <+: b :: rest ∧ s.length < (b :: rest).length
      · cases s with
        | nil =>
          rw [replaceFrom.eq_def]
          exact (if_pos ht).trans (congrArg (b :: ·) (ih nil_prefix))
        | cons r p =>
          obtain ⟨rfl, hp⟩ := cons_prefix_cons.mp ht.1
          rw [replaceFrom_of_taken ht rfl, ih hp]
      · rw [replaceFrom_of_not_taken ht, ih nil_prefix]

/-- **The loop does as it should** if nothing changes anyway, or if no occurrence is missed or
made up. -/
theorem scanReplace_eq_iff (hlen : c.length = s.length) {m : ℕ} {text : List α}
    (hm : 0 < m → m + s.length < text.length) :
    scanReplace s c m text = replaceAll s c text ↔
      c = s ∨ Faithful s c m (occurrences s text) := by
  by_cases hne : c = s
  · subst hne
    rw [scanReplace_self, replaceAll, replaceFrom_self nil_prefix]
    simp
  · have hiff := @scanReplace_eq_replaceFrom_iff _ _ s c hlen hne m 0 [] text (Nat.zero_le _)
      (by simpa using hm)
    rw [length_nil, drop_zero, nil_append, and_iff_right nofun, Nat.sub_zero] at hiff
    rw [replaceAll, hiff, occurrences, or_iff_right hne]

end Distcc
