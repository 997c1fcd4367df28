import Mathlib.Data.List.Infix
import Mathlib.Data.List.Basic

/-!
# Words that cancel what is before them

Some words of a list take away the last one of those that count and are still there
(`settle`). A word stays for good unless, up to some place behind it, there are more
words that take away than there are words that count (`Exhausts`,
`settle_cons`). So what is left in the end can be told for each word from those that
follow it (`kept`, `settle_eq_kept`), and to compare two such rules it is enough
to compare them word by word, if one of them keeps all that the other does
(`kept_eq_iff`).
-/

namespace Distcc

open List

section Settle

variable {α : Type} (up counts : α → Bool)

/-- What is left of the words: one that goes up takes away the last one there is, and of the
others those that count are added. -/
def settle (left : List α) (words : List α) : List α :=
  words.foldl (fun left a => if up a then left.dropLast else if counts a then left ++ [a] else left)
    left

/-- **The words use up** as many as there are, and one more. -/
def Exhausts (n : ℕ) (words : List α) : Prop :=
  ∃ u, u <+: words ∧ n + u.countP counts < u.countP up

instance (n : ℕ) (words : List α) : Decidable (Exhausts up counts n words) :=
  decidable_of_iff (∃ u ∈ words.inits, n + u.countP counts < u.countP up) (by
    simp only [mem_inits, Exhausts])

/-- The words that count, and of which the words behind them have some property. -/
noncomputable def kept (P : List α → Prop) : List α → List α
  | [] => []
  | a :: words =>
    open Classical in if counts a = true ∧ P words then a :: kept P words else kept P words

variable {up counts} {n : ℕ} {a : α} {left words : List α}

/-! ### What is used up -/

theorem not_exhausts_nil : ¬Exhausts up counts n [] := by
  rintro ⟨u, hu, hlt⟩
  rw [prefix_nil.mp hu] at hlt
  exact Nat.not_lt_zero _ hlt

theorem exhausts_cons_iff (hdisj : up a = true → counts a = false) :
    Exhausts up counts n (a :: words) ↔
      if up a then n = 0 ∨ Exhausts up counts (n - 1) words
      else Exhausts up counts (if counts a then n + 1 else n) words := by
  constructor
  · rintro ⟨u, hu, hlt⟩
    obtain rfl | ⟨v, rfl, hv⟩ := prefix_cons_iff.mp hu
    · exact absurd hlt (Nat.not_lt_zero _)
    · rw [countP_cons, countP_cons] at hlt
      split
      case isTrue hup =>
        rw [hdisj hup, hup] at hlt
        by_cases hn : n = 0
        · exact .inl hn
        · exact .inr ⟨v, hv, by simp at hlt; omega⟩
      case isFalse hup =>
        rw [if_neg hup] at hlt
        refine ⟨v, hv, ?_⟩
        split at hlt <;> split <;> first | omega | contradiction
  · intro h
    split at h
    case isTrue hup =>
      obtain rfl | ⟨v, hv, hlt⟩ := h
      · exact ⟨[a], prefix_append [a] words, by simp [hup, hdisj hup]⟩
      · refine ⟨a :: v, cons_prefix_cons.mpr ⟨rfl, hv⟩, ?_⟩
        rw [countP_cons, countP_cons, hdisj hup, hup]
        simp only [Bool.false_eq_true, if_true, if_false]
        omega
    case isFalse hup =>
      obtain ⟨v, hv, hlt⟩ := h
      refine ⟨a :: v, cons_prefix_cons.mpr ⟨rfl, hv⟩, ?_⟩
      rw [countP_cons, countP_cons, if_neg hup]
      split at hlt <;> split <;> first | omega | contradiction

/-- If less counts, it is used up sooner. -/
theorem Exhausts.mono {counts' : α → Bool} (hle : ∀ a, counts' a = true → counts a = true)
    (h : Exhausts up counts n words) : Exhausts up counts' n words := by
  obtain ⟨u, hu, hlt⟩ := h
  have hcount : u.countP counts' ≤ u.countP counts := countP_mono_left fun a _ => hle a
  exact ⟨u, hu, by omega⟩

theorem Exhausts.append (h : Exhausts up counts n words) (more : List α) :
    Exhausts up counts n (words ++ more) := by
  obtain ⟨u, hu, hlt⟩ := h
  exact ⟨u, hu.trans (prefix_append ..), hlt⟩

/-! ### What is left -/

theorem settle_append (left words more : List α) :
    settle up counts left (words ++ more) =
      settle up counts (settle up counts left words) more := foldl_append

/-- **The word at the bottom** stays, or it makes no difference. -/
theorem settle_cons (hdisj : ∀ a, up a = true → counts a = false) (a : α) (left words : List α) :
    Exhausts up counts left.length words ∧
        settle up counts (a :: left) words = settle up counts left words ∨
      ¬Exhausts up counts left.length words ∧
        settle up counts (a :: left) words = a :: settle up counts left words := by
  induction words generalizing left with
  | nil => exact .inr ⟨not_exhausts_nil, rfl⟩
  | cons b words ih =>
    rw [exhausts_cons_iff (hdisj b)]
    simp only [settle, foldl_cons]
    by_cases hup : up b = true
    · rw [if_pos hup, if_pos hup, if_pos hup]
      cases left with
      | nil => exact .inl ⟨.inl rfl, rfl⟩
      | cons c left =>
        have hlength : (c :: left).dropLast.length = (c :: left).length - 1 := length_dropLast
        have h := ih (c :: left).dropLast
        rw [hlength] at h
        have hne : (c :: left).length ≠ 0 := Nat.succ_ne_zero left.length
        rw [dropLast_cons_of_ne_nil (cons_ne_nil c left), or_iff_right hne]
        exact h
    · rw [if_neg hup, if_neg hup, if_neg hup]
      by_cases hcounts : counts b = true
      · rw [if_pos hcounts, if_pos hcounts, if_pos hcounts]
        have h := ih (left ++ [b])
        rw [length_append] at h
        exact h
      · rw [if_neg hcounts, if_neg hcounts, if_neg hcounts]
        exact ih left

/-! ### Word by word -/

section Kept

variable {P Q : List α → Prop}

theorem kept_of_neg (P : List α → Prop) (h : ¬(counts a = true ∧ P words)) :
    kept counts P (a :: words) = kept counts P words := if_neg h

theorem kept_of_pos (P : List α → Prop) (hcounts : counts a = true) (h : P words) :
    kept counts P (a :: words) = a :: kept counts P words := if_pos ⟨hcounts, h⟩

theorem kept_append (words more : List α) :
    kept counts P (words ++ more) =
      kept counts (fun rest => P (rest ++ more)) words ++ kept counts P more := by
  induction words with
  | nil => rfl
  | cons a words ih =>
    by_cases h : counts a = true ∧ P (words ++ more)
    · rw [cons_append, kept_of_pos _ h.1 h.2, ih,
        kept_of_pos (fun rest => P (rest ++ more)) h.1 h.2]
      rfl
    · rw [cons_append, kept_of_neg _ h, ih,
        kept_of_neg (fun rest => P (rest ++ more)) h]

theorem kept_sublist (hle : ∀ rest, P rest → Q rest) (words : List α) :
    (kept counts P words).Sublist (kept counts Q words) := by
  induction words with
  | nil => exact List.Sublist.refl _
  | cons a words ih =>
    by_cases hP : counts a = true ∧ P words
    · rw [kept_of_pos _ hP.1 hP.2, kept_of_pos _ hP.1 (hle words hP.2)]
      exact ih.cons_cons a
    · rw [kept_of_neg _ hP]
      by_cases hQ : counts a = true ∧ Q words
      · rw [kept_of_pos _ hQ.1 hQ.2]
        exact ih.cons a
      · rwa [kept_of_neg _ hQ]

/-- **Two rules keep the same** if, word by word, they agree. -/
theorem kept_eq_iff (hle : ∀ rest, P rest → Q rest) (words : List α) :
    kept counts P words = kept counts Q words ↔
      ∀ pre a rest, words = pre ++ a :: rest → counts a = true → Q rest → P rest := by
  induction words with
  | nil => exact iff_of_true rfl fun pre a rest h => absurd h.symm (by simp)
  | cons a words ih =>
    have hsplit : (∀ pre b rest, a :: words = pre ++ b :: rest → counts b = true → Q rest →
        P rest) ↔ (counts a = true → Q words → P words) ∧
          ∀ pre b rest, words = pre ++ b :: rest → counts b = true → Q rest → P rest := by
      constructor
      · intro h
        exact ⟨h [] a words rfl, fun pre b rest heq => h (a :: pre) b rest (congrArg _ heq)⟩
      · rintro ⟨hfirst, hothers⟩ pre b rest heq
        cases pre with
        | nil =>
          obtain ⟨rfl, rfl⟩ := List.cons.inj heq
          exact hfirst
        | cons c pre => exact hothers pre b rest (List.cons.inj heq).2
    rw [hsplit, ← ih]
    by_cases hP : counts a = true ∧ P words
    · rw [kept_of_pos _ hP.1 hP.2, kept_of_pos _ hP.1 (hle words hP.2), cons_inj_right]
      exact (and_iff_right fun _ _ => hP.2).symm
    · rw [kept_of_neg _ hP]
      by_cases hQ : counts a = true ∧ Q words
      · -- One of them keeps a word more, so that they differ in length.
        rw [kept_of_pos _ hQ.1 hQ.2]
        refine iff_of_false (fun heq => ?_) fun h => hP ⟨hQ.1, h.1 hQ.1 hQ.2⟩
        have hlength := (@kept_sublist α counts P Q hle words).length_le
        rw [heq, length_cons] at hlength
        omega
      · rw [kept_of_neg _ hQ]
        exact (and_iff_right fun hcounts hQ' => absurd ⟨hcounts, hQ'⟩ hQ).symm

theorem kept_eq_nil_iff :
    kept counts P words = [] ↔
      ∀ pre a rest, words = pre ++ a :: rest → counts a = true → ¬P rest := by
  have hnone : kept counts (fun _ => False) words = [] := by
    induction words with
    | nil => rfl
    | cons a words ih => exact (kept_of_neg _ fun h => h.2).trans ih
  rw [← hnone, eq_comm, kept_eq_iff fun _ => False.elim]

/-- Without the last one. -/
theorem dropLast_kept (words : List α) :
    (kept counts P words).dropLast =
      kept counts (fun rest => P rest ∧ kept counts P rest ≠ []) words := by
  induction words with
  | nil => rfl
  | cons a words ih =>
    by_cases hP : counts a = true ∧ P words
    · rw [kept_of_pos _ hP.1 hP.2]
      by_cases hnil : kept counts P words = []
      · rw [kept_of_neg (fun rest => P rest ∧ kept counts P rest ≠ [])
          fun h => h.2.2 hnil, ← ih, hnil]
        rfl
      · rw [kept_of_pos (fun rest => P rest ∧ kept counts P rest ≠ [])
          hP.1 ⟨hP.2, hnil⟩, ← ih]
        exact dropLast_cons_of_ne_nil hnil
    · rw [kept_of_neg _ hP, ih, kept_of_neg (fun rest => P rest ∧ kept counts P rest ≠ [])
        fun h => hP ⟨h.1, h.2.1⟩]

end Kept

/-- **What is left, word by word**, of the words that are names, if they are among those that
count. -/
theorem filter_settle {names : α → Bool} (hdisj : ∀ a, up a = true → counts a = false)
    (hnames : ∀ a, names a = true → counts a = true) (words : List α) :
    (settle up counts [] words).filter names =
      kept names (fun rest => ¬Exhausts up counts 0 rest) words := by
  induction words with
  | nil => rfl
  | cons a words ih =>
    have hstep : settle up counts [] (a :: words) =
        settle up counts (if up a then [] else if counts a then [a] else []) words := rfl
    rw [hstep]
    by_cases hup : up a = true
    · rw [if_pos hup, ih, kept_of_neg]
      rintro ⟨hname, -⟩
      exact absurd (hnames a hname) (by rw [hdisj a hup]; decide)
    · rw [if_neg hup]
      by_cases hcounts : counts a = true
      · rw [if_pos hcounts]
        obtain ⟨hexhausts, heq⟩ | ⟨hexhausts, heq⟩ := settle_cons hdisj a [] words
        · rw [heq, ih, kept_of_neg (fun rest => ¬Exhausts up counts 0 rest) fun h => h.2 hexhausts]
        · rw [heq]
          by_cases hname : names a = true
          · rw [filter_cons_of_pos hname, ih,
              kept_of_pos (fun rest => ¬Exhausts up counts 0 rest) hname hexhausts]
          · rw [filter_cons_of_neg hname, ih, kept_of_neg _ fun h => hname h.1]
      · rw [if_neg hcounts, ih, kept_of_neg _ fun h => hcounts (hnames a h.1)]

/-- Where nothing goes up, all names are left. -/
theorem settle_of_not_up (h : ∀ a ∈ words, up a = false) :
    settle up counts left words = left ++ words.filter counts := by
  induction words generalizing left with
  | nil => exact (append_nil left).symm
  | cons a words ih =>
    obtain ⟨ha, hwords⟩ := forall_mem_cons.mp h
    have hstep : settle up counts left (a :: words) =
        settle up counts (if up a then left.dropLast else if counts a then left ++ [a] else left)
          words := rfl
    rw [hstep, if_neg (Bool.eq_false_iff.mp ha), ih hwords]
    by_cases hcounts : counts a = true
    · rw [if_pos hcounts, filter_cons_of_pos hcounts, append_assoc]
      rfl
    · rw [if_neg hcounts, filter_cons_of_neg hcounts]

theorem counts_of_mem_settle (hleft : ∀ b ∈ left, counts b = true)
    (h : a ∈ settle up counts left words) : counts a = true := by
  induction words generalizing left with
  | nil => exact hleft a h
  | cons b words ih =>
    refine ih (fun c hc => ?_) h
    dsimp only at hc
    split at hc
    · exact hleft c (mem_of_mem_dropLast hc)
    · split at hc
      · case isTrue hb =>
        obtain hc | hc := mem_append.mp hc
        · exact hleft c hc
        · exact mem_singleton.mp hc ▸ hb
      · exact hleft c hc

theorem mem_of_mem_settle (h : a ∈ settle up counts left words) : a ∈ left ∨ a ∈ words := by
  induction words generalizing left with
  | nil => exact .inl h
  | cons b words ih =>
    obtain h | h := ih h
    · dsimp only at h
      split at h
      · exact .inl (mem_of_mem_dropLast h)
      · split at h
        · obtain h | h := mem_append.mp h
          · exact .inl h
          · exact .inr (mem_singleton.mp h ▸ mem_cons_self)
        · exact .inl h
    · exact .inr (mem_cons_of_mem b h)

/-- Where nothing is left, one more that goes up is too many. -/
theorem exhausts_of_settle_eq_nil (hdisj : ∀ a, up a = true → counts a = false)
    (h : settle up counts [] words = []) (ha : up a = true) :
    Exhausts up counts 0 (words ++ [a]) := by
  have hlast : settle up counts [a] (words ++ [a]) = (settle up counts [a] words).dropLast := by
    rw [settle_append]
    exact if_pos ha
  have hwords : (settle up counts [a] words).dropLast = [] := by
    obtain ⟨-, heq⟩ | ⟨-, heq⟩ := settle_cons hdisj a [] words
    · rw [heq, h, dropLast_nil]
    · rw [heq, h, dropLast_singleton]
  obtain ⟨hexhausts, -⟩ | ⟨-, heq⟩ := settle_cons hdisj a [] (words ++ [a])
  · exact hexhausts
  · rw [hlast, hwords] at heq
    cases heq

/-! ### Cancelling too much -/

section TooMuch

variable {names : α → Bool} {last : α}

variable (up counts names) in
/-- A name is cancelled by the words behind it, if all of these that count are settled: by those
before the last one, or by that one, if no name is left behind it then. -/
def StillCancelled (rest : List α) (last : α) : Prop :=
  Exhausts up counts 0 rest ∨ up last = true ∧
    ∀ pre a rest', rest = pre ++ a :: rest' → names a = true → Exhausts up counts 0 rest'

section

variable (hdisj : ∀ a, up a = true → names a = false)
include hdisj

theorem settle_eq_kept (words : List α) :
    settle up names [] words = kept names (fun rest => ¬Exhausts up names 0 rest) words := by
  rw [← filter_settle hdisj (fun _ => id)]
  refine (filter_eq_self.mpr fun a ha => ?_).symm
  exact counts_of_mem_settle (fun b hb => absurd hb not_mem_nil) ha

theorem settle_concat_eq_kept (words : List α) (last : α) :
    settle up names [] (words ++ [last]) =
      kept names (fun rest => ¬Exhausts up names 0 (rest ++ [last])) words ++
        if names last = true then [last] else [] := by
  rw [settle_eq_kept hdisj, kept_append]
  congr 1
  split
  case isTrue h => exact kept_of_pos _ h not_exhausts_nil
  case isFalse h => exact kept_of_neg _ fun hboth => h hboth.1

theorem settle_kept_last (words : List α) (last : α) :
    settle up names (kept names (fun rest => ¬Exhausts up counts 0 rest) words) [last] =
      kept names (fun rest => ¬StillCancelled up counts names rest last) words ++
        if names last = true then [last] else [] := by
  change (if up last = true then _ else _) = _
  split
  case isTrue hup =>
    rw [if_neg (Bool.eq_false_iff.mp (hdisj last hup)), append_nil, dropLast_kept]
    refine congrArg (kept names · words) (funext fun rest => propext ?_)
    rw [StillCancelled, not_or, and_iff_right hup, ne_eq, kept_eq_nil_iff]
    simp only [not_not]
  case isFalse hup =>
    have hstill : (fun rest => ¬StillCancelled up counts names rest last) =
        fun rest => ¬Exhausts up counts 0 rest := by
      funext rest
      rw [StillCancelled, or_iff_left fun h => hup h.1]
    rw [hstill]
    split
    · rfl
    · exact (append_nil _).symm

/-- What is still cancelled is cancelled among the names. -/
theorem StillCancelled.exhausts (hnames : ∀ a, names a = true → counts a = true) {rest : List α}
    (h : StillCancelled up counts names rest last) : Exhausts up names 0 (rest ++ [last]) := by
  obtain h | ⟨hup, hnone⟩ := h
  · exact (h.mono hnames).append [last]
  · refine exhausts_of_settle_eq_nil hdisj ?_ hup
    have hkept : kept names (fun rest => ¬Exhausts up counts 0 rest) rest = [] :=
      kept_eq_nil_iff.mpr fun pre a rest' heq ha => not_not.mpr (hnone pre a rest' heq ha)
    have hsub := @kept_sublist α names (fun rest => ¬Exhausts up names 0 rest)
      (fun rest => ¬Exhausts up counts 0 rest) (fun _ h h' => h (h'.mono hnames)) rest
    rw [settle_eq_kept hdisj]
    exact sublist_nil.mp (hkept ▸ hsub)

end

/-- **Cancelling too much.** Let all words but the last one be settled with more words that
count, of which only the names are looked at then, and the last one after that. The names that
are left are the same exactly if all that the words behind them cancel are still cancelled. -/
theorem settle_names_iff (hdisj : ∀ a, up a = true → counts a = false)
    (hnames : ∀ a, names a = true → counts a = true) (words : List α) (last : α) :
    settle up names ((settle up counts [] words).filter names) [last] =
        settle up names [] (words ++ [last]) ↔
      ∀ pre a rest, words = pre ++ a :: rest → names a = true →
        Exhausts up names 0 (rest ++ [last]) → StillCancelled up counts names rest last := by
  have hdisj' (a : α) (ha : up a = true) : names a = false :=
    Bool.eq_false_iff.mpr fun hname => absurd (hnames a hname) (by rw [hdisj a ha]; decide)
  rw [filter_settle hdisj hnames, settle_kept_last hdisj', settle_concat_eq_kept hdisj',
    append_left_inj, eq_comm,
    kept_eq_iff fun rest h h' => h (h'.exhausts hdisj' hnames)]
  exact forall₃_congr fun pre a rest => forall₂_congr fun _ _ => not_imp_not

end TooMuch

end Settle

end Distcc
