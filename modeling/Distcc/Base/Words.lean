import Distcc.Base.Regex
import Distcc.Base.CString

/-!
# Words

A word is a longest run of letters, digits and underscores. A string without one is left
as it is by whatever treats words, and every other string splits at its first word
(`Regex.Splits`), so that an induction over the words of a string has two cases
(`Regex.words_induction`). The expression `\b\w+\b` finds the first word
(`Regex.search_word`). `Regex.mapWords` replaces each word; as what stands
between words is no part of one, a second replacement works on what came in for each word
alone (`Regex.mapWords_mapWords`).
-/

namespace Distcc

open List

namespace Regex

open Cursor

variable {γ : Type} {s before x rest : CString}

theorem isWord_of_isSpace (b : UInt8) : CString.isSpace b = true → isWord b = false :=
  CString.forall_byte (P := fun b => CString.isSpace b = true → isWord b = false)
    (by decide +kernel) b

theorem isSpace_of_isWord {b : UInt8} (hb : isWord b = true) : CString.isSpace b = false := by
  by_contra hspace
  rw [isWord_of_isSpace b (by simpa using hspace)] at hb
  cases hb

/-- No byte of the string may belong to a word: there are separators only. -/
def WordFree (s : CString) : Prop := ∀ b ∈ s, isWord b = false
deriving Decidable

/-- The whole string is one word, as the name of a macro is. -/
@[mk_iff]
structure IsSymbol (x : CString) : Prop where
  ne_nil : x ≠ []
  word : ∀ b ∈ x, isWord b = true

instance (x : CString) : Decidable (IsSymbol x) := decidable_of_iff' _ (isSymbol_iff x)

/-- The string does not begin in a word. -/
def NoWordAhead (s : CString) : Prop := ∀ b ∈ s.head?, isWord b = false
deriving Decidable

/-- **The first word**: what comes before it, and what comes after. -/
@[mk_iff]
structure Splits (s before x rest : CString) : Prop where
  eq : s = before ++ x ++ rest
  before_free : WordFree before
  symbol : IsSymbol x
  rest_ahead : NoWordAhead rest

instance (s before x rest : CString) : Decidable (Splits s before x rest) :=
  decidable_of_iff' _ (splits_iff s before x rest)

theorem IsSymbol.cons (hx : IsSymbol x) : ∃ b t, x = b :: t ∧ isWord b = true := by
  obtain ⟨b, t, rfl⟩ := exists_cons_of_ne_nil hx.ne_nil
  exact ⟨b, t, rfl, hx.word b mem_cons_self⟩

theorem IsSymbol.not_wordFree (hx : IsSymbol x) : ¬ WordFree x := by
  obtain ⟨b, t, rfl, hb⟩ := hx.cons
  intro hfree
  rw [hfree b mem_cons_self] at hb
  cases hb

/-- A word that is followed by something else. -/
theorem IsSymbol.splits_append (hx : IsSymbol x) (hrest : NoWordAhead rest) :
    Splits (x ++ rest) [] x rest :=
  ⟨rfl, nofun, hx, hrest⟩

theorem IsSymbol.splits (hx : IsSymbol x) : Splits x [] x [] :=
  ⟨(append_nil x).symm, nofun, hx, nofun⟩

theorem NoWordAhead.append {a : CString} (hs : NoWordAhead s) (ha : NoWordAhead a) :
    NoWordAhead (s ++ a) := by
  cases s with
  | nil => exact ha
  | cons b s => exact hs

theorem noWordAhead_of_wordFree (hs : WordFree s) : NoWordAhead s :=
  fun b hb => hs b (mem_of_mem_head? hb)

section

variable (h : Splits s before x rest)
include h

theorem Splits.length_rest : rest.length < s.length := by
  have hpos : 0 < x.length := length_pos_iff.mpr h.symbol.ne_nil
  rw [h.eq, length_append, length_append]
  omega

theorem Splits.append {a : CString} (ha : NoWordAhead a) :
    Splits (s ++ a) before x (rest ++ a) where
  eq := by rw [h.eq, append_assoc]
  before_free := h.before_free
  symbol := h.symbol
  rest_ahead := h.rest_ahead.append ha

theorem Splits.not_wordFree : ¬ WordFree s := by
  intro hfree
  refine h.symbol.not_wordFree fun b hb => hfree b ?_
  rw [h.eq]
  exact mem_append_left _ (mem_append_right _ hb)

/-- A string that does not begin in a word has something before its first one. -/
theorem Splits.before_ne_nil (hs : NoWordAhead s) : before ≠ [] := by
  rintro rfl
  obtain ⟨b, u, rfl, hb⟩ := h.symbol.cons
  rw [h.eq] at hs
  rw [hs b rfl] at hb
  cases hb

theorem Splits.noWordAhead (hs : NoWordAhead s) (t : CString) : NoWordAhead (before ++ t) := by
  obtain ⟨b, u, rfl⟩ := exists_cons_of_ne_nil (h.before_ne_nil hs)
  intro a ha
  exact Option.some.inj ha ▸ h.before_free b mem_cons_self

end

theorem splits_or_wordFree (s : CString) :
    WordFree s ∨ ∃ before x rest, Splits s before x rest := by
  by_cases hfree : WordFree s
  · exact .inl hfree
  · right
    -- the bytes before the first one of a word, and those up to the next that is none
    have hb := takeWhile_append_dropWhile (p := fun b => !isWord b) (l := s)
    have hx := takeWhile_append_dropWhile (p := isWord) (l := s.dropWhile fun b => !isWord b)
    refine ⟨s.takeWhile fun b => !isWord b, (s.dropWhile fun b => !isWord b).takeWhile isWord,
      (s.dropWhile fun b => !isWord b).dropWhile isWord, ⟨?_, ?_, ⟨?_, ?_⟩, ?_⟩⟩
    · rw [append_assoc, hx, hb]
    · intro b hmem
      simpa using mem_takeWhile_imp hmem
    · intro hnil
      have hdrop : s.dropWhile (fun b => !isWord b) ≠ [] := by
        intro hdrop
        refine hfree fun b hmem => ?_
        simpa using dropWhile_eq_nil_iff.mp hdrop b hmem
      obtain ⟨b, t, ht⟩ := exists_cons_of_ne_nil hdrop
      have hword : isWord b = true := by
        have hhead := head_dropWhile_not (fun b => !isWord b) hdrop
        simpa [ht] using hhead
      rw [ht, takeWhile_cons_of_pos hword] at hnil
      cases hnil
    · exact fun b hmem => mem_takeWhile_imp hmem
    · intro b hmem
      generalize (s.dropWhile fun b => !isWord b) = t at hmem
      have hne : t.dropWhile isWord ≠ [] := by
        rintro hnil
        rw [hnil] at hmem
        cases hmem
      have hhead := head_dropWhile_not isWord hne
      rw [head?_eq_some_head hne] at hmem
      exact Option.some.inj hmem ▸ hhead

/-- **Induction over the words of a string.** -/
theorem words_induction {P : CString → Prop} (free : ∀ s, WordFree s → P s)
    (split : ∀ s before x rest, Splits s before x rest → P rest → P s) (s : CString) : P s := by
  induction hn : s.length using Nat.strongRecOn generalizing s with
  | ind n ih =>
    obtain hfree | ⟨before, x, rest, h⟩ := splits_or_wordFree s
    · exact free s hfree
    · exact split s before x rest h (ih _ (hn ▸ h.length_rest) rest rfl)

/-! ### All words -/

/-- The words of a string, behind the part `w` of one. -/
def wordsFrom : CString → CString → List CString
  | w, [] => if w = [] then [] else [w]
  | w, b :: s =>
    if isWord b then wordsFrom (w ++ [b]) s
    else (if w = [] then [] else [w]) ++ wordsFrom [] s

/-- The words of a string. -/
def words (s : CString) : List CString := wordsFrom [] s

/-- Every word replaced by what `f` makes of it, behind the part `w` of one. -/
def mapWordsFrom (f : CString → CString) : CString → CString → CString
  | w, [] => if w = [] then [] else f w
  | w, b :: s =>
    if isWord b then mapWordsFrom f (w ++ [b]) s
    else (if w = [] then [] else f w) ++ b :: mapWordsFrom f [] s

/-- Every word replaced by what `f` makes of it. -/
def mapWords (f : CString → CString) (s : CString) : CString := mapWordsFrom f [] s

section AllWords

variable {f g : CString → CString} {u v w : CString}

theorem wordsFrom_word (hx : ∀ b ∈ x, isWord b = true) :
    wordsFrom w (x ++ s) = wordsFrom (w ++ x) s := by
  induction x generalizing w with
  | nil => rw [append_nil, nil_append]
  | cons b x ih =>
    rw [cons_append, wordsFrom, if_pos (hx b mem_cons_self),
      ih fun a ha => hx a (mem_cons_of_mem _ ha), append_assoc]
    rfl

theorem wordsFrom_ahead (hw : w ≠ []) (hs : NoWordAhead s) : wordsFrom w s = w :: words s := by
  cases s with
  | nil => rw [wordsFrom, if_neg hw]; rfl
  | cons b s =>
    have hb : isWord b = false := hs b rfl
    rw [wordsFrom, if_neg (Bool.eq_false_iff.mp hb), if_neg hw, words, wordsFrom,
      if_neg (Bool.eq_false_iff.mp hb)]
    rfl

theorem words_wordFree_append (h : WordFree before) : words (before ++ s) = words s := by
  induction before with
  | nil => rfl
  | cons b before ih =>
    rw [cons_append, words, wordsFrom, if_neg (Bool.eq_false_iff.mp (h b mem_cons_self))]
    exact ih fun a ha => h a (mem_cons_of_mem _ ha)

theorem words_wordFree (h : WordFree s) : words s = [] := by
  rw [← append_nil s, words_wordFree_append h]
  rfl

theorem words_splits (h : Splits s before x rest) : words s = x :: words rest := by
  rw [h.eq, append_assoc, words_wordFree_append h.before_free, words,
    wordsFrom_word h.symbol.word, nil_append, wordsFrom_ahead h.symbol.ne_nil h.rest_ahead]

theorem isSymbol_of_mem_words (hx : x ∈ words s) : IsSymbol x := by
  induction s using words_induction with
  | free s h =>
    rw [words_wordFree h] at hx
    cases hx
  | split s before y rest h ih =>
    rw [words_splits h] at hx
    rcases mem_cons.mp hx with rfl | hx
    · exact h.symbol
    · exact ih hx

theorem mem_of_mem_words {b : UInt8} (hx : x ∈ words s) (hb : b ∈ x) : b ∈ s := by
  induction s using words_induction with
  | free s h =>
    rw [words_wordFree h] at hx
    cases hx
  | split s before y rest h ih =>
    rw [words_splits h] at hx
    rw [h.eq, mem_append, mem_append]
    rcases mem_cons.mp hx with rfl | hx
    · exact .inl (.inr hb)
    · exact .inr (ih hx)

/-- **A word in the middle of a string.** -/
theorem mem_words (hx : IsSymbol x) (hu : (lastOf none u).any isWord = false)
    (hv : NoWordAhead v) : x ∈ words (u ++ (x ++ v)) := by
  have hfrom : ∀ u w, (u = [] → w = []) → (u ≠ [] → (lastOf none u).any isWord = false) →
      x ∈ wordsFrom w (u ++ (x ++ v)) := by
    intro u
    induction u with
    | nil =>
      intro w hw _
      rw [hw rfl, nil_append, wordsFrom_word hx.word, nil_append,
        wordsFrom_ahead hx.ne_nil hv]
      exact mem_cons_self
    | cons b u ih =>
      intro w _ hlast
      rw [cons_append, wordsFrom]
      have hlast' : (lastOf (some b) u).any isWord = false := hlast (cons_ne_nil b u)
      have hnext : u ≠ [] → (lastOf none u).any isWord = false := by
        intro hne
        obtain ⟨a, t, rfl⟩ := exists_cons_of_ne_nil hne
        exact hlast'
      split
      · case isTrue hb =>
        refine ih _ ?_ hnext
        rintro rfl
        rw [show isWord b = false from hlast'] at hb
        cases hb
      · exact mem_append_right _ (ih [] (fun _ => rfl) hnext)
  exact hfrom u [] (fun _ => rfl) fun _ => hu

theorem mapWordsFrom_word (hx : ∀ b ∈ x, isWord b = true) :
    mapWordsFrom f w (x ++ s) = mapWordsFrom f (w ++ x) s := by
  induction x generalizing w with
  | nil => rw [append_nil, nil_append]
  | cons b x ih =>
    rw [cons_append, mapWordsFrom, if_pos (hx b mem_cons_self),
      ih fun a ha => hx a (mem_cons_of_mem _ ha), append_assoc]
    rfl

theorem mapWordsFrom_ahead (hw : w ≠ []) (hs : NoWordAhead s) :
    mapWordsFrom f w s = f w ++ mapWords f s := by
  cases s with
  | nil => rw [mapWordsFrom, if_neg hw]; exact (append_nil _).symm
  | cons b s =>
    have hb : isWord b = false := hs b rfl
    rw [mapWordsFrom, if_neg (Bool.eq_false_iff.mp hb), if_neg hw, mapWords, mapWordsFrom,
      if_neg (Bool.eq_false_iff.mp hb)]
    rfl

theorem mapWords_wordFree_append (h : WordFree before) :
    mapWords f (before ++ s) = before ++ mapWords f s := by
  induction before with
  | nil => rfl
  | cons b before ih =>
    rw [cons_append, mapWords, mapWordsFrom,
      if_neg (Bool.eq_false_iff.mp (h b mem_cons_self))]
    exact congrArg (b :: ·) (ih fun a ha => h a (mem_cons_of_mem _ ha))

theorem mapWords_wordFree (h : WordFree s) : mapWords f s = s := by
  have hs := mapWords_wordFree_append (f := f) (s := []) h
  rw [append_nil] at hs
  exact hs.trans (append_nil s)

theorem mapWords_splits (h : Splits s before x rest) :
    mapWords f s = before ++ (f x ++ mapWords f rest) := by
  rw [h.eq, append_assoc, mapWords_wordFree_append h.before_free, mapWords,
    mapWordsFrom_word h.symbol.word, nil_append,
    mapWordsFrom_ahead h.symbol.ne_nil h.rest_ahead]

theorem mapWords_symbol (hx : IsSymbol x) : mapWords f x = f x := by
  rw [mapWords_splits hx.splits]
  exact append_nil _

theorem mapWords_append (hv : NoWordAhead v) :
    mapWords f (u ++ v) = mapWords f u ++ mapWords f v := by
  induction u using words_induction with
  | free u h => rw [mapWords_wordFree_append h, mapWords_wordFree h]
  | split u before x rest h ih =>
    rw [mapWords_splits (h.append hv), mapWords_splits h, ih, append_assoc,
      append_assoc]

theorem words_append (hv : NoWordAhead v) : words (u ++ v) = words u ++ words v := by
  induction u using words_induction with
  | free u h => rw [words_wordFree_append h, words_wordFree h, nil_append]
  | split u before x rest h ih =>
    rw [words_splits (h.append hv), words_splits h, ih, cons_append]

theorem mapWords_congr (h : ∀ x ∈ words s, f x = g x) : mapWords f s = mapWords g s := by
  induction s using words_induction with
  | free s hs => rw [mapWords_wordFree hs, mapWords_wordFree hs]
  | split s before x rest hs ih =>
    rw [words_splits hs] at h
    rw [mapWords_splits hs, mapWords_splits hs, h x mem_cons_self,
      ih fun y hy => h y (mem_cons_of_mem _ hy)]

theorem mapWords_id : mapWords (fun x => x) s = s := by
  induction s using words_induction with
  | free s hs => exact mapWords_wordFree hs
  | split s before x rest hs ih => rw [mapWords_splits hs, ih, ← append_assoc, ← hs.eq]

theorem head?_mapWords (hs : NoWordAhead s) : (mapWords f s).head? = s.head? := by
  obtain hfree | ⟨before, x, rest, h⟩ := splits_or_wordFree s
  · rw [mapWords_wordFree hfree]
  · obtain ⟨b, t, rfl⟩ := exists_cons_of_ne_nil (h.before_ne_nil hs)
    rw [mapWords_splits h, h.eq]
    rfl

theorem noWordAhead_mapWords (hs : NoWordAhead s) : NoWordAhead (mapWords f s) := by
  rw [NoWordAhead, head?_mapWords hs]
  exact hs

/-- **One replacement after the other**: what comes in for a word stands apart. -/
theorem mapWords_mapWords : mapWords g (mapWords f s) = mapWords (fun x => mapWords g (f x)) s := by
  induction s using words_induction with
  | free s hs => rw [mapWords_wordFree hs, mapWords_wordFree hs, mapWords_wordFree hs]
  | split s before x rest hs ih =>
    rw [mapWords_splits hs, mapWords_splits hs, mapWords_wordFree_append hs.before_free,
      mapWords_append (noWordAhead_mapWords hs.rest_ahead), ih]

/-- The bytes of what comes out were there, or came in for a word. -/
theorem mem_mapWords {b : UInt8} (hb : b ∈ mapWords f s) : b ∈ s ∨ ∃ x ∈ words s, b ∈ f x := by
  induction s using words_induction with
  | free s hs =>
    rw [mapWords_wordFree hs] at hb
    exact .inl hb
  | split s before x rest hs ih =>
    rw [mapWords_splits hs, mem_append, mem_append] at hb
    rw [words_splits hs, hs.eq, mem_append, mem_append]
    rcases hb with hb | hb | hb
    · exact .inl (.inl (.inl hb))
    · exact .inr ⟨x, mem_cons_self, hb⟩
    · exact (ih hb).imp .inr fun ⟨y, hy, hb⟩ => ⟨y, mem_cons_of_mem _ hy, hb⟩

/-- The words of what comes out are those of what came in. -/
theorem words_mapWords : words (mapWords f s) = (words s).flatMap fun x => words (f x) := by
  induction s using words_induction with
  | free s hs => rw [mapWords_wordFree hs, words_wordFree hs, flatMap_nil]
  | split s before x rest hs ih =>
    rw [mapWords_splits hs, words_wordFree_append hs.before_free,
      words_append (noWordAhead_mapWords hs.rest_ahead), ih, words_splits hs, flatMap_cons]

/-- **If two replacements by words come to the same, they are the same on each word.** -/
theorem eq_of_mapWords_eq (h : mapWords f s = mapWords g s)
    (hf : ∀ x ∈ words s, IsSymbol (f x)) (hg : ∀ x ∈ words s, IsSymbol (g x)) :
    ∀ x ∈ words s, f x = g x := by
  have hwords {f : CString → CString} (hf : ∀ x ∈ words s, IsSymbol (f x)) :
      words (mapWords f s) = (words s).map f := by
    rw [words_mapWords, map_eq_flatMap]
    exact flatMap_congr fun x hx => words_splits (hf x hx).splits
  exact map_inj_left.mp ((hwords hf).symm.trans ((congrArg words h).trans (hwords hg)))

end AllWords

/-! ### Looking for a word -/

variable [DecidableEq γ] {c : Cursor UInt8 γ} {last : Option UInt8}

/-- `\b\w+\b` -/
def word : Regex UInt8 γ := seqs [boundary, plus (.char isWord), boundary]

theorem run_word_eq_nil (h : NoWordAhead c.rest) : run word c = [] := by
  refine run_seq_eq_nil fun c₁ hc1 => run_seq_eq_nil fun c₂ hc2 => ?_
  obtain ⟨-, rfl⟩ := mem_run_look.mp hc1
  obtain ⟨c₃, hc3, -⟩ := mem_run_seq.mp hc2
  obtain ⟨b, v, hb, hrest, -⟩ := mem_run_char.mp hc3
  rw [h b (by rw [hrest]; rfl)] at hb
  cases hb

theorem first_word (hlast : c.last.any isWord = false) (hx : IsSymbol x)
    (hrest : NoWordAhead rest) (hc : c.rest = x ++ rest) :
    first word c = some (c.past x rest) := by
  obtain ⟨b, t, rfl, hb⟩ := hx.cons
  have hleft : first (boundary : Regex UInt8 γ) c = some c := by
    have hat : atBoundary c.last c.rest = true := by
      rw [atBoundary, hlast, hc]
      simp [hb]
    rw [first, boundary, run, if_pos hat, head?_cons]
  have hright : first (boundary : Regex UInt8 γ) (c.past (b :: t) rest) =
      some (c.past (b :: t) rest) := by
    have hat : atBoundary (lastOf c.last (b :: t)) rest = true := by
      have hlast' : (lastOf c.last (b :: t)).any isWord = true := by
        obtain ⟨u, a, hu⟩ := eq_nil_or_concat (b :: t) |>.resolve_left (cons_ne_nil b t)
        rw [hu, concat_eq_append, lastOf_concat]
        exact hx.word a (by rw [hu]; simp)
      have hnext : rest.head?.any isWord = false := by
        cases rest with
        | nil => rfl
        | cons a rest => exact hrest a rfl
      rw [atBoundary, hlast', hnext]
      rfl
    rw [first, boundary, run, past_last, past_rest, if_pos hat, head?_cons]
  exact first_seq hleft (first_seq (first_plus hc hx.ne_nil hx.word hrest) hright)

/-- **The first word is found.** -/
theorem search_word (h : Splits s before x rest)
    (hlast : last.any isWord = false) : ∃ c : Cursor UInt8 γ,
      search word last s = some (before, x, c) ∧ c.rest = rest := by
  obtain ⟨rfl, hbefore, hx, hrest⟩ := h
  induction before generalizing last with
  | nil =>
    have hfirst := first_word (γ := γ) (c := .start last (x ++ rest)) hlast hx hrest rfl
    refine ⟨past (.start last (x ++ rest)) x rest, ?_, rfl⟩
    rw [nil_append, search_of_first hfirst, taken_eq rfl]
  | cons a before ih =>
    have ha : isWord a = false := hbefore a mem_cons_self
    have hnone :
        first (word : Regex UInt8 γ) (.start last (a :: (before ++ x ++ rest))) = none := by
      rw [first, run_word_eq_nil]
      · rfl
      · intro b hb
        exact Option.some.inj hb ▸ ha
    have hlast' : (some a).any isWord = false := ha
    obtain ⟨c, hsearch, hc⟩ := ih hlast' fun b hb => hbefore b (mem_cons_of_mem _ hb)
    refine ⟨c, ?_, hc⟩
    rw [cons_append, cons_append, search, hnone]
    dsimp only
    rw [hsearch]
    rfl

omit [DecidableEq γ] in
/-- A string has one first word. -/
theorem Splits.unique {before' x' rest' : CString} (h : Splits s before x rest)
    (h' : Splits s before' x' rest') : before = before' ∧ x = x' ∧ rest = rest' := by
  have hlast : (none : Option UInt8).any isWord = false := rfl
  obtain ⟨c, hc, rfl⟩ := search_word (γ := Unit) h hlast
  obtain ⟨c', hc', rfl⟩ := search_word (γ := Unit) h' hlast
  obtain ⟨hbefore, hrest⟩ := Prod.mk.inj (Option.some.inj (hc.symm.trans hc'))
  obtain ⟨hx, rfl⟩ := Prod.mk.inj hrest
  exact ⟨hbefore, hx, rfl⟩

theorem search_word_eq_none (h : WordFree s) : search (word : Regex UInt8 γ) last s = none := by
  induction s generalizing last with
  | nil =>
    rw [search, first, run_word_eq_nil (noWordAhead_of_wordFree h)]
    rfl
  | cons a s ih =>
    rw [search, first, run_word_eq_nil (noWordAhead_of_wordFree h)]
    simp only [head?_nil]
    rw [ih fun b hb => h b (mem_cons_of_mem _ hb)]
    rfl

end Regex

end Distcc
