import Distcc.IncludeServer.ParseFile

/-!
# The coarse scan

`POUND_SIGN_RE` could be tried at every line of a file. `ParseFile.Parse` does not do that: it
jumps from one of the words `include`, `define` and `import` to the next, and tries only the
lines where it comes down, each of them once. Behind a word it leaves one byte out.

Nothing is lost that way (`parse_eq_parseByLine`). What
`POUND_SIGN_RE` matches has one of the words in the line where the match begins, and not as
its first byte (`keyword_of_directiveAt`); the byte that is left out is
in the line of the word before it, or is the newline behind it.
-/

namespace Distcc.IncludeServer

open CString Regex List Option

variable {contents t : CString} {p q i j k : ℕ} {c c' : Cursor UInt8 Group}

/-! ### Line by line -/

/-- A line begins here. -/
def startsLine (contents : CString) (p : ℕ) : Bool := p = 0 ∨ contents[p - 1]? = some 10

/-- The directive of a line, if it is one. -/
def directiveAt (contents : CString) (p : ℕ) : Option CString :=
  if startsLine contents p then
    (poundSignRe.first (.start (contents.take p).getLast? (contents.drop p))).map
      fun m => (m.groups .directive).getD []
  else none

/-- The directives of the lines that begin at `p` or later. -/
def directivesByLine (contents : CString) (p : ℕ) : List CString :=
  (List.range' p (contents.length + 1 - p)).filterMap (directiveAt contents)

/-- A file that is read line by line: `POUND_SIGN_RE` at the beginning of each line, and
`_ParseFine` for what it matches. -/
def parseByLine (ignoreAbsolute : Bool) (filepath contents : CString) : FileParse :=
  parseLines ignoreAbsolute filepath (directivesByLine contents 0) {}

/-! ### Beginnings of lines -/

/-- The places from `p` to `q` are in one line. -/
def OneLine (contents : CString) (p q : ℕ) : Prop := ∀ j, p ≤ j → j < q → contents[j]? ≠ some 10

theorem lineStartOf_spec (hi : i ≤ contents.length) :
    lineStartOf contents i ≤ i ∧ startsLine contents (lineStartOf contents i) = true ∧
      OneLine contents (lineStartOf contents i) i := by
  -- the part behind the last newline, and what comes before it
  obtain ⟨v, hv⟩ : ∃ v, v = (contents.take i).rtakeWhile fun b => b ≠ 10 := ⟨_, rfl⟩
  obtain ⟨u, hu⟩ : ∃ u, u = (contents.take i).rdropWhile fun b => b ≠ 10 := ⟨_, rfl⟩
  have htake : contents.take i = u ++ v := by
    rw [hu, hv, rdropWhile_append_rtakeWhile]
  have hlength : u.length + v.length = i := by
    rw [← length_append, ← htake, length_take, Nat.min_eq_left hi]
  have hstart : lineStartOf contents i = u.length := by
    have hlen : v.length = ((contents.take i).reverse.takeWhile fun b => b ≠ 10).length := by
      rw [hv, List.rtakeWhile, length_reverse]
    rw [lineStartOf, ← hlen]
    omega
  have hget : ∀ n < i, contents[n]? = (u ++ v)[n]? := by
    intro n hn
    rw [← htake, getElem?_take_of_lt hn]
  refine ⟨by omega, ?_, fun n hn hni hten => ?_⟩
  · rw [hstart]
    obtain rfl | ⟨w, b, rfl⟩ := eq_nil_or_concat' u
    · rfl
    · have hb : b = 10 := by
        have hlast := rdropWhile_last_not (fun b : UInt8 => decide (b ≠ 10))
          (contents.take i) (by rw [← hu]; simp)
        simp only [← hu, getLast_concat] at hlast
        simpa using hlast
      rw [length_append] at hlength
      simp only [startsLine, decide_eq_true_eq, length_append, length_cons,
        length_nil, Nat.add_sub_cancel] at hlength ⊢
      right
      rw [hget _ (by omega), hb]
      simp
  · rw [hget n hni, getElem?_append_right (by omega)] at hten
    have hmem := mem_of_getElem? hten
    rw [hv] at hmem
    exact absurd (mem_rtakeWhile_imp hmem) (by decide)

/-- The line that begins at `p` has come to its end before the next one begins. -/
theorem le_of_oneLine (h : OneLine contents p q) (hi : startsLine contents i = true) (hp : p < i) :
    q < i := by
  by_contra hq
  simp only [startsLine, decide_eq_true_eq] at hi
  rcases hi with rfl | hi
  · omega
  · exact h (i - 1) (by omega) (by omega) hi

/-! ### Words -/

/-- One of the words of the coarse scan is here. -/
def Keyword (t : CString) : Prop :=
  lit "include" <+: t ∨ lit "define" <+: t ∨ lit "import" <+: t

theorem first_reIncludeDefine_eq_none {last : Option UInt8} :
    reIncludeDefine.first (.start last t) = none ↔ ¬ Keyword t := by
  have hword : ∀ u : CString, run (text u) (.start last t : Cursor UInt8 Group) = [] ↔
      ¬ u <+: t := by
    intro u
    refine ⟨fun hnil hpre => ?_, fun hpre => run_text_eq_nil hpre⟩
    obtain ⟨v, hv⟩ := hpre
    rw [run_text (v := v) hv.symm] at hnil
    cases hnil
  rw [first, head?_eq_none_iff]
  change run (text (lit "include")) _ ++ (run (text (lit "define")) _ ++
    run (text (lit "import")) _) = [] ↔ _
  rw [append_eq_nil_iff, append_eq_nil_iff, hword, hword, hword, Keyword]
  tauto

theorem keyword_of_mem_run (h : c' ∈ run reIncludeDefine c) :
    ∃ w, c.rest = w ++ c'.rest ∧ w ≠ [] ∧ ∀ b ∈ w, b ≠ 10 := by
  rcases mem_run_alt.mp h with h | h
  · exact ⟨_, rest_of_mem_run_text h, by decide, by decide⟩
  · rcases mem_run_alt.mp h with h | h
    · exact ⟨_, rest_of_mem_run_text h, by decide, by decide⟩
    · exact ⟨_, rest_of_mem_run_text h, by decide, by decide⟩

theorem over_blanks : Over (fun b => b ≠ 10) blanks := by
  intro b hb
  rcases of_decide_eq_true hb with rfl | rfl <;> decide

theorem over_blockComments : Over (fun b => b ≠ 10)
    (many (seqs [text (lit "/*"), many dot, text (lit "*/")]) : Regex UInt8 Group) :=
  ⟨over_text (by decide), fun _ hb => of_decide_eq_true hb, over_text (by decide)⟩

theorem keyword_of_mem_run_alts
    (h : c' ∈ run (alts [text (lit "define"), text (lit "include_next"), text (lit "include"),
      text (lit "import")]) c) : Keyword c.rest := by
  rcases mem_run_alt.mp h with h | h
  · exact .inr (.inl ⟨_, (rest_of_mem_run_text h).symm⟩)
  rcases mem_run_alt.mp h with h | h
  · rw [rest_of_mem_run_text h]
    exact .inl ⟨lit "_next" ++ c'.rest, rfl⟩
  rcases mem_run_alt.mp h with h | h
  · exact .inl ⟨_, (rest_of_mem_run_text h).symm⟩
  · exact .inr (.inr ⟨_, (rest_of_mem_run_text h).symm⟩)

/-- **What `POUND_SIGN_RE` matches** begins with some bytes of one line, and one of the words
comes behind them. -/
theorem keyword_of_mem_run_poundSignRe (h : c' ∈ run poundSignRe c) :
    ∃ u v, c.rest = u ++ v ∧ u ≠ [] ∧ (∀ b ∈ u, b ≠ 10) ∧ Keyword v := by
  obtain ⟨c₁, h1, hrun⟩ := mem_run_seq.mp h
  obtain ⟨-, rfl⟩ := mem_run_look.mp h1
  obtain ⟨c₂, h2, h⟩ := mem_run_seq.mp hrun
  obtain ⟨c₃, h3, h⟩ := mem_run_seq.mp h
  obtain ⟨c₄, h4, h⟩ := mem_run_seq.mp h
  obtain ⟨c₅, h5, h⟩ := mem_run_seq.mp h
  obtain ⟨c₆, h6, h⟩ := mem_run_seq.mp h
  -- the directive itself
  obtain ⟨c₁₀, h, -⟩ := mem_run_group h
  obtain ⟨c₇, h7, h⟩ := mem_run_seq.mp h
  obtain ⟨c₈, h8, h⟩ := mem_run_seq.mp h
  obtain ⟨c₉, h9, -⟩ := mem_run_seq.mp h
  obtain ⟨u₂, hu2, hr2⟩ := consumed_of_mem_run over_blanks h2
  obtain ⟨u₃, hu3, hr3⟩ := consumed_of_mem_run
    (show Over (fun b => b ≠ 10) (opt (text (lit "*/"))) from
      ⟨over_text (by decide), trivial⟩) h3
  obtain ⟨u₄, hu4, hr4⟩ := consumed_of_mem_run over_blanks h4
  obtain ⟨u₅, hu5, hr5⟩ := consumed_of_mem_run over_blockComments h5
  obtain ⟨u₆, hu6, hr6⟩ := consumed_of_mem_run over_blanks h6
  have hr7 := rest_of_mem_run_text h7
  obtain ⟨u₈, hu8, hr8⟩ := consumed_of_mem_run over_blanks h8
  refine ⟨u₂ ++ (u₃ ++ (u₄ ++ (u₅ ++ (u₆ ++ (lit "#" ++ u₈))))), c₈.rest, ?_, by simp [lit], ?_,
    keyword_of_mem_run_alts h9⟩
  · rw [hr2, hr3, hr4, hr5, hr6, hr7, hr8]
    simp only [append_assoc]
  · intro b hb
    simp only [mem_append] at hb
    rcases hb with hb | hb | hb | hb | hb | hb | hb
    · exact hu2 b hb
    · exact hu3 b hb
    · exact hu4 b hb
    · exact hu5 b hb
    · exact hu6 b hb
    · rw [mem_singleton.mp hb]
      decide
    · exact hu8 b hb

/-- **A directive has a word in its first line**, behind the beginning of the line. -/
theorem keyword_of_directiveAt (h : directiveAt contents p ≠ none) :
    startsLine contents p = true ∧
      ∃ k, p < k ∧ OneLine contents p k ∧ Keyword (contents.drop k) := by
  rw [directiveAt] at h
  split at h
  · case isTrue hstart =>
    rw [ne_eq, map_eq_none_iff] at h
    obtain ⟨m, hm⟩ := ne_none_iff_exists'.mp h
    obtain ⟨u, v, huv, hne, hu, hv⟩ :=
      keyword_of_mem_run_poundSignRe (mem_of_mem_head? hm)
    change contents.drop p = u ++ v at huv
    have hdrop : contents.drop (p + u.length) = v := by
      rw [← drop_drop, huv, drop_left]
    refine ⟨hstart, p + u.length, Nat.lt_add_of_pos_right (length_pos_of_ne_nil hne),
      fun j hj hju hten => ?_, hdrop ▸ hv⟩
    have hget : contents[j]? = u[j - p]? := by
      rw [← @List.getElem?_append_left _ u v _ (by omega), ← huv, getElem?_drop,
        Nat.add_sub_cancel' hj]
    rw [hget] at hten
    exact hu _ (mem_of_getElem? hten) rfl
  · exact absurd rfl h

/-! ### The loop -/

theorem drop_eq_take_append_drop (h : i < k) : contents.drop (i + 1) =
    (contents.drop (i + 1)).take (k - (i + 1)) ++ contents.drop k := by
  have hdrop : contents.drop k = (contents.drop (i + 1)).drop (k - (i + 1)) := by
    rw [drop_drop, Nat.add_sub_cancel' h]
  rw [hdrop, take_append_drop]

/-- No word is met, and there is none. -/
theorem not_keyword_of_search_eq_none
    (h : reIncludeDefine.search none (contents.drop (i + 1)) = none) (hk : i < k) :
    ¬ Keyword (contents.drop k) := by
  rw [← first_reIncludeDefine_eq_none]
  exact search_eq_none_iff.mp h _ _ (drop_eq_take_append_drop hk)

/-- The word that is met is the next one. It is in one line. -/
theorem next_of_search_eq_some {before found : CString} {c : Cursor UInt8 Group}
    (h : reIncludeDefine.search none (contents.drop (i + 1)) = some (before, found, c)) :
    i + 1 + before.length + found.length ≤ contents.length ∧ 0 < found.length ∧
      OneLine contents (i + 1 + before.length) (i + 1 + before.length + found.length) ∧
      ∀ k, i < k → k < i + 1 + before.length → ¬ Keyword (contents.drop k) := by
  obtain ⟨hdrop, hrun, hmin⟩ := search_eq_some h
  obtain ⟨w, hw, hne, hten⟩ := keyword_of_mem_run hrun
  obtain rfl : found = w := append_cancel_right hw
  have hlength := congrArg List.length hdrop
  simp only [length_drop, length_append] at hlength
  have hfound : 0 < found.length := length_pos_of_ne_nil hne
  refine ⟨by omega, hfound, fun j hj hlt hget => ?_, fun k hik hk => ?_⟩
  · have hj' : contents[j]? = found[j - (i + 1 + before.length)]? := by
      rw [← @List.getElem?_append_left _ found c.rest _ (by omega),
        show j - (i + 1 + before.length) = j - (i + 1) - before.length by omega,
        ← @List.getElem?_append_right _ before _ _ (by omega), ← hdrop, getElem?_drop,
        Nat.add_sub_cancel' (by omega)]
    rw [hj'] at hget
    exact hten _ (mem_of_getElem? hget) rfl
  · rw [← first_reIncludeDefine_eq_none]
    refine hmin _ _ (drop_eq_take_append_drop hik) ?_
    rw [length_take]
    omega

theorem directivesByLine_eq_nil (h : ∀ q, p ≤ q → directiveAt contents q = none) :
    directivesByLine contents p = [] :=
  filterMap_eq_nil_iff.mpr fun q hq => h q (left_le_of_mem_range' hq)

/-- Lines without a directive may be left out. -/
theorem directivesByLine_eq_cons (hpq : p ≤ q) (hq : q ≤ contents.length)
    (h : ∀ j, p ≤ j → j < q → directiveAt contents j = none) :
    directivesByLine contents p =
      (directiveAt contents q).toList ++ directivesByLine contents (q + 1) := by
  have hrange : List.range' p (contents.length + 1 - p) =
      List.range' p (q - p) ++ q :: List.range' (q + 1) (contents.length + 1 - (q + 1)) := by
    have hlength : contents.length + 1 - p = q - p + (contents.length - q + 1) := by omega
    have htail : contents.length + 1 - (q + 1) = contents.length - q := by omega
    rw [hlength, htail, ← range'_append_1, Nat.add_sub_cancel' hpq, range'_succ]
  have hskip : (List.range' p (q - p)).filterMap (directiveAt contents) = [] := by
    refine filterMap_eq_nil_iff.mpr fun j hj => ?_
    obtain ⟨hle, hlt⟩ := mem_range'_1.mp hj
    exact h j hle (by omega)
  rw [directivesByLine, hrange, filterMap_append, hskip, nil_append, directivesByLine]
  cases hat : directiveAt contents q with
  | none => rw [filterMap_cons_none hat, toList_none, nil_append]
  | some d => rw [filterMap_cons_some hat, toList_some, singleton_append]

/-- **The loop takes all directives** of the lines from `p` on, if it has not gone past the
beginning of any of them. -/
theorem directivesFrom_eq_byLine {n : ℕ} {last : Option ℕ} (hn : contents.length < n + i)
    (hahead : ∀ q, p ≤ q → startsLine contents q = true → i ≤ q)
    (hnone : last = none → p = 0)
    (hsome : ∀ q, last = some q → p = q + 1 ∧ q ≤ i ∧ startsLine contents q = true) :
    directivesFrom contents n i last = directivesByLine contents p := by
  induction n generalizing i last p with
  | zero =>
    rw [directivesFrom, directivesByLine_eq_nil]
    intro q hq
    by_contra hat
    obtain ⟨hstart, k, hk, -, hword⟩ := keyword_of_directiveAt hat
    have hi := hahead q hq hstart
    rw [drop_eq_nil_of_le (by omega)] at hword
    simp [Keyword, lit] at hword
  | succ n ih =>
    rw [directivesFrom]
    split
    · case h_1 hsearch =>
      rw [directivesByLine_eq_nil]
      intro q hq
      by_contra hat
      obtain ⟨hstart, k, hk, -, hword⟩ := keyword_of_directiveAt hat
      have hi := hahead q hq hstart
      exact not_keyword_of_search_eq_none hsearch (by omega) hword
    · case h_2 before found c hsearch =>
      obtain ⟨hend, hpos, hone, hmin⟩ := next_of_search_eq_some hsearch
      obtain ⟨hle, hstart, hline⟩ := lineStartOf_spec hend
      dsimp only
      generalize lineStartOf contents (i + 1 + before.length + found.length) = q
        at hle hstart hline ⊢
      -- the lines that are jumped over have no word in them
      have hskip : ∀ j, p ≤ j → j < q → directiveAt contents j = none := by
        intro j hj hjq
        by_contra hat
        obtain ⟨hstart', k, hk, hone', hword⟩ := keyword_of_directiveAt hat
        have hi := hahead j hj hstart'
        have hkq := le_of_oneLine hone' hstart hjq
        have hnext : ¬ k < i + 1 + before.length := fun hlt => hmin k (by omega) hlt hword
        have hgone := le_of_oneLine hone hstart (by omega)
        omega
      have hbehind : ∀ j, q + 1 ≤ j → startsLine contents j = true →
          i + 1 + before.length + found.length ≤ j :=
        fun j hj hstart' => (le_of_oneLine hline hstart' hj).le
      have hrest : directivesFrom contents n (i + 1 + before.length + found.length) (some q) =
          directivesByLine contents (q + 1) := by
        refine ih (by omega) hbehind (fun h => absurd h (some_ne_none q)) ?_
        intro q' hq'
        obtain rfl := some.inj hq'
        exact ⟨rfl, hle, hstart⟩
      split
      · case isTrue hsame =>
        obtain ⟨rfl, -, -⟩ := hsome q hsame
        rw [hsame, hrest]
      · case isFalse hnew =>
        have hp : p ≤ q := by
          cases last with
          | none => exact hnone rfl ▸ Nat.zero_le q
          | some q' =>
            obtain ⟨rfl, hq', hstart'⟩ := hsome q' rfl
            have hlt : ¬ q < q' := fun hlt => by
              have hgone := le_of_oneLine hline hstart' hlt
              omega
            have hne : q' ≠ q := fun heq => hnew (congrArg some heq)
            omega
        rw [directivesByLine_eq_cons hp (by omega) hskip, directiveAt, if_pos hstart]
        split
        · case h_1 hno => rw [hno, hrest, map_none, toList_none, nil_append]
        · case h_2 m hm =>
          rw [hm, hrest, map_some, toList_some, singleton_append]

/-- **The coarse scan loses nothing**: what is returned, what is defined and what is raised is
the same as if every line were tried, in order. -/
theorem parse_eq_parseByLine (ignoreAbsolute : Bool) (filepath contents : CString) :
    parse ignoreAbsolute filepath contents = parseByLine ignoreAbsolute filepath contents := by
  have hscan : directives contents = directivesByLine contents 0 :=
    directivesFrom_eq_byLine (by omega) (fun q _ _ => Nat.zero_le q) (fun _ => rfl)
      fun q hq => absurd hq.symm (some_ne_none q)
  rw [parse, parseByLine, hscan]

end Distcc.IncludeServer
