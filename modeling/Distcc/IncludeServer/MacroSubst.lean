import Distcc.IncludeServer.MacroEval

/-!
# The substitution of arguments

The arguments of a macro are put in for its parameters by `re.sub`, one parameter after the
other, and then the signs `#` and `##` are treated. If a parameter is a word, a substitution
replaces the words that are equal to it
(`substituteSymbolInString_symbol`), so that all of them together make of
each word of the text what they make of the word alone
(`replaceWords_eq_mapWords`). The treatment of the signs also works on
each word of the text, if there is none outside of them
(`massage_mapWords`).
-/

namespace Distcc.IncludeServer

open CString Regex Cursor List

variable {x y s t u v : CString} {last : Option UInt8} {matched : Bool} {f : CString → CString}

/-! ### One parameter -/

theorem lastOf_wordFree (hu : WordFree u) (hlast : u = [] → last.any isWord = false) :
    (lastOf last u).any isWord = false := by
  obtain rfl | ⟨w, b, rfl⟩ := eq_nil_or_concat u
  · exact hlast rfl
  · rw [concat_eq_append, lastOf_concat]
    exact hu b (by simp)

/-- What comes before the first word is no part of one. -/
theorem Splits.lastOf_before {before x rest : CString} (hs : Splits s before x rest)
    (h : last.any isWord = false ∨ NoWordAhead s) :
    (lastOf last before).any isWord = false := by
  refine lastOf_wordFree hs.before_free fun hnil => h.resolve_right fun hahead => ?_
  exact hs.before_ne_nil hahead hnil

theorem lastOf_word (hu : u ≠ []) (hword : ∀ b ∈ u, isWord b = true) :
    (lastOf last u).any isWord = true := by
  obtain rfl | ⟨w, b, rfl⟩ := eq_nil_or_concat u
  · exact absurd rfl hu
  · rw [concat_eq_append, lastOf_concat]
    exact hword b (by simp)

theorem any_head_of_noWordAhead (h : NoWordAhead s) : s.head?.any isWord = false := by
  cases s with
  | nil => rfl
  | cons b s => exact h b rfl

theorem noWordAhead_of_any_head (h : s.head?.any isWord = false) : NoWordAhead s := by
  cases s with
  | nil => nofun
  | cons b s => exact fun a ha => Option.some.inj ha ▸ h

/-- **A match of `\bx\b`.** -/
theorem first_wholeRe (h1 : atBoundary last (x ++ v) = true)
    (h2 : atBoundary (lastOf last x) v = true) :
    first (wholeRe x) (.start last (x ++ v)) = some (past (.start last (x ++ v)) x v) := by
  have hleft : first (boundary : Regex UInt8 Unit) (.start last (x ++ v)) =
      some (.start last (x ++ v)) := by
    rw [first, boundary, run]
    exact congrArg List.head? (if_pos h1)
  have hright : first (boundary : Regex UInt8 Unit) (past (.start last (x ++ v)) x v) =
      some (past (.start last (x ++ v)) x v) := by
    rw [first, boundary, run]
    exact congrArg List.head? (if_pos h2)
  exact first_seq hleft (first_seq (first_text rfl) hright)

theorem of_first_wholeRe {c : Cursor UInt8 Unit} (h : first (wholeRe x) (.start last t) = some c) :
    t = x ++ c.rest ∧ atBoundary last t = true ∧ atBoundary (lastOf last x) c.rest = true := by
  obtain ⟨c₁, h1, hrun⟩ := mem_run_seq.mp (mem_of_mem_head? h)
  obtain ⟨c₂, h2, h3⟩ := mem_run_seq.mp hrun
  obtain ⟨hat, rfl⟩ := mem_run_look.mp h1
  obtain ⟨hat', rfl⟩ := mem_run_look.mp h3
  have hrest := rest_of_mem_run_text h2
  rw [run_text hrest] at h2
  have hlast : c.last = lastOf last x := congrArg Cursor.last (mem_singleton.mp h2)
  exact ⟨hrest, hat, hlast ▸ hat'⟩

/-- The word `x` replaced by `y`, wherever it stands as a word of its own. -/
def replaceWord (x y : CString) : CString → CString := mapWords fun w => if w = x then y else w

section ReplaceWord

variable {w : CString}

theorem replaceWord_symbol (hw : IsSymbol w) : replaceWord x y w = if w = x then y else w :=
  mapWords_symbol hw

theorem mem_replaceWord {b : UInt8} (hb : b ∈ replaceWord x y s) : b ∈ s ∨ b ∈ y := by
  rcases mem_mapWords hb with hb | ⟨w, hw, hb⟩
  · exact .inl hb
  · split at hb
    · exact .inr hb
    · exact .inl (mem_of_mem_words hw hb)

theorem mem_words_replaceWord (hw : w ∈ words (replaceWord x y s)) :
    w ∈ words s ∨ x ∈ words s ∧ w ∈ words y := by
  rw [replaceWord, words_mapWords] at hw
  obtain ⟨z, hz, hw⟩ := mem_flatMap.mp hw
  split at hw
  · case isTrue heq => exact .inr ⟨heq ▸ hz, hw⟩
  · rw [words_splits (isSymbol_of_mem_words hz).splits] at hw
    exact .inl ((mem_cons.mp hw).resolve_right nofun ▸ hz)

end ReplaceWord

/-- There is no match inside a word other than `x`. -/
theorem first_wholeRe_word {z w t rest : CString} {b : UInt8} (hx : IsSymbol x)
    (hz : IsSymbol z) (hrest : NoWordAhead rest) (hne : z ≠ x) (hzw : z = w ++ b :: t) :
    first (wholeRe x) (.start (lastOf last w) (b :: t ++ rest)) = none := by
  cases hfirst : first (wholeRe x) (.start (lastOf last w) (b :: t ++ rest)) with
  | none => rfl
  | some c =>
    exfalso
    obtain ⟨heq, hat, hat'⟩ := of_first_wholeRe hfirst
    cases w with
    | cons a w =>
      -- inside a word there is no boundary
      have hlast : (lastOf last (a :: w)).any isWord = true :=
        lastOf_word (cons_ne_nil a w) fun d hd =>
          hz.word d (hzw ▸ mem_append_left _ hd)
      have hb : isWord b = true :=
        hz.word b (hzw ▸ mem_append_right _ mem_cons_self)
      rw [atBoundary, hlast] at hat
      simp [hb] at hat
    | nil =>
      -- at its beginning, `x` would have to be the word
      have hlast : (lastOf (lastOf last []) x).any isWord = true :=
        lastOf_word hx.ne_nil hx.word
      have hahead : NoWordAhead c.rest := by
        rw [atBoundary, hlast] at hat'
        exact noWordAhead_of_any_head (by simpa using hat')
      have hsplit : Splits (x ++ c.rest) [] z rest := by
        rw [← heq, ← nil_append (b :: t), ← hzw]
        exact hz.splits_append hrest
      exact hne (hsplit.unique (hx.splits_append hahead)).2.1

theorem subFrom_wholeRe (hx : IsSymbol x) (h : last.any isWord = false ∨ NoWordAhead s) :
    subFrom (wholeRe x) (fun _ => y) 0 matched last s = replaceWord x y s := by
  induction s using words_induction generalizing last matched with
  | free s hs =>
    rw [replaceWord, mapWords_wordFree hs]
    refine subFrom_eq_self fun w t hw => ?_
    cases hfirst : first (wholeRe x) (.start (lastOf last w) t) with
    | none => rfl
    | some c =>
      obtain ⟨b, x', rfl, hb⟩ := hx.cons
      have hmem : b ∈ s := by
        rw [hw, (of_first_wholeRe hfirst).1]
        simp
      rw [hs b hmem] at hb
      cases hb
  | split s before z rest hs ih =>
    have hlast := Splits.lastOf_before hs h
    have hbefore : ∃ matched', subFrom (wholeRe x) (fun _ => y) 0 matched last
        (before ++ (z ++ rest)) = before ++ subFrom (wholeRe x) (fun _ => y) 0 matched'
          (lastOf last before) (z ++ rest) := by
      refine subFrom_append fun w b t hw => ?_
      cases hfirst : first (wholeRe x) (.start (lastOf last w) (b :: t ++ (z ++ rest))) with
      | none => rfl
      | some c =>
        obtain ⟨a, x', rfl, ha⟩ := hx.cons
        obtain ⟨rfl, -⟩ := List.cons.inj (of_first_wholeRe hfirst).1
        rw [hs.before_free b (hw ▸ mem_append_right _ mem_cons_self)] at ha
        cases ha
    obtain ⟨matched', hbefore⟩ := hbefore
    rw [replaceWord, mapWords_splits hs, hs.eq, append_assoc, hbefore]
    refine congrArg (before ++ ·) ?_
    by_cases hzx : z = x
    · subst hzx
      have hat : atBoundary (lastOf last before) (z ++ rest) = true := by
        obtain ⟨b, z', rfl, hb⟩ := hx.cons
        rw [atBoundary, hlast]
        simp [hb]
      have hat' : atBoundary (lastOf (lastOf last before) z) rest = true := by
        rw [atBoundary, lastOf_word hx.ne_nil hx.word, any_head_of_noWordAhead hs.rest_ahead]
        rfl
      rw [subFrom_of_first hx.ne_nil (first_wholeRe hat hat') rfl, if_pos rfl,
        ih (.inr hs.rest_ahead)]
      rfl
    · have hword : ∃ matched'', subFrom (wholeRe x) (fun _ => y) 0 matched'
          (lastOf last before) (z ++ rest) = z ++ subFrom (wholeRe x) (fun _ => y) 0 matched''
            (lastOf (lastOf last before) z) rest :=
        subFrom_append fun w b t hw => first_wholeRe_word hx hs.symbol hs.rest_ahead hzx hw
      obtain ⟨matched'', hword⟩ := hword
      rw [hword, if_neg hzx, ih (.inr hs.rest_ahead)]
      rfl

/-- **A parameter that is a word** is replaced where the word stands. -/
theorem substituteSymbolInString_symbol (hx : IsSymbol x) (y s : CString) :
    substituteSymbolInString x y s = replaceWord x y s :=
  subFrom_wholeRe hx (.inl rfl)

/-- **A parameter that is empty**, with an empty argument. -/
theorem substituteSymbolInString_nil (s : CString) : substituteSymbolInString [] [] s = s :=
  subFrom_nothing fun _ _ _ h => (of_first_wholeRe h).1.symm

/-! ### All parameters -/

/-- The substitution of one argument for each parameter. -/
def substituteList : List CString → List CString → CString → CString
  | param :: lhs, arg :: args, s => substituteList lhs args (substituteSymbolInString param arg s)
  | _, _, s => s

theorem substituteArgs_singletons (lhs args : List CString) (s : CString) :
    substituteArgs lhs (args.map fun arg => [arg]) [s] = [substituteList lhs args s] := by
  induction args generalizing lhs s with
  | nil => cases lhs <;> rfl
  | cons arg args ih =>
    cases lhs with
    | nil => rfl
    | cons param lhs => exact ih lhs _

/-- What a word is replaced by, all at once: the argument of the parameter it is, or itself. -/
def argumentOf : List CString → List CString → CString → CString
  | param :: params, arg :: args, w => if w = param then arg else argumentOf params args w
  | _, _, w => w

/-- **The simultaneous substitution** of arguments for parameters: no word is looked at twice. -/
def simultaneous (params args : List CString) : CString → CString :=
  mapWords (argumentOf params args)

/-! ### Pound signs -/

/-- Pairs of pound signs are dropped. -/
def dropPounds : CString → CString
  | [] => []
  | [b] => [b]
  | a :: b :: s => if a = 35 ∧ b = 35 then dropPounds s else a :: dropPounds (b :: s)

theorem subFrom_doublePoundRe : subFrom doublePoundRe (fun _ => []) 0 matched last s =
    dropPounds s := by
  have hnone : ∀ {last t}, ¬ [35, 35] <+: t → first doublePoundRe (.start last t) = none :=
    fun h => congrArg List.head? (run_text_eq_nil h)
  fun_induction dropPounds s generalizing last matched with
  | case1 =>
    rw [subFrom, hnone (by simp)]
  | case2 b =>
    rw [subFrom, hnone (by simp), subFrom, hnone (by simp)]
  | case3 a b s hab ih =>
    obtain ⟨rfl, rfl⟩ := hab
    have hfirst : first doublePoundRe (.start last ([35, 35] ++ s)) =
        some (past (.start last ([35, 35] ++ s)) [35, 35] s) := first_text rfl
    exact (subFrom_of_first (cons_ne_nil _ _) hfirst rfl).trans ih
  | case4 a b s hab ih =>
    have hpre : ¬ [35, 35] <+: a :: b :: s := by
      intro hpre
      obtain ⟨ha, hpre⟩ := cons_prefix_cons.mp hpre
      exact hab ⟨ha.symm, (cons_prefix_cons.mp hpre).1.symm⟩
    rw [subFrom, hnone hpre]
    exact congrArg (a :: ·) ih

theorem dropPounds_append (hv : v.head? ≠ some 35) :
    dropPounds (u ++ v) = dropPounds u ++ dropPounds v := by
  fun_induction dropPounds u with
  | case1 => rfl
  | case2 b =>
    cases v with
    | nil => rfl
    | cons c v =>
      rw [singleton_append, dropPounds, if_neg fun h => hv (congrArg some h.2)]
      rfl
  | case3 a b s hab ih =>
    rw [cons_append, cons_append, dropPounds, if_pos hab]
    exact ih
  | case4 a b s hab ih =>
    rw [cons_append, cons_append, dropPounds, if_neg hab]
    exact congrArg (a :: ·) ih

theorem dropPounds_eq_self (h : 35 ∉ s) : dropPounds s = s := by
  fun_induction dropPounds s with
  | case1 => rfl
  | case2 b => rfl
  | case3 a b s hab ih => exact absurd (hab.1 ▸ mem_cons_self) h
  | case4 a b s hab ih => rw [ih fun hmem => h (mem_cons_of_mem _ hmem)]

/-- Every pound sign follows a word. -/
def Quiet (last : Option UInt8) (s : CString) : Prop :=
  ∀ u v, s = u ++ 35 :: v → (lastOf last u).any isWord = true

theorem quiet_of_not_mem (h : 35 ∉ s) : Quiet last s := by
  rintro u v rfl
  exact absurd (by simp) h

theorem Quiet.append (hu : Quiet last u) (hv : Quiet (lastOf last u) v) : Quiet last (u ++ v) := by
  intro w t hw
  rcases append_eq_append_iff.mp hw with ⟨w', rfl, hv'⟩ | ⟨w', rfl, hu'⟩
  · rw [lastOf_append]
    exact hv w' t hv'
  · cases w' with
    | nil =>
      rw [append_nil] at hv
      exact hv [] t hu'.symm
    | cons b w' =>
      obtain ⟨rfl, -⟩ := List.cons.inj hu'
      exact hu w w' rfl

/-- Only what kind of byte comes before counts. -/
theorem Quiet.congr {last' : Option UInt8} (h : Quiet last s)
    (hlast : last.any isWord = last'.any isWord) : Quiet last' s := by
  rintro u v rfl
  cases u with
  | nil => exact hlast ▸ h [] v rfl
  | cons b u => exact h (b :: u) v rfl

/-- No match of `\B#\s*(\S*)`: no pound sign, or one that follows a word. -/
theorem first_singlePoundRe_eq_none (h : s.head? = some 35 → last.any isWord = true) :
    first singlePoundRe (.start last s) = none := by
  refine congrArg List.head? (run_seq_eq_nil fun c₁ hc1 => run_seq_eq_nil fun c₂ hc2 => ?_)
  exfalso
  obtain ⟨hat, rfl⟩ := mem_run_look.mp hc1
  have hs : s = 35 :: c₂.rest := rest_of_mem_run_text hc2
  have hat' : atBoundary last s = true := by
    rw [atBoundary, h (by rw [hs]; rfl), hs]
    rfl
  have hno : (!atBoundary last s) = true := hat
  rw [hat'] at hno
  cases hno

/-- A match: a pound sign that does not. -/
theorem first_singlePoundRe (hlast : last.any isWord = false) :
    ∃ u c, first singlePoundRe (.start last (35 :: s)) = some c ∧ 35 :: s = 35 :: u ++ c.rest := by
  have hno : first (noBoundary : Regex UInt8 Unit) (.start last (35 :: s)) =
      some (.start last (35 :: s)) := by
    have hat : atBoundary last (35 :: s) = false := by
      rw [atBoundary, hlast]
      rfl
    rw [first, noBoundary, run]
    exact congrArg List.head? (if_pos (by simp [Cursor.start, hat]))
  have hpound := first_text (c := (.start last (35 :: s) : Cursor UInt8 Unit)) (u := lit "#")
    (v := s) rfl
  obtain ⟨c₁, hspace⟩ := exists_first_star true (.char isSpace)
    (past (.start last (35 :: s) : Cursor UInt8 Unit) (lit "#") s)
  obtain ⟨c₂, htext⟩ := exists_first_star true (.char fun b => !isSpace b) c₁
  obtain ⟨u₁, -, hu1⟩ := consumed_of_mem_run (over_true _) (mem_of_mem_head? hspace)
  obtain ⟨u₂, -, hu2⟩ := consumed_of_mem_run (over_true _) (mem_of_mem_head? htext)
  refine ⟨u₁ ++ u₂, _, first_seq hno (first_seq hpound (first_seq hspace
    (first_group htext hu2))), ?_⟩
  rw [cons_append, append_assoc, ← hu2, ← hu1]
  rfl

/-- What `SINGLE_POUND_RE` puts in has quotes around it. -/
theorem subFrom_singlePoundRe (h : 34 ∉ subFrom singlePoundRe
      (fun c => [34] ++ (c.groups ()).getD [] ++ [34]) 0 matched last s) :
    Quiet last s := by
  induction s generalizing last matched with
  | nil =>
    intro u v hs
    cases u <;> cases hs
  | cons a s ih =>
    by_cases hmatch : a = 35 ∧ last.any isWord = false
    · obtain ⟨rfl, hlast⟩ := hmatch
      obtain ⟨u, c, hfirst, hs⟩ := first_singlePoundRe (s := s) hlast
      rw [hs] at h hfirst
      rw [subFrom_of_first (cons_ne_nil _ _) hfirst rfl] at h
      simp at h
    · have hword : a = 35 → last.any isWord = true := by simpa using hmatch
      rw [subFrom, first_singlePoundRe_eq_none fun ha => hword (by simpa using ha)] at h
      have hrest := ih fun hmem => h (mem_cons_of_mem _ hmem)
      intro u v hs
      cases u with
      | nil => exact hword (List.cons.inj hs).1
      | cons b u =>
        obtain ⟨rfl, htail⟩ := List.cons.inj hs
        exact hrest u v htail

theorem subFrom_singlePoundRe_eq_self {repl : Cursor UInt8 Unit → CString} (h : Quiet last s) :
    subFrom singlePoundRe repl 0 matched last s = s := by
  refine subFrom_eq_self fun w t hw => first_singlePoundRe_eq_none fun ht => ?_
  obtain ⟨v, rfl⟩ := head?_eq_some_iff.mp ht
  exact h w v hw

/-- **The treatment of pound signs**, where it puts in no quotes. -/
theorem massage_eq_iff (ht : 34 ∉ t) :
    massageAccordingToPoundSigns s = t ↔ dropPounds s = t ∧ Quiet none t := by
  have hdouble : sub doublePoundRe (fun _ => []) s = dropPounds s := subFrom_doublePoundRe
  rw [massageAccordingToPoundSigns, hdouble]
  constructor
  · intro h
    have hquiet : Quiet none (dropPounds s) := subFrom_singlePoundRe (h ▸ ht)
    obtain rfl : dropPounds s = t := (subFrom_singlePoundRe_eq_self hquiet).symm.trans h
    exact ⟨rfl, hquiet⟩
  · rintro ⟨rfl, hquiet⟩
    exact subFrom_singlePoundRe_eq_self hquiet

/-! ### The signs in a text and in its words -/

theorem dropPounds_append_left (hu : 35 ∉ u) : dropPounds (u ++ v) = u ++ dropPounds v := by
  induction u with
  | nil => rfl
  | cons a u ih =>
    have ha : a ≠ 35 := fun ha => hu (ha ▸ mem_cons_self)
    have htail := ih fun hmem => hu (mem_cons_of_mem _ hmem)
    rw [cons_append, cons_append, ← htail]
    cases u ++ v with
    | nil => rfl
    | cons b t => rw [dropPounds, if_neg fun h => ha h.1]

theorem dropPounds_mapWords (hs : 35 ∉ s) :
    dropPounds (mapWords f s) = mapWords (fun w => dropPounds (f w)) s := by
  induction s using words_induction with
  | free s hfree => rw [mapWords_wordFree hfree, mapWords_wordFree hfree, dropPounds_eq_self hs]
  | split s before x rest h ih =>
    rw [h.eq, append_assoc, mem_append, mem_append, not_or, not_or] at hs
    have hnext : (mapWords f rest).head? ≠ some 35 := by
      rw [head?_mapWords h.rest_ahead]
      exact fun hhead => hs.2.2 (mem_of_mem_head? hhead)
    rw [mapWords_splits h, mapWords_splits h, dropPounds_append_left hs.1,
      dropPounds_append hnext, ih hs.2.2]

theorem quiet_mapWords (hs : 35 ∉ s)
    (hf : ∀ w ∈ words s, Quiet none (f w)) (h : last.any isWord = false ∨ NoWordAhead s) :
    Quiet last (mapWords f s) := by
  induction s using words_induction generalizing last with
  | free s hfree =>
    rw [mapWords_wordFree hfree]
    exact quiet_of_not_mem hs
  | split s before x rest hsplit ih =>
    have hlast := Splits.lastOf_before hsplit h
    rw [words_splits hsplit] at hf
    rw [hsplit.eq, append_assoc, mem_append, mem_append, not_or, not_or] at hs
    rw [mapWords_splits hsplit]
    refine (quiet_of_not_mem hs.1).append (.append ?_ ?_)
    · exact (hf x mem_cons_self).congr hlast.symm
    · exact ih hs.2.2 (fun w hw => hf w (mem_cons_of_mem _ hw)) (.inr hsplit.rest_ahead)

/-- **The signs are treated word by word**, where there is none between the words. -/
theorem massage_mapWords {f g : CString → CString} (hs : 35 ∉ s)
    (h : ∀ w ∈ words s, massageAccordingToPoundSigns (g w) = f w ∧ 34 ∉ f w) :
    massageAccordingToPoundSigns (mapWords g s) = mapWords f s := by
  have hword : ∀ w ∈ words s, dropPounds (g w) = f w ∧ Quiet none (f w) :=
    fun w hw => (massage_eq_iff (h w hw).2).mp (h w hw).1
  have hdrop : dropPounds (mapWords g s) = mapWords f s := by
    rw [dropPounds_mapWords hs]
    exact mapWords_congr fun w hw => (hword w hw).1
  have hdouble : sub doublePoundRe (fun _ => []) (mapWords g s) = mapWords f s :=
    subFrom_doublePoundRe.trans hdrop
  rw [massageAccordingToPoundSigns, hdouble]
  exact subFrom_singlePoundRe_eq_self
    (quiet_mapWords hs (fun w hw => (hword w hw).2) (.inl rfl))

end Distcc.IncludeServer
