import Distcc.IncludeServer.MacroEval

/-!
# Macros without parameters

What the preprocessor makes of a text, once one definition was chosen for some of the
symbols: each word that has a definition is replaced, and what replaces it is treated in
the same way, but for the symbol itself (`Expands`). A word that is
kept for that reason does not keep the words after it from being replaced.

The include server evaluates the text after a symbol first, and then what replaces the
symbol, followed by each of the values. When it meets a symbol that is disabled, it leaves
all that follows as it is. What follows in the text of the same definition was not
evaluated before, and so the expansion may not be among the values
(`evalExpression_misses`). It is if behind a symbol that is kept in its
own expansion nothing is left to be replaced (`Tame`,
`evalExpression_contains`).
-/

namespace Distcc.IncludeServer

open CString Regex List

/-! ### The expansion by the preprocessor -/

/-- Only macros without parameters are defined. -/
def SymbolTable.ObjectLike (T : SymbolTable) : Prop :=
  ∀ x, ∀ df ∈ T x, ∃ d, df = ⟨none, some d⟩

theorem SymbolTable.ObjectLike.complete {T : SymbolTable} (hT : T.ObjectLike) : T.Complete := by
  intro x df hdf
  obtain ⟨d, rfl⟩ := hT x df hdf
  exact Option.some_ne_none d

/-- At most one of its definitions for each symbol. -/
def Chooses (T : SymbolTable) (choice : CString → Option CString) : Prop :=
  ∀ x d, choice x = some d → ⟨none, some d⟩ ∈ T x

/-- The definition that came last, of each symbol. -/
def lastChoice (T : SymbolTable) (x : CString) : Option CString := (T x).getLast?.bind MacroDef.rhs

theorem chooses_lastChoice {T : SymbolTable} (hT : T.ObjectLike) : Chooses T (lastChoice T) := by
  intro x d hd
  obtain ⟨df, hlast, hrhs⟩ := Option.bind_eq_some_iff.mp hd
  have hmem : df ∈ T x := mem_of_getLast? hlast
  obtain ⟨d', rfl⟩ := hT x df hmem
  exact Option.some.inj hrhs ▸ hmem

theorem objectLike_ofDefines {defines : List (CString × MacroDef)}
    (h : ∀ df ∈ defines, ∃ d, df.2 = ⟨none, some d⟩) :
    (SymbolTable.ofDefines defines).ObjectLike :=
  fun x df hdf => h (x, df) (SymbolTable.mem_ofDefines.mp hdf)

variable {T : SymbolTable} {choice : CString → Option CString} {D values : List CString}
  {s v : CString}

/-- **The expansion of a text**, inside the expansion of the symbols in `D`. -/
inductive Expands (choice : CString → Option CString) :
    List CString → CString → CString → Prop
  | plain {D : List CString} {s : CString} (h : WordFree s) : Expands choice D s s
  | keep {D : List CString} {s before x rest v : CString} (h : Splits s before x rest)
      (hx : x ∈ D ∨ choice x = none) (hrest : Expands choice D rest v) :
      Expands choice D s (before ++ x ++ v)
  | replace {D : List CString} {s before x rest d u v : CString} (h : Splits s before x rest)
      (hx : x ∉ D) (hd : choice x = some d) (hbody : Expands choice (x :: D) d u)
      (hrest : Expands choice D rest v) : Expands choice D s (before ++ u ++ v)

theorem Expands.unique {v' : CString} (h : Expands choice D s v) (h' : Expands choice D s v') :
    v = v' := by
  induction h generalizing v' with
  | plain hfree =>
    cases h' with
    | plain => rfl
    | keep hs => exact absurd hfree hs.not_wordFree
    | replace hs => exact absurd hfree hs.not_wordFree
  | keep hs hx _ ih =>
    cases h' with
    | plain hfree => exact absurd hfree hs.not_wordFree
    | keep hs' _ hrest' =>
      obtain ⟨rfl, rfl, rfl⟩ := hs.unique hs'
      rw [ih hrest']
    | replace hs' hx' hd' =>
      obtain ⟨rfl, rfl, rfl⟩ := hs.unique hs'
      rcases hx with hx | hx
      · exact absurd hx hx'
      · rw [hx] at hd'
        cases hd'
  | replace hs hx hd _ _ ihbody ih =>
    cases h' with
    | plain hfree => exact absurd hfree hs.not_wordFree
    | keep hs' hx' =>
      obtain ⟨rfl, rfl, rfl⟩ := hs.unique hs'
      rcases hx' with hx' | hx'
      · exact absurd hx' hx
      · rw [hx'] at hd
        cases hd
    | replace hs' _ hd' hbody' hrest' =>
      obtain ⟨rfl, rfl, rfl⟩ := hs.unique hs'
      obtain rfl := Option.some.inj (hd.symm.trans hd')
      rw [ihbody hbody', ih hrest']

theorem Expands.noWordAhead (h : Expands choice D s v) (hs : NoWordAhead s) : NoWordAhead v := by
  cases h with
  | plain => exact hs
  | keep h =>
    rw [append_assoc]
    exact h.noWordAhead hs _
  | replace h =>
    rw [append_assoc]
    exact h.noWordAhead hs _

/-! ### Where the include server follows -/

/-- **Nothing is left to be replaced behind a symbol that is kept in its own expansion.** -/
inductive Tame (choice : CString → Option CString) : List CString → CString → Prop
  | plain {D : List CString} {s : CString} (h : WordFree s) : Tame choice D s
  | absent {D : List CString} {s before x rest : CString} (h : Splits s before x rest)
      (hx : x ∉ D) (hd : choice x = none) (hrest : Tame choice D rest) : Tame choice D s
  | hidden {D : List CString} {s before x rest : CString} (h : Splits s before x rest)
      (hx : x ∈ D) (hrest : Expands choice D rest rest) : Tame choice D s
  | chosen {D : List CString} {s before x rest d : CString} (h : Splits s before x rest)
      (hx : x ∉ D) (hd : choice x = some d) (hbody : Tame choice (x :: D) d)
      (hrest : Tame choice D rest) : Tame choice D s

/-- What is known of a text that is tame, by its first word. -/
theorem Tame.cases_of_splits {before x rest : CString} (h : Tame choice D s)
    (hs : Splits s before x rest) :
    (x ∈ D ∧ Expands choice D rest rest) ∨ (x ∉ D ∧ Tame choice D rest ∧
      ∀ d, choice x = some d → Tame choice (x :: D) d) := by
  cases h with
  | plain hfree => exact absurd hfree hs.not_wordFree
  | absent hs' hx hd hrest =>
    obtain ⟨rfl, rfl, rfl⟩ := hs.unique hs'
    refine .inr ⟨hx, hrest, fun d hd' => ?_⟩
    rw [hd] at hd'
    cases hd'
  | hidden hs' hx hrest =>
    obtain ⟨rfl, rfl, rfl⟩ := hs.unique hs'
    exact .inl ⟨hx, hrest⟩
  | chosen hs' hx hd hbody hrest =>
    obtain ⟨rfl, rfl, rfl⟩ := hs.unique hs'
    refine .inr ⟨hx, hrest, fun d hd' => ?_⟩
    obtain rfl := Option.some.inj (hd.symm.trans hd')
    exact hbody

/-- The values of a text with a symbol that stays hold the values of what follows it, unless
the symbol is disabled. -/
theorem keep_mem {before x rest w : CString} {n : ℕ} (hs : Splits s before x rest) (hx : x ∉ D)
    (hrun : evalExprHelper T (n + 1) s D () = some (.ok values, ()))
    (hrest : ∀ afters, evalExprHelper T n rest D () = some (.ok afters, ()) → w ∈ afters) :
    before ++ x ++ w ∈ values := by
  by_cases hT : T x = []
  · rw [evalExprHelper_undefined hs hT] at hrun
    obtain ⟨afters, hafters, rfl⟩ := Prog.bind_pure_eq_ok_iff.mp hrun
    exact mem_prependToSet.mpr ⟨w, hrest afters hafters, rfl⟩
  · obtain ⟨df, hdf⟩ := exists_mem_of_ne_nil _ hT
    obtain ⟨afters, -, hafters, -, hkept, -⟩ := evalMacro_of_evalExprHelper hs hx hdf hrun
    exact hkept w (hrest afters hafters)

/-- **The expansion of a tame text is one of its values**, whatever follows the text. -/
theorem Expands.mem (hchoice : Chooses T choice) (hv : Expands choice D s v)
    (htame : Tame choice D s) (hD : ∀ x ∈ D, T x ≠ []) {a : CString} (ha : NoWordAhead a)
    {n : ℕ}
    (hrun : evalExprHelper T n (s ++ a) D () = some (.ok values, ())) : v ++ a ∈ values := by
  -- along the derivation: a symbol that is kept is followed by the expansion of the rest, and
  -- what replaces a symbol is followed by that expansion, which was evaluated before
  induction hv generalizing a n values with
  | plain => exact self_mem_of_evalExprHelper hrun
  | @keep D s before x rest v hs hx hrest ih =>
    cases n with
    | zero => cases hrun
    | succ n =>
      rcases htame.cases_of_splits hs with ⟨-, hself⟩ | ⟨hxD, htrest, -⟩
      · rw [hrest.unique hself, ← hs.eq]
        exact self_mem_of_evalExprHelper hrun
      · rw [append_assoc]
        exact keep_mem (hs.append ha) hxD hrun fun afters hafters => ih htrest hD ha hafters
  | @replace D s before x rest d u v hs hx hd hbody hrest ihbody ih =>
    cases n with
    | zero => cases hrun
    | succ n =>
      rcases htame.cases_of_splits hs with ⟨hxD, -⟩ | ⟨-, htrest, htbody⟩
      · exact absurd hxD hx
      · have hmem := hchoice x d hd
        obtain ⟨afters, ws, hafters, hws, -, hvalues⟩ :=
          evalMacro_of_evalExprHelper (hs.append ha) hx hmem hrun
        obtain ⟨us, hus, hu⟩ := mem_of_reEvalRecursivelyForExpansion hafters hws
          (ih htrest hD ha hafters)
        have hD' : ∀ y ∈ x :: D, T y ≠ [] := by
          intro y hy
          rcases mem_cons.mp hy with rfl | hy
          · exact ne_nil_of_mem hmem
          · exact hD y hy
        have hnext : NoWordAhead (v ++ a) := (hrest.noWordAhead hs.rest_ahead).append ha
        have hin := hvalues _ (hu _ (ihbody (htbody d hd) hD' hnext hus))
        rwa [← append_assoc, ← append_assoc] at hin

/-- **Every expansion of a tame expression is computed.** -/
theorem evalExpression_contains {keys : Finset CString} (hkeys : ∀ x, T x ≠ [] → x ∈ keys)
    (hT : T.ObjectLike) (hchoice : Chooses T choice) {expr : CString}
    (hv : Expands choice [] expr v) (htame : Tame choice [] expr) :
    ∃ n values, evalExpression T n expr () = some (.ok values, ()) ∧ v ∈ values := by
  obtain ⟨n, values, hrun⟩ := evalExpression_returns hkeys hT.complete expr
  refine ⟨n, values, hrun, ?_⟩
  have hnil : NoWordAhead [] := fun b hb => by cases hb
  have hmem := hv.mem (a := []) hchoice htame (fun x hx => by cases hx) hnil
    (by rw [append_nil]; exact hrun)
  rwa [append_nil] at hmem

/-- The definitions `A` as `x` or `y`, and `B` as `1` or `2`. -/
def dotDefines : List (CString × MacroDef) :=
  [(lit "A", ⟨none, some (lit "x")⟩), (lit "A", ⟨none, some (lit "y")⟩),
    (lit "B", ⟨none, some (lit "1")⟩), (lit "B", ⟨none, some (lit "2")⟩)]

theorem evalExpression_contains_dot : ∃ n values,
    evalExpression (.ofDefines dotDefines) n (lit "A.B") () = some (.ok values, ()) ∧
      lit "y.2" ∈ values := by
  have hT : (SymbolTable.ofDefines dotDefines).ObjectLike :=
    objectLike_ofDefines (by simp [dotDefines])
  have hA : Splits (lit "A.B") [] (lit "A") (lit ".B") := by decide
  have hB : Splits (lit ".B") (lit ".") (lit "B") [] := by decide
  have hy : Splits (lit "y") [] (lit "y") [] := by decide
  have h2 : Splits (lit "2") [] (lit "2") [] := by decide
  have hnil : WordFree [] := by decide
  have hchA : lastChoice (.ofDefines dotDefines) (lit "A") = some (lit "y") := by decide
  have hchB : lastChoice (.ofDefines dotDefines) (lit "B") = some (lit "2") := by decide
  have hchy : lastChoice (.ofDefines dotDefines) (lit "y") = none := by decide
  have hch2 : lastChoice (.ofDefines dotDefines) (lit "2") = none := by decide
  have hv : Expands (lastChoice (.ofDefines dotDefines)) [] (lit "A.B") (lit "y.2") :=
    .replace hA (by decide) hchA (.keep hy (.inr hchy) (.plain hnil))
      (.replace hB (by decide) hchB (.keep h2 (.inr hch2) (.plain hnil)) (.plain hnil))
  have htame : Tame (lastChoice (.ofDefines dotDefines)) [] (lit "A.B") :=
    .chosen hA (by decide) hchA (.absent hy (by decide) hchy (.plain hnil))
      (.chosen hB (by decide) hchB (.absent h2 (by decide) hch2 (.plain hnil)) (.plain hnil))
  exact evalExpression_contains SymbolTable.keys_ofDefines hT (chooses_lastChoice hT) hv htame

/-! ### Where it does not -/

/-- The definitions `A` as `A B` and `B` as `c`. -/
def selfDefines : List (CString × MacroDef) :=
  [(lit "A", ⟨none, some (lit "A B")⟩), (lit "B", ⟨none, some (lit "c")⟩)]

theorem objectLike_selfDefines : (SymbolTable.ofDefines selfDefines).ObjectLike := by
  refine objectLike_ofDefines ?_
  simp [selfDefines]

theorem lastChoice_selfDefines :
    lastChoice (.ofDefines selfDefines) (lit "A") = some (lit "A B") ∧
      lastChoice (.ofDefines selfDefines) (lit "B") = some (lit "c") ∧
      lastChoice (.ofDefines selfDefines) (lit "c") = none := by
  decide

theorem splits_self : Splits (lit "A") [] (lit "A") [] := by decide

theorem splits_self_body : Splits (lit "A B") [] (lit "A") (lit " B") := by decide

/-- What follows `A` in its own expansion. -/
theorem expands_self_rest :
    Expands (lastChoice (.ofDefines selfDefines)) [lit "A"] (lit " B") (lit " c") := by
  obtain ⟨-, hB, hc⟩ := lastChoice_selfDefines
  have hsB : Splits (lit " B") (lit " ") (lit "B") [] := by decide
  have hsc : Splits (lit "c") [] (lit "c") [] := by decide
  have hnil : WordFree [] := by decide
  exact .replace hsB (by decide) hB (.keep hsc (.inr hc) (.plain hnil)) (.plain hnil)

/-- `A` becomes `A c`. -/
theorem expands_self :
    Expands (lastChoice (.ofDefines selfDefines)) [] (lit "A") (lit "A c") :=
  .replace splits_self (by decide) lastChoice_selfDefines.1
    (.keep splits_self_body (.inl mem_cons_self) expands_self_rest)
    (.plain (by decide))

/-- **An expansion is missing**: with `A` as `A B`, and `B` as `c`, the expression `A` becomes
`A c`. The values are `A` and `A B`. -/
theorem evalExpression_misses :
    (SymbolTable.ofDefines selfDefines).ObjectLike ∧
      Chooses (.ofDefines selfDefines) (lastChoice (.ofDefines selfDefines)) ∧
      Expands (lastChoice (.ofDefines selfDefines)) [] (lit "A") (lit "A c") ∧
      ∀ n values, evalExpression (.ofDefines selfDefines) n (lit "A") () =
        some (.ok values, ()) → lit "A c" ∉ values := by
  have hT := objectLike_selfDefines
  refine ⟨hT, chooses_lastChoice hT, expands_self, fun n values hrun => ?_⟩
  have hyields : (evalExpression (.ofDefines selfDefines) 5 (lit "A")).yields ()
      (fun values _ => lit "A c" ∉ values) = true := by decide +kernel
  obtain ⟨values', ⟨⟩, hrun', hmem⟩ := Prog.exists_of_yields hyields
  rw [evalExpression_unique hrun hrun']
  simpa using hmem

end Distcc.IncludeServer
