import Distcc.IncludeServer.MacroEval

/-!
# More definitions give more values

The include server does not know which definitions are in effect, and a definition that it
has met is never taken back. So what it computes for an expression must not get smaller when
a table grows (`evalExpression_mono`).

A symbol that becomes defined is treated by another branch of `_EvalExprHelper`: up to then
it stays and the text behind it is evaluated, and from then on it may stay and each of its
definitions is tried, unless it is disabled: then the text behind it is *not* evaluated. It
does not come to that, because the symbols that are disabled are symbols of the smaller
table. This is what the induction carries.
-/

namespace Distcc.IncludeServer

open CString Regex List Prog

variable {T₁ T₂ : SymbolTable} {before x rest : CString} {disabled : List CString}

/-! ### Tables as they are documented -/

/-- A symbol table: finitely many symbols have definitions, and each definition is a string,
or a list of parameters and a string. -/
structure DocumentedTable where
  /-- The definitions of each symbol. A symbol without any is not in the table. -/
  definitions : SymbolTable
  /-- The symbols. -/
  symbols : Finset CString
  symbols_spec : ∀ x, definitions x ≠ [] → x ∈ symbols
  complete : definitions.Complete

/-- The table that the definitions make, one after the other. -/
def DocumentedTable.ofDefines (defines : List (CString × MacroDef))
    (h : ∀ df ∈ defines, df.2.rhs ≠ none) : DocumentedTable where
  definitions := .ofDefines defines
  symbols := (defines.map Prod.fst).toFinset
  symbols_spec := SymbolTable.keys_ofDefines
  complete := fun _ _ hdf => h _ (SymbolTable.mem_ofDefines.mp hdf)

/-- Every definition of every symbol is also in the other table. -/
instance : LE DocumentedTable := ⟨fun T₁ T₂ => ∀ x, T₁.definitions x ⊆ T₂.definitions x⟩

/-- `EvalExpression` returns these values. -/
def Evaluates (T : SymbolTable) (expr : CString) (values : List CString) : Prop :=
  ∃ n, ∀ m ≥ n, evalExpression T m expr () = some (.ok values, ())

theorem DocumentedTable.evaluates (T : DocumentedTable) (expr : CString) :
    ∃ values, Evaluates T.definitions expr values ∧ expr ∈ values := by
  obtain ⟨n, values, hrun⟩ := evalExpression_returns T.symbols_spec T.complete expr
  exact ⟨values, ⟨n, fun m hm => (evalExprHelper_rising expr []).le hm hrun⟩,
    self_mem_of_evalExprHelper hrun⟩

/-! ### One call -/

theorem substituteArgs_subset (lhs : List CString) {argsExpand argsExpand' : List (List CString)}
    (hargs : List.Forall₂ (· ⊆ ·) argsExpand argsExpand') {expansions expansions' : List CString}
    (h : expansions ⊆ expansions') :
    substituteArgs lhs argsExpand expansions ⊆ substituteArgs lhs argsExpand' expansions' := by
  induction hargs generalizing lhs expansions expansions' with
  | nil =>
    cases lhs <;> exact h
  | @cons args args' _ _ hsub _ ih =>
    cases lhs with
    | nil => exact h
    | cons param lhs =>
      refine ih lhs fun v hv => ?_
      obtain ⟨e, he, hv⟩ := mem_flatMap.mp hv
      obtain ⟨a, ha, rfl⟩ := mem_map.mp hv
      exact mem_flatMap.mpr ⟨e, h he, mem_map.mpr ⟨a, hsub ha, rfl⟩⟩

section Call

-- what the calls of `_EvalExprHelper` give for the smaller table and for the larger one
variable {eval eval' : CString → List CString → Values}
  (hsame : ∀ e, (eval e disabled).Within (eval' e disabled))
  (hmore : ∀ e, (eval e (x :: disabled)).Within (eval' e (x :: disabled)))
include hsame hmore

theorem reEvalRecursivelyForExpansion_within (expansion after : CString) :
    (reEvalRecursivelyForExpansion eval before x disabled expansion after).Within
      (reEvalRecursivelyForExpansion eval' before x disabled expansion after) := by
  intro vs ws hvs hws v hv
  obtain ⟨afters, ⟨⟩, hafters, hvs⟩ := bind_eq_ok_iff.mp hvs
  obtain ⟨us, hus, rfl⟩ := bind_pure_eq_ok_iff.mp hvs
  obtain ⟨afters', ⟨⟩, hafters', hws⟩ := bind_eq_ok_iff.mp hws
  obtain ⟨us', hus', rfl⟩ := bind_pure_eq_ok_iff.mp hws
  have hsub : us ⊆ us' :=
    Prog.Within.gather (fun _ _ => hmore _) (hsame after hafters hafters') hus hus'
  obtain ⟨u, hu, rfl⟩ := mem_prependToSet.mp hv
  exact mem_prependToSet.mpr ⟨u, hsub hu, rfl⟩

theorem callValues_within (lhs : List CString) (rhs : Option CString) (argsList : List CString)
    (after : CString) :
    (callValues eval before x disabled lhs rhs argsList after).Within
      (callValues eval' before x disabled lhs rhs argsList after) := by
  intro vs ws hvs hws
  obtain ⟨argsExpand, ⟨⟩, hargs, hvs⟩ := bind_eq_ok_iff.mp hvs
  obtain ⟨argsExpand', ⟨⟩, hargs', hws⟩ := bind_eq_ok_iff.mp hws
  cases rhs with
  | none =>
    cases hvs
  | some rhs =>
    have hexpansions := substituteArgs_subset lhs
      (Prog.Within.collect (fun arg => hsame arg) hargs hargs') (List.Subset.refl [rhs])
    exact Prog.Within.gather
      (fun _ _ => reEvalRecursivelyForExpansion_within hsame hmore _ _) hexpansions hvs hws

theorem macroValues_within (df : MacroDef) :
    (macroValues eval before x rest disabled df).Within
      (macroValues eval' before x rest disabled df) := by
  intro vs ws hvs hws
  unfold macroValues at hvs hws
  split at hvs
  · exact reEvalRecursivelyForExpansion_within hsame hmore _ _ hvs hws
  · cases hvs
  · split at hvs
    · obtain ⟨rfl, -⟩ := pure_eq_ok_iff.mp hvs
      exact nil_subset ws
    · case h_2 argsList after hparse =>
      simp only [hparse] at hws
      split at hvs
      · case isTrue hlength =>
        rw [if_pos hlength] at hws
        exact callValues_within hsame hmore _ _ _ _ hvs hws
      · obtain ⟨rfl, -⟩ := pure_eq_ok_iff.mp hvs
        exact nil_subset ws

theorem evalMacro_within (df : MacroDef) :
    (evalMacro eval before x rest disabled df).Within
      (evalMacro eval' before x rest disabled df) := by
  intro vs ws hvs hws v hv
  obtain ⟨afters, ⟨⟩, hafters, hvs⟩ := bind_eq_ok_iff.mp hvs
  obtain ⟨us, hus, rfl⟩ := bind_pure_eq_ok_iff.mp hvs
  obtain ⟨afters', ⟨⟩, hafters', hws⟩ := bind_eq_ok_iff.mp hws
  obtain ⟨us', hus', rfl⟩ := bind_pure_eq_ok_iff.mp hws
  rcases mem_append.mp hv with hv | hv
  · obtain ⟨w, hw, rfl⟩ := mem_prependToSet.mp hv
    exact mem_append_left _
      (mem_prependToSet.mpr ⟨w, hsame rest hafters hafters' hw, rfl⟩)
  · exact mem_append_right _ (macroValues_within hsame hmore df hus hus' hv)

end Call

/-! ### Every call -/

/-- The symbols that are disabled are symbols of the table. -/
def DisabledIn (T : SymbolTable) (disabled : List CString) : Prop := ∀ x ∈ disabled, T x ≠ []

/-- **More definitions give more values**, at any depth of the calls. -/
theorem evalExprHelper_within (hT : ∀ x, T₁ x ⊆ T₂ x) {n m : ℕ} {expr : CString}
    (hdisabled : DisabledIn T₁ disabled) :
    (evalExprHelper T₁ n expr disabled).Within (evalExprHelper T₂ m expr disabled) := by
  induction n generalizing m expr disabled with
  | zero =>
    intro vs ws hvs
    cases hvs
  | succ n ih =>
    cases m with
    | zero =>
      intro vs ws _ hws
      cases hws
    | succ m =>
      intro vs ws hvs hws v hv
      obtain hfree | ⟨before, x, rest, hs⟩ := splits_or_wordFree expr
      · rw [evalExprHelper_wordFree hfree] at hvs hws
        obtain ⟨rfl, -⟩ := ok_unique hvs hws
        exact hv
      · by_cases hx1 : T₁ x = []
        · -- it stays in the smaller table
          rw [evalExprHelper_undefined hs hx1] at hvs
          obtain ⟨afters, hafters, rfl⟩ := bind_pure_eq_ok_iff.mp hvs
          obtain ⟨w, hw, rfl⟩ := mem_prependToSet.mp hv
          by_cases hx2 : T₂ x = []
          · rw [evalExprHelper_undefined hs hx2] at hws
            obtain ⟨afters', hafters', rfl⟩ := bind_pure_eq_ok_iff.mp hws
            exact mem_prependToSet.mpr ⟨w, ih hdisabled hafters hafters' hw, rfl⟩
          · -- in the larger one it is not disabled, and any definition lets it stay
            have hx : x ∉ disabled := fun hmem => hdisabled x hmem hx1
            obtain ⟨df, hdf⟩ := exists_mem_of_ne_nil _ hx2
            obtain ⟨afters', -, hafters', -, hstay, -⟩ :=
              evalMacro_of_evalExprHelper hs hx hdf hws
            exact hstay w (ih hdisabled hafters hafters' hw)
        · have hx2 : T₂ x ≠ [] := fun hnil => hx1 (subset_nil.mp (hnil ▸ hT x))
          by_cases hx : x ∈ disabled
          · rw [evalExprHelper_disabled hs hx1 hx] at hvs
            rw [evalExprHelper_disabled hs hx2 hx] at hws
            obtain ⟨rfl, -⟩ := ok_unique hvs hws
            exact hv
          · rw [evalExprHelper_defined hs hx1 hx] at hvs
            rw [evalExprHelper_defined hs hx2 hx] at hws
            obtain ⟨us, hus, rfl⟩ := bind_pure_eq_ok_iff.mp hvs
            obtain ⟨us', hus', rfl⟩ := bind_pure_eq_ok_iff.mp hws
            have hmore : DisabledIn T₁ (x :: disabled) :=
              forall_mem_cons.mpr ⟨hx1, hdisabled⟩
            have hsub : us ⊆ us' := Prog.Within.gather
              (fun df _ => evalMacro_within (fun _ => ih hdisabled) (fun _ => ih hmore) df)
              (hT x) hus hus'
            exact cons_subset_cons expr hsub hv

/-- **Macro evaluation terminates and is monotone**: every expression has values, itself among
them, and a table with more definitions does not give less. Python's limit to the depth of the
calls is left out: no table and no expression is too deep. -/
theorem evalExpression_mono (T₁ T₂ : DocumentedTable) (hT : T₁ ≤ T₂) (expr : CString) :
    ∃ values₁ values₂, Evaluates T₁.definitions expr values₁ ∧
      Evaluates T₂.definitions expr values₂ ∧ expr ∈ values₁ ∧ expr ∈ values₂ ∧
      values₁ ⊆ values₂ := by
  obtain ⟨values₁, ⟨n₁, h1⟩, hself1⟩ := T₁.evaluates expr
  obtain ⟨values₂, ⟨n₂, h2⟩, hself2⟩ := T₂.evaluates expr
  exact ⟨values₁, values₂, ⟨n₁, h1⟩, ⟨n₂, h2⟩, hself1, hself2,
    evalExprHelper_within hT (forall_mem_nil _) (h1 n₁ le_rfl) (h2 n₂ le_rfl)⟩

/-- A symbol that stands for itself. -/
def selfTable : DocumentedTable := .ofDefines [(lit "A", ⟨none, some (lit "A")⟩)] (by decide)

/-- Two symbols that stand for each other, one of them with a parameter. -/
def mutualTable : DocumentedTable :=
  .ofDefines [(lit "A", ⟨none, some (lit "A")⟩), (lit "A", ⟨none, some (lit "B(A)")⟩),
    (lit "B", ⟨some [lit "x"], some (lit "A x")⟩)] (by decide)

theorem selfTable_le_mutualTable : selfTable ≤ mutualTable := by
  intro x df hdf
  have hmem := SymbolTable.mem_ofDefines.mp hdf
  exact SymbolTable.mem_ofDefines.mpr (mem_of_mem_head? (mem_singleton.mp hmem ▸ rfl))

theorem evalExpression_mono_selfTable : selfTable ≤ mutualTable ∧
    ∃ values₁ values₂, Evaluates selfTable.definitions (lit "B(A)") values₁ ∧
      Evaluates mutualTable.definitions (lit "B(A)") values₂ ∧ lit "B(A)" ∈ values₁ ∧
      lit "B(A)" ∈ values₂ ∧ values₁ ⊆ values₂ :=
  ⟨selfTable_le_mutualTable,
    evalExpression_mono selfTable mutualTable selfTable_le_mutualTable (lit "B(A)")⟩

end Distcc.IncludeServer
