import Distcc.Base.Words
import Distcc.IncludeServer.Node
import Mathlib.Data.Finset.Card

/-!
# The values of an expression

A computed include has an expression in place of a name. The include server does not know
which definitions of a macro are in effect, and computes all values that the expression may
have, for any choice among the definitions that it met (`evalExpression`).
A set of strings is modelled by a list, in which a string may stand more than once.

`evalExprHelper` calls itself, for the text after a symbol and for what
the symbol stands for; the number in front of its arguments says how deep the calls may go.
The limit that Python sets to this depth is left out.
For a table with finitely many symbols there always is a result, or an error
(`evalExprHelper_settles`), and there is no error if every definition
has a right-hand side (`evalExprHelper_raises`).
-/

namespace Distcc.IncludeServer

open CString Regex List Prog

/-! ### Strings -/

/-- `SINGLE_POUND_RE` -/
def singlePoundRe : Regex UInt8 Unit :=
  seqs [noBoundary, text (lit "#"), many (.char isSpace),
    .group () (many (.char fun b => !isSpace b))]

/-- `DOUBLE_POUND_RE` -/
def doublePoundRe : Regex UInt8 Unit := text (lit "##")

/-- `SYMBOL_RE` -/
def symbolRe : Regex UInt8 Unit := word

/-- `_PrependToSet`. -/
def prependToSet (expr : CString) (exprSet : List CString) : List CString :=
  exprSet.map fun expr' => expr ++ expr'

/-- `\bx\b` -/
def wholeRe (x : CString) : Regex UInt8 Unit := seqs [boundary, text x, boundary]

/-- `_SubstituteSymbolInString`. -/
def substituteSymbolInString (x y str : CString) : CString := sub (wholeRe x) (fun _ => y) str

/-- The loop of `_ParseArgs`: the depth of the parentheses, whether it is inside quotes, the
argument that is being read and those before it. The test that is to let a backslash keep a
quote from counting compares one byte with two, and it never does. -/
def parseArgsLoop : ℕ → Bool → CString → List CString → CString →
    Option (List CString × CString)
  | _, _, _, _, [] => none
  | openParens, true, arg, args, b :: string =>
    parseArgsLoop openParens (b ≠ 34) (arg ++ [b]) args string
  | openParens, false, arg, args, b :: string =>
    if b = 44 ∧ openParens = 1 then parseArgsLoop openParens false [] (args ++ [arg]) string
    else if b = 40 then parseArgsLoop (openParens + 1) false (arg ++ [b]) args string
    else if b = 41 then
      if openParens = 1 then some (args ++ [arg], string)
      else parseArgsLoop (openParens - 1) false (arg ++ [b]) args string
    else parseArgsLoop openParens (b = 34) (arg ++ [b]) args string

/-- `_ParseArgs`: the arguments at the beginning of a string, and what follows them. -/
def parseArgs : CString → Option (List CString × CString)
  | [] => none
  | b :: string => if b = 40 then parseArgsLoop 1 false [] [] string else none

/-- `_MassageAccordingToPoundSigns`. -/
def massageAccordingToPoundSigns (string : CString) : CString :=
  sub singlePoundRe (fun c => [34] ++ (c.groups ()).getD [] ++ [34])
    (sub doublePoundRe (fun _ => []) string)

/-- The substitution of arguments for parameters, one parameter after the other. -/
def substituteArgs : List CString → List (List CString) → List CString → List CString
  | param :: lhs, arg :: argsExpand, expansions =>
    substituteArgs lhs argsExpand
      (expansions.flatMap fun expansion => arg.map fun a =>
        substituteSymbolInString param a expansion)
  | _, _, expansions => expansions

/-! ### Evaluation -/

/-- What an evaluation gives: the values of an expression, or an exception. -/
abbrev Values := Prog Unit PyExc (List CString)

section Helper

-- the evaluation of an expression, with the symbols that are disabled
variable (eval : CString → List CString → Values)

/-- `_ReEvalRecursivelyForExpansion`. -/
def reEvalRecursivelyForExpansion (before symbol : CString) (disabled : List CString)
    (expansion after : CString) : Values := do
  let afters ← eval after disabled
  let values ← Prog.gather (fun after => eval (expansion ++ after) (symbol :: disabled)) afters
  pure (prependToSet before values)

/-- The expansions of a macro with parameters. A missing right-hand side is nothing that a
substitution can be made in. -/
def callValues (before symbol : CString) (disabled lhs : List CString) (rhs : Option CString)
    (argsList : List CString) (after : CString) : Values := do
  let argsExpand ← Prog.collect (fun arg => eval arg disabled) argsList
  match rhs with
  | none => Prog.fail .typeError
  | some rhs =>
    Prog.gather (fun expansion =>
      reEvalRecursivelyForExpansion eval before symbol disabled
        (massageAccordingToPoundSigns expansion) after) (substituteArgs lhs argsExpand [rhs])

/-- The expansions of a symbol. That a definition without parameters has a right-hand side is
an assertion, and Python is taken to run without `-O`. -/
def macroValues (before symbol rest : CString) (disabled : List CString) : MacroDef → Values
  | ⟨none, some rhs⟩ => reEvalRecursivelyForExpansion eval before symbol disabled rhs rest
  | ⟨none, none⟩ => Prog.fail .assertionError
  | ⟨some lhs, rhs⟩ =>
    match parseArgs rest with
    | none => pure []
    | some (argsList, after) =>
      if lhs.length = argsList.length then
        callValues eval before symbol disabled lhs rhs argsList after
      else pure []

/-- `_EvalMacro`. The symbol may also stay as it is. -/
def evalMacro (before symbol rest : CString) (disabled : List CString) (definition : MacroDef) :
    Values := do
  let unevaluated ← eval rest disabled
  let values ← macroValues eval before symbol rest disabled definition
  pure (prependToSet (before ++ symbol) unevaluated ++ values)

/-- The values of an expression, by its first symbol. -/
def evalSymbol (symbolTable : SymbolTable) (expr before symbol rest : CString)
    (disabled : List CString) : Values :=
  if symbolTable symbol = [] then do
    let values ← eval rest disabled
    pure (prependToSet (before ++ symbol) values)
  else if symbol ∈ disabled then pure [expr]
  else do
    let values ← Prog.gather (evalMacro eval before symbol rest disabled) (symbolTable symbol)
    pure (expr :: values)

/-- The body of `_EvalExprHelper`. -/
def evalBody (symbolTable : SymbolTable) (expr : CString) (disabled : List CString) : Values :=
  match symbolRe.search none expr with
  | none => pure [expr]
  | some (before, symbol, m) => evalSymbol eval symbolTable expr before symbol m.rest disabled

end Helper

/-- `_EvalExprHelper`, with calls no deeper than that. -/
def evalExprHelper (symbolTable : SymbolTable) : ℕ → CString → List CString → Values
  | 0 => fun _ _ => Prog.never
  | depth + 1 => evalBody (evalExprHelper symbolTable depth) symbolTable

/-- `EvalExpression`. -/
def evalExpression (symbolTable : SymbolTable) (depth : ℕ) (expr : CString) : Values :=
  evalExprHelper symbolTable depth expr []

/-! ### What a call does -/

variable {T : SymbolTable} {expr before x rest s after : CString} {disabled values : List CString}
  {n : ℕ} {keys : Finset CString} {defines : List (CString × MacroDef)}

section Body

variable {eval : CString → List CString → Values}

theorem evalBody_wordFree (h : WordFree expr) : evalBody eval T expr disabled = pure [expr] := by
  rw [evalBody, symbolRe, search_word_eq_none h]

theorem evalBody_splits (h : Splits expr before x rest) :
    evalBody eval T expr disabled = evalSymbol eval T expr before x rest disabled := by
  obtain ⟨c, hsearch, rfl⟩ :=
    search_word (γ := Unit) h (rfl : (none : Option UInt8).any isWord = false)
  rw [evalBody, symbolRe, hsearch]

end Body

theorem mem_prependToSet {v : CString} :
    v ∈ prependToSet before values ↔ ∃ w ∈ values, before ++ w = v := mem_map

theorem evalExprHelper_wordFree (h : WordFree expr) :
    evalExprHelper T (n + 1) expr disabled = pure [expr] := evalBody_wordFree h

section

variable (h : Splits expr before x rest)
include h

theorem evalExprHelper_splits : evalExprHelper T (n + 1) expr disabled =
      evalSymbol (evalExprHelper T n) T expr before x rest disabled := evalBody_splits h

/-- **A symbol that is not defined** stays. -/
theorem evalExprHelper_undefined (hx : T x = []) : evalExprHelper T (n + 1) expr disabled = (do
      let values ← evalExprHelper T n rest disabled
      pure (prependToSet (before ++ x) values)) := by
  rw [evalExprHelper_splits h, evalSymbol, if_pos hx]

/-- **A symbol that is disabled** stays, with all that follows it. -/
theorem evalExprHelper_disabled (hx : T x ≠ [])
    (hd : x ∈ disabled) : evalExprHelper T (n + 1) expr disabled = pure [expr] := by
  rw [evalExprHelper_splits h, evalSymbol, if_neg hx, if_pos hd]

/-- **A symbol that is defined** has the values of each of its definitions. -/
theorem evalExprHelper_defined (hx : T x ≠ [])
    (hd : x ∉ disabled) : evalExprHelper T (n + 1) expr disabled = (do
      let values ← Prog.gather (evalMacro (evalExprHelper T n) before x rest disabled) (T x)
      pure (expr :: values)) := by
  rw [evalExprHelper_splits h, evalSymbol, if_neg hx, if_neg hd]

end

/-! ### Tables -/

/-- The table that the definitions make, one after the other. -/
def SymbolTable.ofDefines (defines : List (CString × MacroDef)) : SymbolTable :=
  fun x => (defines.filter fun df => df.1 = x).map Prod.snd

theorem SymbolTable.mem_ofDefines {df : MacroDef} :
    df ∈ ofDefines defines x ↔ (x, df) ∈ defines := by
  rw [ofDefines, mem_map]
  constructor
  · rintro ⟨⟨y, df'⟩, hmem, rfl⟩
    obtain ⟨hdefines, hy⟩ := mem_filter.mp hmem
    obtain rfl : y = x := by simpa using hy
    exact hdefines
  · intro h
    exact ⟨(x, df), mem_filter.mpr ⟨h, decide_eq_true rfl⟩, rfl⟩

/-- The symbols of a table. -/
theorem SymbolTable.keys_ofDefines (x : CString)
    (h : ofDefines defines x ≠ []) : x ∈ (defines.map Prod.fst).toFinset := by
  obtain ⟨df, hdf⟩ := exists_mem_of_ne_nil _ h
  exact mem_toFinset.mpr (mem_map.mpr ⟨_, mem_ofDefines.mp hdf, rfl⟩)

/-! ### Results and the depth of calls -/

section Below

variable {eval eval' : CString → List CString → Values}
  (heval : ∀ e d, (eval e d).Below (eval' e d))
include heval

theorem reEvalRecursivelyForExpansion_below (expansion after : CString) :
    (reEvalRecursivelyForExpansion eval before x disabled expansion after).Below
      (reEvalRecursivelyForExpansion eval' before x disabled expansion after) :=
  (heval _ _).bind fun _ => (Prog.Below.gather (fun _ => heval _ _) _).bind_left

theorem callValues_below (lhs : List CString) (rhs : Option CString) (argsList : List CString)
    (after : CString) :
    (callValues eval before x disabled lhs rhs argsList after).Below
      (callValues eval' before x disabled lhs rhs argsList after) := by
  refine (Prog.Below.collect (fun _ => heval _ _) _).bind fun argsExpand => ?_
  cases rhs with
  | none => exact .refl _
  | some rhs =>
    exact Prog.Below.gather (fun _ => reEvalRecursivelyForExpansion_below heval _ _) _

theorem macroValues_below (df : MacroDef) :
    (macroValues eval before x rest disabled df).Below
      (macroValues eval' before x rest disabled df) := by
  unfold macroValues
  split
  · exact reEvalRecursivelyForExpansion_below heval _ _
  · exact .refl _
  · split
    · exact .refl _
    · split
      · exact callValues_below heval _ _ _ _
      · exact .refl _

theorem evalMacro_below (df : MacroDef) :
    (evalMacro eval before x rest disabled df).Below
      (evalMacro eval' before x rest disabled df) :=
  (heval _ _).bind fun _ => (macroValues_below heval df).bind_left

theorem evalBody_below :
    (evalBody eval T expr disabled).Below (evalBody eval' T expr disabled) := by
  unfold evalBody
  split
  · exact .refl _
  · unfold evalSymbol
    split
    · exact (heval _ _).bind_left
    · split
      · exact .refl _
      · exact (Prog.Below.gather (evalMacro_below heval) _).bind_left

end Below

/-- With deeper calls, the same values. -/
theorem evalExprHelper_rising (expr : CString) (disabled : List CString) :
    Prog.Rising fun n => evalExprHelper T n expr disabled := by
  intro n
  induction n generalizing expr disabled with
  | zero => exact never_below _
  | succ n ih => exact evalBody_below ih

/-! ### There is a result -/

theorem parseArgsLoop_length {k : ℕ} {q : Bool} {arg : CString} {args argsList : List CString}
    (h : parseArgsLoop k q arg args s = some (argsList, after)) :
    after.length < s.length ∧
      ∀ a ∈ argsList, a ∈ args ∨ a.length < arg.length + s.length := by
  -- a byte goes to the argument
  have hgrow : ∀ {b : UInt8} {arg s : CString} {args : List CString},
      (after.length < s.length ∧
        ∀ a ∈ argsList, a ∈ args ∨ a.length < (arg ++ [b]).length + s.length) →
      after.length < (b :: s).length ∧
        ∀ a ∈ argsList, a ∈ args ∨ a.length < arg.length + (b :: s).length := by
    intro b arg s args ⟨hafter, hargs⟩
    refine ⟨Nat.lt_succ_of_lt hafter, fun a ha => (hargs a ha).imp_right fun hlt => ?_⟩
    simp only [length_append, length_cons, length_nil] at hlt ⊢
    omega
  fun_induction parseArgsLoop k q arg args s with
  | case1 => cases h
  | case2 k arg args b s ih => exact hgrow (ih h)
  | case3 k arg args b s _ ih =>
    obtain ⟨hafter, hargs⟩ := ih h
    refine ⟨Nat.lt_succ_of_lt hafter, fun a ha => ?_⟩
    simp only [length_cons]
    rcases hargs a ha with hmem | hlt
    · rcases mem_append.mp hmem with hmem | hmem
      · exact .inl hmem
      · rw [mem_singleton.mp hmem]
        exact .inr (by omega)
    · simp only [length_nil] at hlt
      exact .inr (by omega)
  | case4 k arg args s _ ih => exact hgrow (ih h)
  | case5 arg args s _ _ =>
    obtain ⟨rfl, rfl⟩ := Prod.mk.inj (Option.some.inj h)
    refine ⟨Nat.lt_succ_self _, fun a ha => ?_⟩
    rcases mem_append.mp ha with hmem | hmem
    · exact .inl hmem
    · rw [mem_singleton.mp hmem, length_cons]
      exact .inr (by omega)
  | case6 k arg args s _ _ _ ih => exact hgrow (ih h)
  | case7 k arg args b s _ _ _ ih => exact hgrow (ih h)

/-- Arguments are shorter than the text they are in. -/
theorem parseArgs_length {argsList : List CString} (h : parseArgs s = some (argsList, after)) :
    after.length < s.length ∧ ∀ a ∈ argsList, a.length < s.length := by
  unfold parseArgs at h
  split at h
  · cases h
  · split at h
    · obtain ⟨hafter, hargs⟩ := parseArgsLoop_length h
      refine ⟨Nat.lt_succ_of_lt hafter, fun a ha => ?_⟩
      rcases hargs a ha with hmem | hlt
      · cases hmem
      · simp only [length_nil, length_cons] at hlt ⊢
        omega
    · cases h

section Settling

-- the text after a symbol has values, and so has every text once the symbol is disabled
variable (hless : ∀ e, Prog.Settles fun n => evalExprHelper T n e (x :: disabled))
include hless

theorem reEvalRecursivelyForExpansion_settles {after : CString} (expansion : CString)
    (hafter : Prog.Settles fun n => evalExprHelper T n after disabled) :
    Prog.Settles fun n =>
      reEvalRecursivelyForExpansion (evalExprHelper T n) before x disabled expansion after := by
  have hrise : ∀ (after : CString), Prog.Rising fun n =>
      evalExprHelper T n (expansion ++ after) (x :: disabled) :=
    fun after => evalExprHelper_rising _ _
  refine hafter.bind (evalExprHelper_rising _ _) (fun afters => ?_) fun afters _ _ => ?_
  · exact (Prog.Rising.gather hrise afters).bind fun _ => rising_const _
  · exact .bind_pure (.gather hrise afters) (.gather hrise fun after _ => hless _) _

theorem callValues_settles {lhs argsList : List CString} {rhs : Option CString}
    {after : CString} (hafter : Prog.Settles fun n => evalExprHelper T n after disabled)
    (hargs : ∀ arg ∈ argsList, Prog.Settles fun n => evalExprHelper T n arg disabled) :
    Prog.Settles fun n =>
      callValues (evalExprHelper T n) before x disabled lhs rhs argsList after := by
  have hcollect : Prog.Rising fun n =>
      Prog.collect (fun arg => evalExprHelper T n arg disabled) argsList :=
    fun n => .collect (fun _ => evalExprHelper_rising _ _ n) _
  have hexpand : ∀ expansion, Prog.Rising fun n => reEvalRecursivelyForExpansion
      (evalExprHelper T n) before x disabled (massageAccordingToPoundSigns expansion) after :=
    fun _ n => reEvalRecursivelyForExpansion_below (fun e d => evalExprHelper_rising e d n) _ _
  have hsettles := Prog.Settles.collect (fun _ => evalExprHelper_rising _ _) hargs
  cases rhs with
  | none => exact hsettles.bind hcollect (fun _ => rising_const _) fun _ _ _ => settles_const rfl
  | some rhs =>
    refine hsettles.bind hcollect (fun _ => .gather hexpand _) fun _ _ _ => ?_
    exact .gather hexpand fun _ _ => reEvalRecursivelyForExpansion_settles hless _ hafter

theorem macroValues_settles (df : MacroDef)
    (hsmall : ∀ e, e.length ≤ rest.length →
      Prog.Settles fun n => evalExprHelper T n e disabled) :
    Prog.Settles fun n => macroValues (evalExprHelper T n) before x rest disabled df := by
  unfold macroValues
  split
  · exact reEvalRecursivelyForExpansion_settles hless _ (hsmall rest le_rfl)
  · exact settles_const rfl
  · split
    · exact settles_const rfl
    · case h_2 argsList after hparse =>
      obtain ⟨hafter, hargs⟩ := parseArgs_length hparse
      split
      · exact callValues_settles hless (hsmall after hafter.le) fun arg harg =>
          hsmall arg (hargs arg harg).le
      · exact settles_const rfl

end Settling

/-- One more symbol is disabled. -/
theorem card_sdiff_cons_lt (hx : x ∈ keys) (hd : x ∉ disabled) :
    (keys \ (x :: disabled).toFinset).card < (keys \ disabled.toFinset).card := by
  refine Finset.card_lt_card (Finset.ssubset_iff_of_subset ?_ |>.mpr ⟨x, ?_, ?_⟩)
  · intro y hy
    simp only [toFinset_cons, Finset.mem_sdiff, Finset.mem_insert, not_or] at hy
    exact Finset.mem_sdiff.mpr ⟨hy.1, hy.2.2⟩
  · exact Finset.mem_sdiff.mpr ⟨hx, by simpa using hd⟩
  · simp

/-- **The evaluation comes to an end**: along the calls a symbol is disabled that was not,
or the text gets shorter. -/
theorem evalExprHelper_settles (hkeys : ∀ x, T x ≠ [] → x ∈ keys)
    (expr : CString) (disabled : List CString) :
    Prog.Settles fun n => evalExprHelper T n expr disabled := by
  induction hk : (keys \ disabled.toFinset).card using Nat.strongRecOn
    generalizing expr disabled with
  | ind k ihk =>
  induction hl : expr.length using Nat.strongRecOn generalizing expr with
  | ind l ihl =>
  refine .of_succ ?_
  obtain hfree | ⟨before, x, rest, h⟩ := splits_or_wordFree expr
  · simp only [evalExprHelper_wordFree hfree]
    exact settles_const rfl
  · have hrest : ∀ e, e.length ≤ rest.length →
        Prog.Settles fun n => evalExprHelper T n e disabled :=
      fun e he => ihl e.length (hl ▸ he.trans_lt h.length_rest) e rfl
    by_cases hx : T x = []
    · simp only [evalExprHelper_undefined h hx]
      exact .bind_pure (evalExprHelper_rising _ _) (hrest rest le_rfl) _
    · by_cases hd : x ∈ disabled
      · simp only [evalExprHelper_disabled h hx hd]
        exact settles_const rfl
      · simp only [evalExprHelper_defined h hx hd]
        have hless : ∀ e, Prog.Settles fun n => evalExprHelper T n e (x :: disabled) := by
          refine fun e => ihk _ ?_ e (x :: disabled) rfl
          exact hk ▸ card_sdiff_cons_lt (hkeys x hx) hd
        have hrise : ∀ df, Prog.Rising fun n =>
            evalMacro (evalExprHelper T n) before x rest disabled df :=
          fun df n => evalMacro_below (fun e d => evalExprHelper_rising e d n) df
        refine .bind_pure (.gather hrise _) (.gather hrise fun df _ => ?_) _
        have hvalues : Prog.Rising fun n =>
            macroValues (evalExprHelper T n) before x rest disabled df :=
          fun n => macroValues_below (fun e d => evalExprHelper_rising e d n) df
        refine (hrest rest le_rfl).bind (evalExprHelper_rising _ _) (fun _ => ?_) fun _ _ _ => ?_
        · exact hvalues.bind fun _ => rising_const _
        · exact .bind_pure hvalues (macroValues_settles hless df hrest) _

/-- The values do not depend on how deep the calls may go. -/
theorem evalExpression_unique {m : ℕ} {values' : List CString}
    (h : evalExpression T m expr () = some (.ok values, ()))
    (h' : evalExpression T n expr () = some (.ok values', ())) : values = values' :=
  Except.ok.inj (congrArg Prod.fst ((evalExprHelper_rising expr []).unique h h'))

/-! ### What is among the values -/

/-- **An expression is one of its values.** -/
theorem self_mem_of_evalExprHelper
    (h : evalExprHelper T n expr disabled () = some (.ok values, ())) : expr ∈ values := by
  induction n generalizing expr values with
  | zero => cases h
  | succ n ih =>
    obtain hfree | ⟨before, x, rest, hs⟩ := splits_or_wordFree expr
    · rw [evalExprHelper_wordFree hfree] at h
      obtain ⟨rfl, -⟩ := pure_eq_ok_iff.mp h
      exact mem_singleton_self expr
    · by_cases hx : T x = []
      · rw [evalExprHelper_undefined hs hx] at h
        obtain ⟨ws, hws, rfl⟩ := bind_pure_eq_ok_iff.mp h
        exact mem_prependToSet.mpr ⟨rest, ih hws, hs.eq.symm⟩
      · by_cases hd : x ∈ disabled
        · rw [evalExprHelper_disabled hs hx hd] at h
          obtain ⟨rfl, -⟩ := pure_eq_ok_iff.mp h
          exact mem_singleton_self expr
        · rw [evalExprHelper_defined hs hx hd] at h
          obtain ⟨ws, -, rfl⟩ := bind_pure_eq_ok_iff.mp h
          exact mem_cons_self

/-- **What a definition contributes**: the text after the symbol has values, they follow the
symbol as it is, and the values of the definition are there. -/
theorem evalMacro_of_evalExprHelper (hs : Splits expr before x rest) (hd : x ∉ disabled)
    {df : MacroDef} (hdf : df ∈ T x)
    (h : evalExprHelper T (n + 1) expr disabled () = some (.ok values, ())) :
    ∃ afters ws, evalExprHelper T n rest disabled () = some (.ok afters, ()) ∧
      macroValues (evalExprHelper T n) before x rest disabled df () = some (.ok ws, ()) ∧
      (∀ w ∈ afters, before ++ x ++ w ∈ values) ∧ ∀ w ∈ ws, w ∈ values := by
  rw [evalExprHelper_defined hs (ne_nil_of_mem hdf) hd] at h
  obtain ⟨all, hall, rfl⟩ := bind_pure_eq_ok_iff.mp h
  obtain ⟨us, hus, hmem⟩ := exists_of_gather hall hdf
  obtain ⟨afters, ⟨⟩, hafters, hrest⟩ := bind_eq_ok_iff.mp hus
  obtain ⟨ws, hws, rfl⟩ := bind_pure_eq_ok_iff.mp hrest
  refine ⟨afters, ws, hafters, hws, fun w hw => ?_, fun w hw => ?_⟩
  · exact mem_cons_of_mem _ (hmem _ (mem_append_left _
      (mem_prependToSet.mpr ⟨w, hw, rfl⟩)))
  · exact mem_cons_of_mem _ (hmem _ (mem_append_right _ hw))

/-- **What an expansion contributes**: with each value of the text after it, its own. -/
theorem mem_of_reEvalRecursivelyForExpansion {eval : CString → List CString → Values}
    {expansion after : CString} {afters : List CString}
    (hafters : eval after disabled () = some (.ok afters, ()))
    (h : reEvalRecursivelyForExpansion eval before x disabled expansion after () =
      some (.ok values, ())) {w : CString} (hw : w ∈ afters) :
    ∃ us, eval (expansion ++ w) (x :: disabled) () = some (.ok us, ()) ∧
      ∀ u ∈ us, before ++ u ∈ values := by
  obtain ⟨afters', ⟨⟩, hafters', hrest⟩ := bind_eq_ok_iff.mp h
  obtain ⟨rfl, -⟩ := ok_unique hafters hafters'
  obtain ⟨all, hall, rfl⟩ := bind_pure_eq_ok_iff.mp hrest
  obtain ⟨us, hus, hmem⟩ := exists_of_gather hall hw
  exact ⟨us, hus, fun u hu => mem_prependToSet.mpr ⟨u, hmem u hu, rfl⟩⟩

/-! ### Errors -/

/-- Every definition has a right-hand side. -/
def SymbolTable.Complete (T : SymbolTable) : Prop := ∀ x, ∀ df ∈ T x, df.rhs ≠ none

section Raising

variable {P : PyExc → Prop} {eval : CString → List CString → Values}
  (heval : ∀ e d, (eval e d).Raises P)
include heval

theorem reEvalRecursivelyForExpansion_raises (expansion after : CString) :
    (reEvalRecursivelyForExpansion eval before x disabled expansion after).Raises P :=
  (heval _ _).bind fun _ =>
    (Prog.Raises.gather fun _ _ => heval _ _).bind fun _ => raises_pure _

theorem macroValues_raises {df : MacroDef}
    (hdf : df.rhs = none → P .assertionError ∧ P .typeError) :
    (macroValues eval before x rest disabled df).Raises P := by
  unfold macroValues
  split
  · exact reEvalRecursivelyForExpansion_raises heval _ _
  · exact raises_fail (hdf rfl).1
  · split
    · exact raises_pure _
    · split
      · refine (Prog.Raises.collect fun _ _ => heval _ _).bind fun _ => ?_
        split
        · exact raises_fail (hdf rfl).2
        · exact .gather fun _ _ => reEvalRecursivelyForExpansion_raises heval _ _
      · exact raises_pure _

end Raising

/-- **What is raised**: an assertion or a type error, and only where a definition has no
right-hand side. -/
theorem evalExprHelper_raises (n : ℕ) (expr : CString) (disabled : List CString) :
    (evalExprHelper T n expr disabled).Raises fun e =>
      (e = .assertionError ∨ e = .typeError) ∧ ¬ T.Complete := by
  induction n generalizing expr disabled with
  | zero => exact raises_never
  | succ n ih =>
    change (evalBody (evalExprHelper T n) T expr disabled).Raises _
    unfold evalBody
    split
    · exact raises_pure _
    · unfold evalSymbol
      split
      · exact (ih _ _).bind fun _ => raises_pure _
      · split
        · exact raises_pure _
        · refine (Prog.Raises.gather fun df hdf => ?_).bind fun _ => raises_pure _
          refine (ih _ _).bind fun _ => (macroValues_raises ih fun hrhs => ?_).bind fun _ =>
            raises_pure _
          have hT : ¬ T.Complete := fun hT => hT _ df hdf hrhs
          exact ⟨⟨.inl rfl, hT⟩, .inr rfl, hT⟩

/-- **A complete table gives every expression its values.** -/
theorem evalExpression_returns (hkeys : ∀ x, T x ≠ [] → x ∈ keys)
    (hT : T.Complete) (expr : CString) :
    ∃ n values, evalExpression T n expr () = some (.ok values, ()) := by
  obtain ⟨n, ⟨_ | values, ⟨⟩⟩, hrun⟩ := evalExprHelper_settles hkeys expr []
  · exact absurd hT (evalExprHelper_raises n expr [] hrun).2
  · exact ⟨n, values, hrun⟩

end Distcc.IncludeServer
