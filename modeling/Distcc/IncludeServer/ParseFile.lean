import Distcc.IncludeServer.MacroEval

/-!
# The parser of files

`ParseFile.Parse` looks for the words `include`, `define` and `import` in a file, takes the
lines they stand in that are directives, and reads each of them with a regular expression
(`directives`, `readDirective`). It returns what
is included, and enters what is defined in the symbol table
(`parse`).

A definition that was read once is read again when it is entered, by the expression for its
left-hand side alone. Both agree: what the first one took for the left-hand side the second
one matches as a whole (`isLhs_of_readDirective`, `macroDef_of_isLhs`).
-/

namespace Distcc.IncludeServer

open CString Regex List

/-! ### The regular expressions -/

/-- The groups that have names. -/
inductive Group where
  | directive | symbol | args | include | quote | angle | expr | define | lhs | rhs
deriving DecidableEq

/-- `[ \t]*` -/
def blanks : Regex UInt8 Group := many (.char fun b => b = 32 ∨ b = 9)

/-- `\s*` -/
def spaces : Regex UInt8 Group := many (.char isSpace)

/-- `RE_INCLUDE_DEFINE` -/
def reIncludeDefine : Regex UInt8 Group :=
  alts [text (lit "include"), text (lit "define"), text (lit "import")]

/-- A backslash at the end of a line. -/
def backslashNewline : CString := [92, 10]

/-- `((?!\\\n).)*` -/
def lineRest : Regex UInt8 Group := many (.seq (notAhead backslashNewline) dot)

/-- `POUND_SIGN_RE` -/
def poundSignRe : Regex UInt8 Group :=
  seqs [lineStart, blanks, opt (text (lit "*/")), blanks,
    many (seqs [text (lit "/*"), many dot, text (lit "*/")]), blanks,
    .group .directive (seqs [text (lit "#"), blanks,
      alts [text (lit "define"), text (lit "include_next"), text (lit "include"),
        text (lit "import")], boundary,
      lineRest, many (.seq (text backslashNewline) lineRest)])]

/-- Neither a parenthesis nor a comma. -/
def notCommaOrParens (b : UInt8) : Bool := b ≠ 40 ∧ b ≠ 41 ∧ b ≠ 44

/-- `NOT_COMMA_OR_PARENS`, any number of times. -/
def argText : Regex UInt8 Group := many (.char notCommaOrParens)

/-- The parameters between the parentheses, and what separates them. -/
def argTexts : Regex UInt8 Group := .seq argText (many (.seq (text (lit ",")) argText))

/-- The parameters of a macro, with the parentheses. -/
def parameters : Regex UInt8 Group :=
  seqs [spaces, text (lit "("), spaces, .group .args argTexts, text (lit ")")]

/-- `MACRO_EXPR` -/
def macroExpr : Regex UInt8 Group :=
  .seq (.group .symbol (plus (.char isWord))) (opt parameters)

/-- The bytes of the names of included files. -/
def isPathByte (b : UInt8) : Bool := isWord b ∨ b ∈ lit "_/.,+-"

/-- What a directive includes. -/
def includeRe : Regex UInt8 Group :=
  seqs [.group .include
      (alts [text (lit "include_next"), text (lit "include"), text (lit "import")]),
    spaces,
    alts [seqs [text (lit "\""), .group .quote (many (.char isPathByte)), text (lit "\"")],
      seqs [text (lit "<"), .group .angle (many (.char isPathByte)), text (lit ">")],
      .group .expr (few dot)]]

/-- What a directive defines. -/
def defineRe : Regex UInt8 Group :=
  .group .define (seqs [text (lit "define"), plus (.char isSpace), .group .lhs macroExpr,
    spaces, .group .rhs (few dot)])

/-- What may stand behind a directive. -/
def trailer : Regex UInt8 Group :=
  seqs [spaces, opt (.seq (.alt (text (lit "/*")) (text (lit "//"))) (many dot)), textEnd]

/-- `DIRECTIVE_RE` -/
def directiveRe : Regex UInt8 Group :=
  seqs [textStart, blanks, text (lit "#"), blanks, .alt includeRe defineRe, trailer]

/-- `BACKSLASH_RE` -/
def backslashRe : Regex UInt8 Group := text backslashNewline

/-- `PAIRED_COMMENT_RE` -/
def pairedCommentRe : Regex UInt8 Group :=
  seqs [text (lit "/*"), few dot, text (lit "*/")]

/-! ### Definitions -/

/-- The text of a group, if it is not empty. -/
def caught (m : Cursor UInt8 Group) (g : Group) : Option CString :=
  (m.groups g).filter fun text => text ≠ []

/-- `InsertMacroDefInTable`, up to the insertion: the symbol that a definition is for, and
what it stands for. -/
def macroDef (lhs : CString) (rhs : Option CString) : Except PyExc (CString × MacroDef) :=
  match macroExpr.matchStart lhs with
  | none => .error .attributeError
  | some m =>
    if m.rest ≠ [] then
      .error (.notCoveredError (lit "Unexpected macro definition with LHS: '" ++ lhs ++ lit "'."))
    else
      match m.groups .args with
      | some args => .ok ((m.groups .symbol).getD [], ⟨some (args.splitOn 44), rhs⟩)
      | none =>
        if m.groups .symbol = some lhs then .ok (lhs, ⟨none, rhs⟩) else .error .assertionError

section Lhs

variable {c c' : Cursor UInt8 Group} {sym ws w v : CString}

/-- No parenthesis. -/
def NoParens (w : CString) : Prop := ∀ b ∈ w, b ≠ 40 ∧ b ≠ 41

/-- What `notCommaOrParens` stops at, where there is no parenthesis. -/
theorem dropWhile_notCommaOrParens (hw : NoParens w) :
    w.dropWhile notCommaOrParens = [] ∨ ∃ t, w.dropWhile notCommaOrParens = 44 :: t := by
  cases ht : w.dropWhile notCommaOrParens with
  | nil => exact .inl rfl
  | cons b t =>
    have hb : b ∈ w := (dropWhile_suffix _).subset (ht ▸ mem_cons_self)
    have hhead := head_dropWhile_not notCommaOrParens (l := w) (by simp [ht])
    simp only [ht, head_cons, notCommaOrParens, ne_eq, (hw b hb).1, (hw b hb).2] at hhead
    exact .inr ⟨t, by rw [show b = 44 by simpa using hhead]⟩

/-- One text goes to the next comma, or to the parenthesis. -/
theorem first_argText (hw : NoParens w) (hc : c.rest = w ++ 41 :: v) :
    first argText c = some (c.past (w.takeWhile notCommaOrParens)
      (w.dropWhile notCommaOrParens ++ 41 :: v)) := by
  refine first_many ?_ (fun b hb => mem_takeWhile_imp hb) fun b hb => ?_
  · rw [← append_assoc, takeWhile_append_dropWhile, hc]
  · rcases dropWhile_notCommaOrParens hw with ht | ⟨t, ht⟩ <;> rw [ht] at hb
    · obtain rfl : 41 = b := by simpa using hb
      rfl
    · obtain rfl : 44 = b := by simpa using hb
      rfl

/-- Further texts, from comma to comma. -/
theorem first_moreArgs (hw : NoParens w) (hcomma : w = [] ∨ ∃ t, w = 44 :: t)
    (hc : c.rest = w ++ 41 :: v) :
    first (many (.seq (text (lit ",")) argText)) c = some (c.past w (41 :: v)) := by
  induction hn : w.length using Nat.strongRecOn generalizing c w with
  | ind n ih =>
    rcases hcomma with rfl | ⟨t, rfl⟩
    · have hnil : run (.seq (text (lit ",")) argText) c = [] := by
        refine run_seq_eq_nil fun c₁ hc1 => ?_
        rw [run_text_eq_nil] at hc1
        · cases hc1
        · rw [hc]
          simp [lit]
      rw [first, many, run_star_eq_self hnil, Cursor.past_nil (v := 41 :: v) hc]
      rfl
    · have ht : NoParens t := fun b hb => hw b (mem_cons_of_mem _ hb)
      have hstep := first_seq (first_text (u := lit ",") (v := t ++ 41 :: v) hc)
        (first_argText ht rfl)
      have hlen := length_dropWhile_le notCommaOrParens t
      refine first_many_cons hstep ?_ ?_
      · rw [hc]
        simp only [Cursor.past_rest, length_append, length_cons]
        omega
      · have hdrop : NoParens (t.dropWhile notCommaOrParens) :=
          fun b hb => ht b ((dropWhile_suffix _).subset hb)
        have hlt : (t.dropWhile notCommaOrParens).length < n := by
          rw [← hn, length_cons]
          omega
        rw [ih _ hlt hdrop (dropWhile_notCommaOrParens ht) rfl rfl, Cursor.past_past,
          Cursor.past_past, takeWhile_append_dropWhile]
        rfl

/-- **The parameters are all that stands between the parentheses.** -/
theorem first_argTexts (hw : NoParens w) (hc : c.rest = w ++ 41 :: v) :
    first argTexts c = some (c.past w (41 :: v)) := by
  have hdrop : NoParens (w.dropWhile notCommaOrParens) :=
    fun b hb => hw b ((dropWhile_suffix _).subset hb)
  refine (first_seq (first_argText hw hc)
    (first_moreArgs hdrop (dropWhile_notCommaOrParens hw) rfl)).trans ?_
  rw [Cursor.past_past, takeWhile_append_dropWhile]

/-- A greedy `\s*` takes all white space. -/
theorem first_spaces (hc : c.rest = w ++ v) (hw : ∀ b ∈ w, isSpace b = true)
    (hv : ∀ b ∈ v.head?, isSpace b = false) : first spaces c = some (c.past w v) :=
  first_many hc hw hv

/-- The parameters of a macro. White space in front of the first one does not belong to
them. -/
theorem first_parameters (hws : ∀ b ∈ ws, isSpace b = true) (hw : NoParens w)
    (hc : c.rest = ws ++ 40 :: (w ++ 41 :: v)) :
    ∃ c', first parameters c = some c' ∧ c'.rest = v ∧
      c'.groups = Function.update c.groups .args (some (w.dropWhile isSpace)) := by
  have hopen : first spaces c = some (c.past ws (40 :: (w ++ 41 :: v))) := by
    refine first_spaces hc hws fun b hb => ?_
    obtain rfl : 40 = b := by simpa using hb
    rfl
  have hparen := first_text (c := c.past ws (40 :: (w ++ 41 :: v))) (u := lit "(")
    (v := w ++ 41 :: v) rfl
  have hsplit : w ++ 41 :: v = w.takeWhile isSpace ++ (w.dropWhile isSpace ++ 41 :: v) := by
    rw [← append_assoc, takeWhile_append_dropWhile]
  have hblank := first_spaces
    (c := (c.past ws (40 :: (w ++ 41 :: v))).past (lit "(") (w ++ 41 :: v))
    hsplit (fun b hb => mem_takeWhile_imp hb) fun b hb => by
      cases hd : w.dropWhile isSpace with
      | nil =>
        obtain rfl : 41 = b := by simpa [hd] using hb
        rfl
      | cons a t =>
        obtain rfl : a = b := by simpa [hd] using hb
        have hhead := head_dropWhile_not isSpace (l := w) (by simp [hd])
        simpa [hd] using hhead
  have hdrop : NoParens (w.dropWhile isSpace) :=
    fun b hb => hw b ((dropWhile_suffix _).subset hb)
  have hargs := first_group (g := Group.args) (first_argTexts hdrop
    (Cursor.past_rest ((c.past ws (40 :: (w ++ 41 :: v))).past (lit "(") (w ++ 41 :: v))
      (w.takeWhile isSpace) (w.dropWhile isSpace ++ 41 :: v))) rfl
  refine ⟨_, first_seq hopen (first_seq hparen (first_seq hblank (first_seq hargs
    (first_text (u := lit ")") rfl)))), rfl, rfl⟩

/-- **A macro with parameters.** -/
theorem first_macroExpr_call (hsym : IsSymbol sym) (hws : ∀ b ∈ ws, isSpace b = true)
    (hw : NoParens w) (hc : c.rest = sym ++ (ws ++ 40 :: (w ++ 41 :: v))) :
    ∃ c', first macroExpr c = some c' ∧ c'.rest = v ∧
      c'.groups = Function.update (Function.update c.groups .symbol (some sym)) .args
        (some (w.dropWhile isSpace)) := by
  have hnext : ∀ b ∈ (ws ++ 40 :: (w ++ 41 :: v)).head?, isWord b = false := by
    intro b hb
    cases ws with
    | nil =>
      obtain rfl : 40 = b := by simpa using hb
      rfl
    | cons a ws =>
      obtain rfl : a = b := by simpa using hb
      exact isWord_of_isSpace a (hws a mem_cons_self)
  have hsymbol := first_group (g := Group.symbol) (u := sym)
    (first_plus hc hsym.ne_nil hsym.word hnext) hc
  obtain ⟨c', hfirst, hrest, hgroups⟩ := first_parameters
    (c := { c.past sym (ws ++ 40 :: (w ++ 41 :: v)) with
      groups := Function.update c.groups Group.symbol (some sym) }) hws hw rfl
  exact ⟨c', first_seq hsymbol (first_alt_left hfirst), hrest, hgroups⟩

/-- **A macro without parameters**, and nothing behind it. -/
theorem first_macroExpr_symbol (hsym : IsSymbol sym) (hc : c.rest = sym) :
    ∃ c', first macroExpr c = some c' ∧ c'.rest = [] ∧
      c'.groups = Function.update c.groups .symbol (some sym) := by
  have hc' : c.rest = sym ++ [] := hc.trans (append_nil sym).symm
  have hsymbol := first_group (g := Group.symbol) (u := sym)
    (first_plus hc' hsym.ne_nil hsym.word fun b hb => by cases hb) hc'
  refine ⟨_, first_seq hsymbol ((first_alt_right ?_).trans rfl), rfl, rfl⟩
  refine run_seq_eq_nil fun c₁ hc1 => run_seq_eq_nil fun c₂ hc2 => ?_
  obtain ⟨u, -, hu⟩ := consumed_of_mem_run (over_true _) hc1
  have hnil : c₁.rest = [] := (append_eq_nil_iff.mp hu.symm).2
  rw [run_text_eq_nil] at hc2
  · cases hc2
  · rw [hnil]
    simp [lit]

/-- What can stand on the left-hand side: a word, or a word with parentheses behind it. -/
def IsLhs (lhs : CString) : Prop :=
  ∃ sym, IsSymbol sym ∧ (lhs = sym ∨ ∃ ws w, (∀ b ∈ ws, isSpace b = true) ∧ NoParens w ∧
    lhs = sym ++ (ws ++ 40 :: (w ++ [41])))

theorem noParens_of_isSpace (b : UInt8) : isSpace b = true → b ≠ 40 ∧ b ≠ 41 :=
  forall_byte (P := fun b => isSpace b = true → b ≠ 40 ∧ b ≠ 41) (by decide +kernel) b

theorem over_argTexts : Over (fun b => b ≠ 40 ∧ b ≠ 41) (.group Group.args argTexts) := by
  have htext : Over (fun b => b ≠ 40 ∧ b ≠ 41) argText := by
    intro b hb
    have hb' : b ≠ 40 ∧ b ≠ 41 ∧ b ≠ 44 := by simpa [notCommaOrParens] using hb
    exact ⟨hb'.1, hb'.2.1⟩
  refine ⟨htext, ⟨?_, trivial⟩, htext⟩
  intro b hb
  rw [show b = 44 from of_decide_eq_true hb]
  decide

/-- **What the expression for a left-hand side matches**, anywhere. -/
theorem isLhs_of_mem_run {lhs : CString} (h : c' ∈ run macroExpr c)
    (hlhs : c.rest = lhs ++ c'.rest) : IsLhs lhs := by
  obtain ⟨c₁, h1, h2⟩ := mem_run_seq.mp h
  obtain ⟨c₀, h0, sym, hsym, rfl⟩ := mem_run_group h1
  -- the word
  have hword : IsSymbol sym := by
    obtain ⟨c₂, h3, h4⟩ := mem_run_seq.mp h0
    obtain ⟨b, t, hb, hrest, rfl⟩ := mem_run_char.mp h3
    obtain ⟨u, hu, hc2⟩ := consumed_of_mem_run (P := fun b => isWord b = true)
      (show Over _ (many (.char isWord)) from fun _ h => h) h4
    have hcons : sym ++ c₀.rest = (b :: u) ++ c₀.rest := by
      rw [← hsym, hrest]
      exact congrArg (b :: ·) hc2
    rw [append_cancel_right hcons]
    exact ⟨cons_ne_nil b u, forall_mem_cons.mpr ⟨hb, hu⟩⟩
  refine ⟨sym, hword, ?_⟩
  rcases mem_run_alt.mp h2 with hpar | hempty
  · -- the parentheses
    right
    obtain ⟨d₁, hd1, hpar⟩ := mem_run_seq.mp hpar
    obtain ⟨d₂, hd2, hpar⟩ := mem_run_seq.mp hpar
    obtain ⟨d₃, hd3, hpar⟩ := mem_run_seq.mp hpar
    obtain ⟨d₄, hd4, hd5⟩ := mem_run_seq.mp hpar
    obtain ⟨ws, hws, hr1⟩ := consumed_of_mem_run (P := fun b => isSpace b = true)
      (show Over _ spaces from fun _ h => h) hd1
    obtain ⟨ws', hws', hr3⟩ := consumed_of_mem_run (P := fun b => isSpace b = true)
      (show Over _ spaces from fun _ h => h) hd3
    obtain ⟨w, hw, hr4⟩ := consumed_of_mem_run over_argTexts hd4
    refine ⟨ws, ws' ++ w, hws, ?_, ?_⟩
    · intro b hb
      rcases mem_append.mp hb with hb | hb
      · exact noParens_of_isSpace b (hws' b hb)
      · exact hw b hb
    · have hr2 := rest_of_mem_run_text hd2
      have hr5 := rest_of_mem_run_text hd5
      have hall : lhs ++ c'.rest = sym ++ (ws ++ 40 :: (ws' ++ w ++ [41])) ++ c'.rest := by
        rw [← hlhs, hsym]
        change sym ++ c₀.rest = _
        change c₀.rest = _ at hr1
        rw [hr1, hr2, hr3, hr4, hr5]
        simp [lit]
      exact append_cancel_right hall
  · left
    obtain rfl := mem_singleton.mp hempty
    exact append_cancel_right (hlhs.symm.trans hsym)

/-- **A left-hand side is matched as a whole.** -/
theorem macroDef_of_isLhs {lhs : CString} (h : IsLhs lhs) (rhs : Option CString) :
    ∃ sym params, macroDef lhs rhs = .ok (sym, ⟨params, rhs⟩) ∧ IsSymbol sym ∧
      params ≠ some [] := by
  obtain ⟨sym, hsym, rfl | ⟨ws, w, hws, hw, rfl⟩⟩ := h
  · obtain ⟨m, hm, hrest, hgroups⟩ := first_macroExpr_symbol (c := .start none lhs) hsym rfl
    refine ⟨lhs, none, ?_, hsym, nofun⟩
    rw [macroDef, matchStart, hm]
    simp [hrest, hgroups, Cursor.start]
  · obtain ⟨m, hm, hrest, hgroups⟩ := first_macroExpr_call (v := [])
      (c := .start none (sym ++ (ws ++ 40 :: (w ++ [41])))) hsym hws hw rfl
    refine ⟨sym, some ((w.dropWhile isSpace).splitOn 44), ?_, hsym, ?_⟩
    · rw [macroDef, matchStart, hm]
      simp [hrest, hgroups]
    · intro hnil
      exact splitOn_ne_nil _ _ (Option.some.inj hnil)

end Lhs

/-! ### Directives -/

/-- What is to be included. -/
inductive Operand where
  | quote (path : CString)
  | angle (path : CString)
  | expr (text : CString)
  | missing
deriving DecidableEq

/-- A directive that was read. -/
inductive Directive where
  /-- `#include` or `#import`, or `#include_next`. -/
  | include (next : Bool) (operand : Operand)
  | define (lhs : CString) (rhs : Option CString)
deriving DecidableEq

/-- What an `#include` is followed by. -/
def operand (m : Cursor UInt8 Group) : Operand :=
  match caught m .quote, caught m .angle, caught m .expr with
  | some path, _, _ => .quote path
  | none, some path, _ => .angle path
  | none, none, some text => .expr text
  | none, none, none => .missing

/-- The line of a directive, read by `DIRECTIVE_RE` once line ends after a backslash and
comments are removed. -/
def readDirective (line : CString) : Option Directive :=
  match directiveRe.matchStart
      (pairedCommentRe.sub (fun _ => []) (backslashRe.sub (fun _ => []) line)) with
  | none => none
  | some m =>
    match m.groups .include with
    | some kind => some (.include (kind = lit "include_next") (operand m))
    | none => some (.define ((m.groups .lhs).getD []) (caught m .rhs))

/-- The macro that a directive defines. -/
def definesOf : Directive → List (CString × MacroDef)
  | .define lhs rhs => (macroDef lhs rhs).toOption.toList
  | _ => []

/-- **What `DIRECTIVE_RE` takes for a left-hand side** is one. -/
theorem isLhs_of_readDirective {line lhs : CString} {rhs : Option CString}
    (h : readDirective line = some (.define lhs rhs)) : IsLhs lhs := by
  unfold readDirective at h
  split at h
  · cases h
  · case h_2 m hm =>
    have hrun := mem_of_mem_head? hm
    obtain ⟨c₁, -, hrun⟩ := mem_run_seq.mp hrun
    obtain ⟨c₂, -, hrun⟩ := mem_run_seq.mp hrun
    obtain ⟨c₃, -, hrun⟩ := mem_run_seq.mp hrun
    obtain ⟨c₄, -, hrun⟩ := mem_run_seq.mp hrun
    obtain ⟨d, hd, htrailer⟩ := mem_run_seq.mp hrun
    rcases mem_run_alt.mp hd with hinclude | hdefine
    · -- an include would have been caught by its group
      obtain ⟨e₁, he1, he2⟩ := mem_run_seq.mp hinclude
      obtain ⟨e, -, kind, -, rfl⟩ := mem_run_group he1
      have hkind : m.groups .include = some kind :=
        (groups_of_mem_run rfl htrailer).trans ((groups_of_mem_run rfl he2).trans
          (Function.update_self Group.include (some kind) e.groups))
      rw [hkind] at h
      cases h
    · obtain ⟨d₀, hd0, u, -, rfl⟩ := mem_run_group hdefine
      obtain ⟨e₁, -, hrun⟩ := mem_run_seq.mp hd0
      obtain ⟨e₂, -, hrun⟩ := mem_run_seq.mp hrun
      obtain ⟨e₃, he3, hrhs⟩ := mem_run_seq.mp hrun
      obtain ⟨e, he, l, hl, rfl⟩ := mem_run_group he3
      have hlhs : m.groups .lhs = some l := by
        refine (groups_of_mem_run rfl htrailer).trans ?_
        show Function.update d₀.groups .define (some u) .lhs = some l
        rw [Function.update_of_ne (by decide)]
        exact (groups_of_mem_run rfl hrhs).trans (Function.update_self Group.lhs (some l) e.groups)
      split at h
      · cases h
      · rw [hlhs] at h
        obtain ⟨rfl, -⟩ := Directive.define.inj (Option.some.inj h)
        exact isLhs_of_mem_run he hl

theorem IsLhs.ne_nil {lhs : CString} (h : IsLhs lhs) : lhs ≠ [] := by
  obtain ⟨sym, hsym, rfl | ⟨ws, w, -, -, rfl⟩⟩ := h
  · exact hsym.ne_nil
  · exact append_ne_nil_of_left_ne_nil hsym.ne_nil _

/-- What is left of a path without `./` in front. -/
def stripCurrent : CString → CString
  | 46 :: 47 :: path => stripCurrent path
  | path => path

/-- `RelpathMapToIndex.Index`, with the option to ignore absolute paths. -/
def includepathMapIndex (ignoreAbsolute : Bool) (relpath : CString) : Except PyExc CString :=
  if relpath.head? = some 47 ∧ ignoreAbsolute = false then
    .error (.notCoveredError (lit "Filepath must be relative but isn't: '" ++ relpath ++
      lit "'. Consider setting INCLUDE_SERVER_ARGS='--unsafe_absolute_includes'."))
  else .ok (stripCurrent relpath)

/-- `NotCoveredError`, with the name of the file. -/
def decorate (filepath : CString) : PyExc → PyExc
  | .notCoveredError message =>
    if filepath = [] then .notCoveredError message
    else .notCoveredError (lit "File: '" ++ filepath ++ lit "': " ++ message)
  | e => e

/-- What was found in a file so far. -/
structure Parsing where
  /-- The macros, in the order in which they are defined. -/
  defines : List (CString × MacroDef) := []
  /-- The includes. -/
  includes : Includes := ⟨[], [], [], []⟩

/-- `rstrip` -/
def rstrip (s : CString) : CString := (s.reverse.dropWhile isSpace).reverse

/-- What `_ParseFine` does about a directive. A computed `include_next` is ignored, since the
exception that is made for it is not raised. Assertions are checked: Python is taken to run
without `-O`. -/
def actOn (ignoreAbsolute : Bool) (st : Parsing) : Directive → Except PyExc Parsing
  | .include false (.quote path) => do
    let fp ← includepathMapIndex ignoreAbsolute path
    pure { st with includes := { st.includes with quote := st.includes.quote ++ [fp] } }
  | .include false (.angle path) => do
    let fp ← includepathMapIndex ignoreAbsolute path
    pure { st with includes := { st.includes with angle := st.includes.angle ++ [fp] } }
  | .include false (.expr text) =>
    .ok { st with includes := { st.includes with expr := st.includes.expr ++ [rstrip text] } }
  | .include false .missing => .error .assertionError
  | .include true (.quote path) => do
    let fp ← includepathMapIndex ignoreAbsolute path
    pure { st with includes := { st.includes with next := st.includes.next ++ [fp] } }
  | .include true (.angle path) => do
    let fp ← includepathMapIndex ignoreAbsolute path
    pure { st with includes := { st.includes with next := st.includes.next ++ [fp] } }
  | .include true (.expr _) => .ok st
  | .include true .missing => .error .assertionError
  | .define lhs rhs =>
    if lhs = [] then .error (.notCoveredError (lit "Unexpected macro definition with no LHS."))
    else do
      let df ← macroDef lhs rhs
      pure { st with defines := st.defines ++ [df] }

/-- `_ParseFine`. -/
def parseFine (ignoreAbsolute : Bool) (filepath line : CString) (st : Parsing) :
    Except PyExc Parsing :=
  match readDirective line with
  | none => .ok st
  | some d =>
    match actOn ignoreAbsolute st d with
    | .ok st => .ok st
    | .error e => .error (decorate filepath e)

/-! ### Files -/

/-- The beginning of the line that ends at `i`, or goes on there: one behind the last newline
before. -/
def lineStartOf (contents : CString) (i : ℕ) : ℕ :=
  i - ((contents.take i).reverse.takeWhile fun b => b ≠ 10).length

/-- The loop of `Parse`, as far as it looks for directives, in so many turns: the lines with
an interesting word in them that are directives. A line is looked at once. -/
def directivesFrom (contents : CString) : ℕ → ℕ → Option ℕ → List CString
  | 0, _, _ => []
  | turns + 1, i, lineStartLast =>
    match reIncludeDefine.search none (contents.drop (i + 1)) with
    | none => []
    | some (before, found, _) =>
      let i := i + 1 + before.length + found.length
      let lineStart := lineStartOf contents i
      if lineStartLast = some lineStart then directivesFrom contents turns i lineStartLast
      else
        match poundSignRe.first
            (.start (contents.take lineStart).getLast? (contents.drop lineStart)) with
        | none => directivesFrom contents turns i (some lineStart)
        | some m =>
          (m.groups .directive).getD [] :: directivesFrom contents turns i (some lineStart)

/-- The lines of a file that are directives. -/
def directives (contents : CString) : List CString :=
  directivesFrom contents (contents.length + 1) 0 none

/-- The directives of a file, one after the other, to the first exception. -/
def parseLines (ignoreAbsolute : Bool) (filepath : CString) : List CString → Parsing → FileParse
  | [], st => ⟨st.defines, .ok st.includes⟩
  | line :: lines, st =>
    match parseFine ignoreAbsolute filepath line st with
    | .ok st => parseLines ignoreAbsolute filepath lines st
    | .error e => ⟨st.defines, .error e⟩

/-- `ParseFile.Parse`. What is done about a directive has no influence on where the next one
is looked for. -/
def parse (ignoreAbsolute : Bool) (filepath contents : CString) : FileParse :=
  parseLines ignoreAbsolute filepath (directives contents) {}

end Distcc.IncludeServer
