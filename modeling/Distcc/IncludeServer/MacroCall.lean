import Distcc.IncludeServer.MacroSubst
import Distcc.IncludeServer.ParseFile

/-!
# Macros with parameters

A line `#define F(p1, …, pn) body` is read by a regular expression, and what stands between the
parentheses is split at the commas (`readDirective_line`,
`definesOf_line`). In a call of the macro the arguments are put in for
what was entered as parameters, one after the other
(`macroValues_call`), and the result is among the values of the call. If
nothing else is defined, it is the only one besides the call itself
(`eq_of_mem_evalExpression`).

When this is the simultaneous substitution is said by `expanded_iff`, for each definition, call
and body (`Fits`). A parameter that is entered with white space is looked for together with it,
so the parameters in the body must be entered without. An argument is put into a text in which
the later parameters are still looked for, so it has to be left alone by them, and by the
treatment of pound signs (`Kept`). A body may get right by accident what is lost on the way: in
`#define F(p ,r,abr) p r`, the call `F(ab,c,ab c)` makes `abr` first and then `ab c`. Where
nothing of that kind can happen (`Apart`), the condition is exact.
-/

namespace Distcc.IncludeServer

open CString Regex Cursor List

/-! ### Definitions -/

/-- White space in a line. -/
def Blank (s : CString) : Prop := ∀ b ∈ s, isSpace b = true ∧ b ≠ 10
deriving Decidable

/-- A parameter, with the white space around it. -/
structure Param where
  /-- What stands in front of it. -/
  before : CString
  /-- The parameter. -/
  name : CString
  /-- What stands behind it. -/
  after : CString
  blank_before : Blank before
  symbol : IsSymbol name
  blank_after : Blank after

/-- The text of a parameter. -/
def Param.text (p : Param) : CString := p.before ++ (p.name ++ p.after)

/-- A definition `#define F(p1, …, pn)`, up to the body. -/
structure Head where
  /-- What stands behind the pound sign. -/
  indent : CString
  /-- What stands behind `define`. -/
  space : CString
  /-- The macro. -/
  symbol : CString
  /-- Its parameters. -/
  params : List Param
  /-- What stands in front of the body. -/
  gap : CString
  indent_blank : ∀ b ∈ indent, b = 32 ∨ b = 9
  blank_space : Blank space
  space_ne_nil : space ≠ []
  isSymbol : IsSymbol symbol
  nodup : (params.map Param.name).Nodup
  blank_gap : Blank gap

/-- A body as it is read: without white space at the ends and without comments. -/
structure IsBody (body : CString) : Prop where
  no_newline : 10 ∉ body
  no_pound : 35 ∉ body
  head : ∀ b ∈ body.head?, isSpace b = false
  last : ∀ b ∈ body.getLast?, isSpace b = false
  no_comment : ¬ [47, 42] <:+: body
  no_line_comment : ¬ [47, 47] <:+: body

/-- What `split(',')` makes of no text at all. -/
def fields : List CString → List CString
  | [] => [[]]
  | t :: ts => t :: ts

namespace Head

variable (h : Head)

/-- What stands between the parentheses. -/
def inner : CString := [44].intercalate (h.params.map Param.text)

/-- The left-hand side. -/
def lhs : CString := h.symbol ++ 40 :: (h.inner ++ [41])

/-- All that stands in front of the body. -/
def start : CString :=
  35 :: (h.indent ++ (lit "define" ++ (h.space ++ (h.symbol ++ 40 :: (h.inner ++ 41 :: h.gap)))))

/-- The line of a definition. -/
def line (body : CString) : CString := h.start ++ body

/-- The names of the parameters. -/
def names : List CString := h.params.map Param.name

/-- The parameters as they are entered: white space around them stays, but for that in front
of the first one. -/
def entered : List Param :=
  match h.params with
  | [] => []
  | p :: ps => { p with before := [], blank_before := forall_mem_nil _ } :: ps

/-- A call with these arguments. -/
def call (args : List CString) : CString := h.symbol ++ 40 :: ([44].intercalate args ++ [41])

end Head

/-- What stands for a parameter in a call: without parentheses, quotes and commas. -/
structure IsArg (arg : CString) : Prop where
  no_quote : 34 ∉ arg
  no_open : 40 ∉ arg
  no_close : 41 ∉ arg
  no_comma : 44 ∉ arg

/-- **The definition expands the call**: the line is read as a definition of the macro, and
with any other definitions that have right-hand sides and do not concern the arguments, the
body with all arguments in place of the parameters is among the values. -/
def Expanded (h : Head) (args : List CString) (body : CString) : Prop :=
  ∃ d df, readDirective (h.line body) = some d ∧ definesOf d = [(h.symbol, df)] ∧
    ∀ defines : List (CString × MacroDef), (h.symbol, df) ∈ defines →
      (∀ e ∈ defines, e = (h.symbol, df) ∨ e.2.rhs ≠ none) →
      (∀ arg ∈ args, ∀ w ∈ words arg, SymbolTable.ofDefines defines w = []) →
      ∃ n values, evalExpression (.ofDefines defines) n (h.call args) () = some (.ok values, ()) ∧
        simultaneous h.names args body ∈ values

/-- There is white space around the parameter. -/
def Param.Padded (p : Param) : Prop := p.before ≠ [] ∨ p.after ≠ []
deriving Decidable

/-- The text has no white space in it. -/
def Spaceless (s : CString) : Prop := ∀ b ∈ s, isSpace b = false
deriving Decidable

/-- The parameters without white space around them replaced by their arguments, one after the
other, wherever they stand as words. -/
def replaceBare : List Param → List CString → CString → CString
  | p :: ps, arg :: args, s =>
    replaceBare ps args (if p.Padded then s else replaceWord p.name arg s)
  | _, _, s => s

/-- **The parameters in the body are found, and their arguments are kept**: a parameter that
occurs in the body has no white space around it, and its argument is the same after the later
parameters in it are replaced and pound signs are treated. Nothing is asked of the other
parameters. -/
def Kept (body : CString) : List Param → List CString → Prop
  | p :: ps, arg :: args =>
    (p.name ∈ words body →
      ¬ p.Padded ∧ dropPounds (replaceBare ps args arg) = arg ∧ Quiet none arg) ∧
      Kept body ps args
  | _, _ => True

/-- **The definition fits the call.** What `Kept` says holds, and a parameter with white space
around it is never found: it does not occur in an argument that may get into the text, or there
is no white space at all. -/
structure Fits (h : Head) (args : List CString) (body : CString) : Prop where
  kept : Kept body h.entered args
  unmatched : (∀ p ∈ h.entered, p.Padded → ∀ q ∈ h.entered.zip args,
      (∃ s ∈ body :: args, q.1.name ∈ words s) → p.name ∉ words q.2) ∨
    ∀ s ∈ body :: args, Spaceless s

/-- **Nothing is right by accident**: the arguments are words, no white space is eaten, a
parameter that cannot be found does not stand for itself, and the expansion is not the call
again. -/
structure Apart (h : Head) (args : List CString) (body : CString) : Prop where
  symbols : ∀ arg ∈ args, IsSymbol arg
  spacing : (∀ p ∈ h.entered, ¬ p.Padded) ∨ Spaceless body
  not_self : ∀ q ∈ h.entered.zip args, q.1.Padded → q.2 ≠ q.1.name
  not_call : simultaneous h.names args body ≠ h.call args

/-! ### The bytes of a definition -/

theorem mem_intercalate {α : Type*} {x b : α} {ts : List (List α)}
    (hb : b ∈ [x].intercalate ts) : b = x ∨ ∃ t ∈ ts, b ∈ t := by
  induction ts with
  | nil => cases hb
  | cons t ts ih =>
    cases ts with
    | nil => exact .inr ⟨t, mem_cons_self, by simpa using hb⟩
    | cons t' ts =>
      rw [intercalate_cons_cons, append_assoc, mem_append, mem_append] at hb
      rcases hb with hb | hb | hb
      · exact .inr ⟨t, mem_cons_self, hb⟩
      · exact .inl (mem_singleton.mp hb)
      · exact (ih hb).imp_right fun ⟨u, hu, hbu⟩ => ⟨u, mem_cons_of_mem _ hu, hbu⟩

/-- The bytes of words and of white space in a line. -/
def Plain (b : UInt8) : Prop := isWord b = true ∨ isSpace b = true ∧ b ≠ 10

theorem IsSymbol.plain {x : CString} (hx : IsSymbol x) : ∀ b ∈ x, Plain b :=
  fun b hb => .inl (hx.word b hb)

theorem Blank.plain {x : CString} (hx : Blank x) : ∀ b ∈ x, Plain b := fun b hb => .inr (hx b hb)

theorem Plain.ne {b : UInt8} (hb : Plain b) (a : UInt8)
    (ha : isWord a = false ∧ (isSpace a = false ∨ a = 10)) : b ≠ a := by
  rintro rfl
  rcases hb with hb | ⟨hb, hten⟩
  · rw [ha.1] at hb
    cases hb
  · rcases ha.2 with ha | ha
    · rw [ha] at hb
      cases hb
    · exact hten ha

theorem Param.plain (p : Param) : ∀ b ∈ p.text, Plain b := by
  intro b hb
  rw [Param.text, mem_append, mem_append] at hb
  rcases hb with hb | hb | hb
  · exact p.blank_before.plain b hb
  · exact IsSymbol.plain p.symbol b hb
  · exact p.blank_after.plain b hb

section Bytes

variable (h : Head)

theorem Head.mem_inner {b : UInt8} (hb : b ∈ h.inner) : b = 44 ∨ Plain b := by
  refine (mem_intercalate hb).imp_right fun ⟨t, ht, hbt⟩ => ?_
  obtain ⟨p, -, rfl⟩ := mem_map.mp ht
  exact p.plain b hbt

theorem Head.inner_noParens : NoParens h.inner := by
  intro b hb
  rcases h.mem_inner hb with rfl | hb
  · decide
  · exact ⟨hb.ne 40 (by decide), hb.ne 41 (by decide)⟩

/-- There is no line end and no slash in front of the body. -/
theorem Head.mem_start {b : UInt8} (hb : b ∈ h.start) : b ≠ 10 ∧ b ≠ 47 := by
  have hplain : Plain b → b ≠ 10 ∧ b ≠ 47 := fun hb => ⟨hb.ne 10 (by decide), hb.ne 47 (by decide)⟩
  simp only [Head.start, mem_cons, mem_append] at hb
  rcases hb with rfl | hb | hb | hb | hb | rfl | hb | rfl | hb
  · decide
  · rcases h.indent_blank b hb with rfl | rfl
    · decide
    · decide
  · exact (by decide : ∀ b ∈ lit "define", b ≠ 10 ∧ b ≠ 47) b hb
  · exact hplain (h.blank_space.plain b hb)
  · exact hplain (IsSymbol.plain h.isSymbol b hb)
  · decide
  · rcases h.mem_inner hb with rfl | hb
    · decide
    · exact hplain hb
  · decide
  · exact hplain (h.blank_gap.plain b hb)

end Bytes

/-! ### Reading a definition -/

section Reading

variable {c : Cursor UInt8 Group} {body u : CString}

/-- Behind a part of the body, there is more than what may stand behind a directive. -/
theorem run_trailer_eq_nil (hbody : IsBody body) (hu : u ≠ []) (hsub : u <:+ body)
    (hc : c.rest = u) : run trailer c = [] := by
  refine eq_nil_iff_forall_not_mem.mpr fun c' hrun => ?_
  obtain ⟨c₁, h1, hrun⟩ := mem_run_seq.mp hrun
  obtain ⟨c₂, h2, hend⟩ := mem_run_seq.mp hrun
  obtain ⟨ws, hws, hr1⟩ := consumed_of_mem_run (P := fun b => isSpace b = true)
    (show Over _ spaces from fun _ h => h) h1
  rw [hc] at hr1
  rcases mem_run_alt.mp h2 with hcomment | hempty
  · -- a comment begins
    obtain ⟨c₃, h3, -⟩ := mem_run_seq.mp hcomment
    have hwithin : ∀ {start : CString}, c₁.rest = start ++ c₃.rest → start <:+: body := by
      intro start hstart
      refine List.IsInfix.trans ⟨ws, c₃.rest, ?_⟩ hsub.isInfix
      rw [hr1, hstart, append_assoc]
    rcases mem_run_alt.mp h3 with h3 | h3
    · exact hbody.no_comment (hwithin (rest_of_mem_run_text h3))
    · exact hbody.no_line_comment (hwithin (rest_of_mem_run_text h3))
  · -- the line ends
    obtain rfl := mem_singleton.mp hempty
    obtain ⟨hat, -⟩ := mem_run_look.mp hend
    have hrest : c₂.rest = [] := by
      have hcases : c₂.rest = [] ∨ c₂.rest = [10] := of_decide_eq_true hat
      refine hcases.resolve_right fun h10 => hbody.no_newline (hsub.subset ?_)
      rw [hr1, h10]
      simp
    rw [hrest, append_nil] at hr1
    have hlast : u.getLast hu ∈ body.getLast? := by
      obtain ⟨t, rfl⟩ := hsub
      rw [getLast?_append_of_ne_nil _ hu, getLast?_eq_getLast_of_ne_nil hu]
      rfl
    have hspace := hbody.last _ hlast
    rw [hws _ (hr1 ▸ getLast_mem hu)] at hspace
    cases hspace

theorem first_trailer (hc : c.rest = []) : first trailer c = some c := by
  have hspaces : first spaces c = some c := first_many_nothing (by rw [hc]; nofun)
  have hcomment : run (.seq (.alt (text (lit "/*")) (text (lit "//"))) (many dot)) c = [] := by
    refine run_seq_eq_nil fun c₁ hc1 => ?_
    rcases mem_run_alt.mp hc1 with h | h
    · have hrest := rest_of_mem_run_text h
      rw [hc] at hrest
      cases hrest
    · have hrest := rest_of_mem_run_text h
      rw [hc] at hrest
      cases hrest
  have hend : first (textEnd : Regex UInt8 Group) c = some c := by
    rw [first, textEnd, run]
    exact congrArg List.head? (if_pos (by simp [hc]))
  refine first_seq hspaces (first_seq ?_ hend)
  rw [first, run_opt_eq_self hcomment]
  rfl

/-- **The body is taken as a whole**, and nothing but the body. -/
theorem firstThen_rhs (hbody : IsBody body) (hc : c.rest = body)
    (k : Cursor UInt8 Group → Cursor UInt8 Group) (hk : ∀ c', (k c').rest = c'.rest) :
    firstThen (.group .rhs (few dot)) (fun c' => run trailer (k c')) c =
      some (k { c.past body [] with groups := Function.update c.groups .rhs (some body) }) := by
  have hdot : ∀ b ∈ body, decide (b ≠ 10) = true := by
    intro b hb
    exact decide_eq_true fun hten => hbody.no_newline (hten ▸ hb)
  have hrest : c.rest = body ++ [] := hc.trans (append_nil body).symm
  rw [firstThen_group]
  refine firstThen_few hrest hdot (fun w b t hw => ?_) ?_
  · refine run_trailer_eq_nil hbody (cons_ne_nil b t) ⟨w, hw.symm⟩ ?_
    rw [hk]
    exact append_nil _
  · rw [Cursor.taken_eq hrest]
    exact first_trailer (hk _)

variable (h : Head)

theorem run_includeRe_eq_nil {v : CString} (hc : c.rest = lit "define" ++ v) :
    run includeRe c = [] := by
  have hno : ∀ c' : Cursor UInt8 Group, ∀ t : CString, t.head? = some 105 →
      c' ∉ run (text t) c := by
    intro c' t ht hrun
    have hrest := rest_of_mem_run_text hrun
    obtain ⟨t, rfl⟩ := head?_eq_some_iff.mp ht
    rw [hc] at hrest
    cases hrest
  refine run_seq_eq_nil fun c₁ hc1 => ?_
  obtain ⟨c₂, hc2, -⟩ := mem_run_group hc1
  rcases mem_run_alt.mp hc2 with hc2 | hc2
  · exact absurd hc2 (hno _ _ rfl)
  · rcases mem_run_alt.mp hc2 with hc2 | hc2
    · exact absurd hc2 (hno _ _ rfl)
    · exact absurd hc2 (hno _ _ rfl)

section

variable (hbody : IsBody body)
include hbody

/-- **What stands behind the pound sign of a definition.** -/
theorem firstThen_define
    (hc : c.rest = lit "define" ++ (h.space ++ (h.symbol ++ ([] ++ 40 :: (h.inner ++
      41 :: (h.gap ++ body)))))) :
    ∃ m, firstThen (.alt includeRe defineRe) (run trailer) c = some m ∧
      m.groups .include = c.groups .include ∧ m.groups .lhs = some h.lhs ∧
      m.groups .rhs = some body := by
  rw [firstThen_alt_right (run_includeRe_eq_nil hc), defineRe, firstThen_group]
  have hsymbol : ∀ b ∈ (h.symbol ++ ([] ++ 40 :: (h.inner ++ 41 :: (h.gap ++ body)))).head?,
      isSpace b = false := by
    intro b hb
    have hb' : b ∈ h.symbol := by
      rw [head?_append_of_ne_nil _ h.isSymbol.ne_nil] at hb
      exact mem_of_mem_head? hb
    exact isSpace_of_isWord (h.isSymbol.word b hb')
  obtain ⟨c', hmacro, hrest, hgroups⟩ := first_macroExpr_call (v := h.gap ++ body)
    (c := (c.past (lit "define") (h.space ++ (h.symbol ++ ([] ++ 40 :: (h.inner ++
      41 :: (h.gap ++ body)))))).past h.space (h.symbol ++ ([] ++ 40 :: (h.inner ++
      41 :: (h.gap ++ body))))) h.isSymbol (forall_mem_nil _) h.inner_noParens rfl
  have hlhs := first_group (g := Group.lhs) (u := h.lhs) hmacro (by simp [hrest, Head.lhs])
  have hgap : first spaces _ = some _ := first_spaces
    (c := { c' with groups := Function.update c'.groups Group.lhs (some h.lhs) }) (w := h.gap)
    (v := body) hrest (fun b hb => (h.blank_gap b hb).1) hbody.head
  refine ⟨_, firstThen_seq_of_first (first_text hc) (firstThen_seq_of_first
    (first_plus rfl h.space_ne_nil (fun b hb => (h.blank_space b hb).1) hsymbol)
    (firstThen_seq_of_first hlhs (firstThen_seq_of_first hgap
      (firstThen_rhs hbody rfl _ fun _ => rfl)))), ?_, ?_, ?_⟩
  · simp [hgroups]
  · simp
  · simp

theorem matchStart_line :
    ∃ m, directiveRe.matchStart (h.line body) = some m ∧ m.groups .include = none ∧
      m.groups .lhs = some h.lhs ∧ m.groups .rhs = some body := by
  have hpound : ∀ b ∈ (h.line body).head?, decide (b = 32 ∨ b = 9) = false := by
    intro b hb
    obtain rfl : 35 = b := Option.some.inj hb
    rfl
  have hdefine : ∀ v : CString, ∀ b ∈ (lit "define" ++ v).head?,
      decide (b = 32 ∨ b = 9) = false := by
    intro v b hb
    obtain rfl : 100 = b := Option.some.inj hb
    rfl
  have hline : h.line body = lit "#" ++ (h.indent ++ (lit "define" ++ (h.space ++ (h.symbol ++
      ([] ++ 40 :: (h.inner ++ 41 :: (h.gap ++ body))))))) := by
    simp [Head.line, Head.start, lit]
  have hindent : ∀ b ∈ h.indent, decide (b = 32 ∨ b = 9) = true :=
    fun b hb => decide_eq_true (h.indent_blank b hb)
  obtain ⟨m, hm, hgroups⟩ := firstThen_define h (c := ((Cursor.start none (h.line body)).past
    (lit "#") (h.indent ++ _)).past h.indent _) hbody rfl
  refine ⟨m, ?_, hgroups⟩
  exact first_seq rfl (first_seq (first_many_nothing hpound) (first_seq
    (first_text hline) (first_seq (first_many rfl hindent (hdefine _)) hm)))

/-- There is nothing to remove from the line. -/
theorem sub_line : pairedCommentRe.sub (fun _ => []) (backslashRe.sub (fun _ => []) (h.line body)) =
      h.line body := by
  have hnone : ∀ (c : Cursor UInt8 Group) (t : CString) (r : Regex UInt8 Group),
      ¬ t <+: c.rest → first (.seq (text t) r) c = none := by
    intro c t r ht
    refine congrArg List.head? (run_seq_eq_nil fun c₁ hc1 => ?_)
    rw [run_text_eq_nil ht] at hc1
    cases hc1
  have hten : 10 ∉ h.line body := by
    intro hmem
    rcases mem_append.mp hmem with hmem | hmem
    · exact (h.mem_start hmem).1 rfl
    · exact hbody.no_newline hmem
  have hbackslash : backslashRe.sub (fun _ => []) (h.line body) = h.line body := by
    refine subFrom_eq_self fun w t ht => congrArg List.head? (run_text_eq_nil fun hpre => hten ?_)
    rw [ht]
    exact mem_append_right _ (hpre.subset (by decide))
  rw [hbackslash]
  refine subFrom_eq_self fun w t ht => hnone _ _ _ fun hpre => hbody.no_comment ?_
  -- a comment would begin in the body
  obtain ⟨t', rfl⟩ := hpre
  rcases append_eq_append_iff.mp ht with ⟨w', hw, hbody'⟩ | ⟨w', hw, ht'⟩
  · exact ⟨w', t', by rw [hbody', append_assoc]; rfl⟩
  · cases w' with
    | nil => exact ⟨[], t', by simpa [lit] using ht'⟩
    | cons b w' =>
      obtain ⟨rfl, -⟩ := List.cons.inj ht'
      exact absurd rfl (h.mem_start (hw ▸ mem_append_right _ mem_cons_self)).2

/-- **A definition is read.** -/
theorem readDirective_line : readDirective (h.line body) =
    some (.define h.lhs (if body = [] then none else some body)) := by
  obtain ⟨m, hm, hinclude, hlhs, hrhs⟩ := matchStart_line h hbody
  rw [readDirective, sub_line h hbody, hm]
  simp only [hinclude, hlhs, caught, hrhs, Option.getD_some]
  split <;> simp_all

end

/-- The parameters are separated, but for the white space around them. -/
theorem splitOn_inner : (h.inner.dropWhile isSpace).splitOn 44 =
    fields (h.entered.map Param.text) := by
  have hcomma : ∀ t ∈ h.entered.map Param.text, 44 ∉ t := by
    intro t ht hmem
    obtain ⟨p, -, rfl⟩ := mem_map.mp ht
    exact (p.plain 44 hmem).ne 44 (by decide) rfl
  rw [Head.inner, Head.entered] at *
  cases hparams : h.params with
  | nil => rfl
  | cons p ps =>
    rw [hparams] at hcomma
    obtain ⟨b, t, hname, hb⟩ := p.symbol.cons
    have hspace := isSpace_of_isWord hb
    have hpull : [44].intercalate ((p :: ps).map Param.text) =
        p.before ++ [44].intercalate ((p.name ++ p.after) :: ps.map Param.text) := by
      cases ps <;> simp [Param.text, intercalate_cons_cons]
    have hhead : ∃ t', [44].intercalate ((p.name ++ p.after) :: ps.map Param.text) = b :: t' := by
      rw [hname]
      cases ps <;> simp [intercalate_cons_cons]
    obtain ⟨t', ht'⟩ := hhead
    rw [hpull, dropWhile_append_of_pos fun a ha => (p.blank_before a ha).1, ht',
      dropWhile_cons_of_neg (by simp [hspace]), ← ht']
    exact splitOn_intercalate 44 hcomma (cons_ne_nil _ _)

/-- **What is entered** for a definition. -/
theorem definesOf_line (rhs : Option CString) : definesOf (.define h.lhs rhs) =
    [(h.symbol, ⟨some (fields (h.entered.map Param.text)), rhs⟩)] := by
  obtain ⟨m, hm, hrest, hgroups⟩ := first_macroExpr_call (v := []) (c := .start none h.lhs)
    h.isSymbol (forall_mem_nil _) h.inner_noParens rfl
  rw [definesOf, macroDef, matchStart, hm]
  simp [hrest, hgroups, splitOn_inner, Except.toOption]

end Reading

/-! ### Reading a call -/

section Call

variable {arg s : CString} {args acc : List CString}

theorem parseArgsLoop_append (harg : IsArg arg) (t : CString) :
    parseArgsLoop 1 false t acc (arg ++ s) = parseArgsLoop 1 false (t ++ arg) acc s := by
  induction arg generalizing t with
  | nil => rw [nil_append, append_nil]
  | cons b arg ih =>
    have hb : ∀ a, a ∉ b :: arg → b ≠ a := fun a ha hba => ha (hba ▸ mem_cons_self)
    have htail : IsArg arg :=
      ⟨fun h => harg.no_quote (mem_cons_of_mem _ h),
        fun h => harg.no_open (mem_cons_of_mem _ h),
        fun h => harg.no_close (mem_cons_of_mem _ h),
        fun h => harg.no_comma (mem_cons_of_mem _ h)⟩
    rw [cons_append, parseArgsLoop, if_neg fun h => hb 44 harg.no_comma h.1,
      if_neg (hb 40 harg.no_open), if_neg (hb 41 harg.no_close),
      decide_eq_false (hb 34 harg.no_quote), ih htail, append_assoc]
    rfl

/-- **The arguments of a call** are read. -/
theorem parseArgs_call (hargs : ∀ arg ∈ args, IsArg arg) :
    parseArgs (40 :: ([44].intercalate args ++ [41])) = some (fields args, []) := by
  have hloop : ∀ arg args acc, (∀ a ∈ arg :: args, IsArg a) →
      parseArgsLoop 1 false [] acc ([44].intercalate (arg :: args) ++ [41]) =
        some (acc ++ arg :: args, []) := by
    intro arg args
    induction args generalizing arg with
    | nil =>
      intro acc hargs
      rw [intercalate_singleton, parseArgsLoop_append (hargs arg mem_cons_self)]
      rfl
    | cons arg' args ih =>
      intro acc hargs
      rw [intercalate_cons_cons, append_assoc, append_assoc,
        parseArgsLoop_append (hargs arg mem_cons_self), singleton_append,
        parseArgsLoop, if_pos ⟨rfl, rfl⟩, ih _ _ fun a ha => hargs a (mem_cons_of_mem _ ha),
        append_assoc]
      rfl
  cases args with
  | nil => rfl
  | cons arg args => exact hloop arg args [] hargs

end Call

/-! ### The values of a call -/

section Values

variable {T : SymbolTable} {n : ℕ} {s : CString} {disabled values args : List CString}

/-- **A text without macros** is its only value. -/
theorem evalExprHelper_inert (hs : ∀ w ∈ words s, T w = [] ∨ w ∈ disabled)
    (h : evalExprHelper T n s disabled () = some (.ok values, ())) : values = [s] := by
  induction n generalizing s values with
  | zero => cases h
  | succ n ih =>
    obtain hfree | ⟨before, x, rest, hsplit⟩ := splits_or_wordFree s
    · rw [evalExprHelper_wordFree hfree] at h
      exact (Prog.pure_eq_ok_iff.mp h).1.symm
    · rw [words_splits hsplit] at hs
      by_cases hx : T x = []
      · rw [evalExprHelper_undefined hsplit hx] at h
        obtain ⟨ws, hws, rfl⟩ := Prog.bind_pure_eq_ok_iff.mp h
        rw [ih (fun w hw => hs w (mem_cons_of_mem _ hw)) hws, hsplit.eq]
        rfl
      · have hd := (hs x mem_cons_self).resolve_left hx
        rw [evalExprHelper_disabled hsplit hx hd] at h
        exact (Prog.pure_eq_ok_iff.mp h).1.symm

variable (h : Head) {lhs : List CString} {body : CString}

theorem fields_inert (hinert : ∀ arg ∈ args, ∀ w ∈ words arg, T w = []) :
    ∀ arg ∈ fields args, ∀ w ∈ words arg, T w = [] := by
  cases args with
  | nil =>
    intro arg harg w hw
    rw [mem_singleton.mp harg] at hw
    cases hw
  | cons arg args => exact hinert

/-- Arguments without macros have themselves as values. -/
theorem collect_inert {argsExpand : List (List CString)}
    (hinert : ∀ arg ∈ args, ∀ w ∈ words arg, T w = [])
    (h : Prog.collect (fun arg => evalExprHelper T n arg disabled) args () =
      some (.ok argsExpand, ())) : argsExpand = args.map fun arg => [arg] := by
  have hall := Prog.collect_eq_ok_iff.mp h
  clear h
  induction hall with
  | nil => rfl
  | cons harg _ ih =>
    rw [evalExprHelper_inert (fun w hw => .inl (hinert _ mem_cons_self w hw)) harg,
      ih fun a ha => hinert a (mem_cons_of_mem _ ha)]
    rfl

/-- **What a call expands to**: the arguments are put in for the parameters one after the
other, the pound signs are treated, and then the symbol is disabled. -/
theorem macroValues_call (hargs : ∀ arg ∈ args, IsArg arg)
    (hinert : ∀ arg ∈ args, ∀ w ∈ words arg, T w = []) (hlen : lhs.length = (fields args).length)
    {ws : List CString}
    (hrun : macroValues (evalExprHelper T n) [] h.symbol (40 :: ([44].intercalate args ++ [41])) []
      ⟨some lhs, some body⟩ () = some (.ok ws, ())) :
    evalExprHelper T n (massageAccordingToPoundSigns (substituteList lhs (fields args) body))
      [h.symbol] () = some (.ok ws, ()) := by
  rw [macroValues, parseArgs_call hargs] at hrun
  dsimp only at hrun
  rw [if_pos hlen] at hrun
  obtain ⟨argsExpand, ⟨⟩, hexpand, hrun⟩ := Prog.bind_eq_ok_iff.mp hrun
  rw [collect_inert (fields_inert hinert) hexpand] at hrun
  dsimp only at hrun
  rw [substituteArgs_singletons] at hrun
  -- nothing follows the call
  obtain ⟨afters, ⟨⟩, hafters, hrun⟩ := Prog.bind_eq_ok_iff.mp (Prog.gather_singleton.mp hrun)
  rw [evalExprHelper_inert (by rintro w ⟨⟩) hafters] at hrun
  obtain ⟨us, hus, rfl⟩ := Prog.bind_pure_eq_ok_iff.mp hrun
  have hws : prependToSet [] us = us := map_id us
  rw [hws]
  rw [Prog.gather_singleton, append_nil] at hus
  exact hus

/-- A call begins with the symbol. -/
theorem Head.splits_call (args : List CString) :
    Splits (h.call args) [] h.symbol (40 :: ([44].intercalate args ++ [41])) := by
  refine h.isSymbol.splits_append fun b hb => ?_
  obtain rfl : 40 = b := Option.some.inj hb
  rfl

theorem length_fields {ts us : List CString} (hlen : ts.length = us.length) :
    (fields ts).length = (fields us).length := by
  cases ts with
  | nil => rw [eq_nil_of_length_eq_zero hlen.symm]
  | cons t ts =>
    cases us with
    | nil => cases hlen
    | cons u us => exact hlen

/-- **The expansion is among the values**, whatever else is defined. -/
theorem massage_mem_evalExpression (hargs : ∀ arg ∈ args, IsArg arg)
    (hinert : ∀ arg ∈ args, ∀ w ∈ words arg, T w = []) (hlen : lhs.length = (fields args).length)
    (hdf : ⟨some lhs, some body⟩ ∈ T h.symbol)
    (hrun : evalExpression T n (h.call args) () = some (.ok values, ())) :
    massageAccordingToPoundSigns (substituteList lhs (fields args) body) ∈ values := by
  cases n with
  | zero => cases hrun
  | succ n =>
    obtain ⟨-, ws, -, hws, -, hsub⟩ :=
      evalMacro_of_evalExprHelper (h.splits_call args) not_mem_nil hdf hrun
    exact hsub _ (self_mem_of_evalExprHelper (macroValues_call h hargs hinert hlen hws))

theorem noWordAhead_cons {b : UInt8} (hb : isWord b = false) : NoWordAhead (b :: s) :=
  fun _ ha => Option.some.inj ha ▸ hb

/-- The words of a list of arguments are those of the arguments. -/
theorem words_intercalate (args : List CString) :
    words (40 :: ([44].intercalate args ++ [41])) = args.flatMap words := by
  have hopen : ∀ s, words (40 :: s) = words s := fun s =>
    words_wordFree_append (show WordFree [40] by decide)
  rw [hopen, words_append (noWordAhead_cons rfl), words_wordFree (s := [41]) (by decide),
    append_nil]
  induction args with
  | nil => rfl
  | cons arg args ih =>
    cases args with
    | nil => rw [intercalate_singleton, flatMap_singleton]
    | cons arg' args =>
      have hcomma : ∀ s, words (44 :: s) = words s := fun s =>
        words_wordFree_append (show WordFree [44] by decide)
      rw [intercalate_cons_cons, append_assoc, singleton_append,
        words_append (noWordAhead_cons rfl), hcomma, ih]
      rfl

/-- **There is nothing else**, if nothing else is defined. -/
theorem eq_of_mem_evalExpression (hargs : ∀ arg ∈ args, IsArg arg)
    (hsymbol : ∀ arg ∈ args, h.symbol ∉ words arg) (hlen : lhs.length = (fields args).length)
    (hrun : evalExpression (.ofDefines [(h.symbol, ⟨some lhs, some body⟩)]) n (h.call args) () =
      some (.ok values, ())) {v : CString} (hv : v ∈ values) :
    v = h.call args ∨
      v = massageAccordingToPoundSigns (substituteList lhs (fields args) body) := by
  have hother : ∀ w, w ≠ h.symbol →
      SymbolTable.ofDefines [(h.symbol, ⟨some lhs, some body⟩)] w = [] := by
    intro w hw
    simp [SymbolTable.ofDefines, hw.symm]
  have hself : SymbolTable.ofDefines [(h.symbol, ⟨some lhs, some body⟩)] h.symbol =
      [⟨some lhs, some body⟩] := by simp [SymbolTable.ofDefines]
  generalize SymbolTable.ofDefines [(h.symbol, ⟨some lhs, some body⟩)] = T at hother hself hrun
  have hinert : ∀ arg ∈ args, ∀ w ∈ words arg, T w = [] :=
    fun arg harg w hw => hother w fun heq => hsymbol arg harg (heq ▸ hw)
  cases n with
  | zero => cases hrun
  | succ n =>
    rw [evalExpression, evalExprHelper_defined (h.splits_call args) (by simp [hself])
      not_mem_nil, hself] at hrun
    obtain ⟨all, hall, rfl⟩ := Prog.bind_pure_eq_ok_iff.mp hrun
    obtain ⟨afters, ⟨⟩, hafters, hall⟩ := Prog.bind_eq_ok_iff.mp (Prog.gather_singleton.mp hall)
    obtain ⟨ws, hws, rfl⟩ := Prog.bind_pure_eq_ok_iff.mp hall
    have hafters' := evalExprHelper_inert (fun w hw => by
      rw [words_intercalate] at hw
      obtain ⟨arg, harg, hw⟩ := mem_flatMap.mp hw
      exact .inl (hinert arg harg w hw)) hafters
    have hws' := evalExprHelper_inert (fun w _ => by
      by_cases hw : w = h.symbol
      · exact .inr (mem_singleton.mpr hw)
      · exact .inl (hother w hw)) (macroValues_call h hargs hinert hlen hws)
    rw [hafters', hws'] at hv
    simpa [prependToSet, Head.call] using hv

/-- A definition without a right-hand side makes the evaluation fail. -/
theorem evalExpression_call_ne_ok (hargs : ∀ arg ∈ args, IsArg arg)
    (hlen : lhs.length = (fields args).length) (hdf : ⟨some lhs, none⟩ ∈ T h.symbol) :
    evalExpression T n (h.call args) () ≠ some (.ok values, ()) := by
  intro hrun
  cases n with
  | zero => cases hrun
  | succ n =>
    obtain ⟨-, ws, -, hws, -⟩ :=
      evalMacro_of_evalExprHelper (h.splits_call args) not_mem_nil hdf hrun
    rw [macroValues, parseArgs_call hargs] at hws
    dsimp only at hws
    rw [if_pos hlen] at hws
    obtain ⟨argsExpand, ⟨⟩, -, hfail⟩ := Prog.bind_eq_ok_iff.mp hws
    cases hfail

end Values

/-! ### What a definition has to be like -/

section Padding

variable {p : Param} {ps : List Param} {args : List CString} {s y : CString}

theorem Blank.wordFree {x : CString} (hx : Blank x) : WordFree x :=
  fun b hb => isWord_of_isSpace b (hx b hb).1

/-- **A parameter that is not in the text** is not replaced, with white space or without. -/
theorem substituteSymbolInString_text (hs : p.name ∉ words s) :
    substituteSymbolInString p.text y s = s := by
  refine subFrom_eq_self fun w t ht => ?_
  cases hfirst : first (wholeRe p.text) (.start (lastOf none w) t) with
  | none => rfl
  | some c =>
    exfalso
    obtain ⟨ht', hat, hat'⟩ := of_first_wholeRe hfirst
    obtain ⟨b, x, hname, hb⟩ := p.symbol.cons
    refine hs ?_
    have hleft : (lastOf none (w ++ p.before)).any isWord = false := by
      rw [lastOf_append]
      refine lastOf_wordFree p.blank_before.wordFree fun hnil => ?_
      rw [ht', Param.text, hnil, hname, atBoundary] at hat
      simpa [hb] using hat
    have hright : NoWordAhead (p.after ++ c.rest) := by
      cases hafter : p.after with
      | cons a t => exact (hafter ▸ noWordAhead_of_wordFree p.blank_after.wordFree : _)
      | nil =>
        have hlast : (lastOf (lastOf none w) p.text).any isWord = true := by
          rw [Param.text, hafter, append_nil, lastOf_append]
          exact lastOf_word p.symbol.ne_nil p.symbol.word
        rw [atBoundary, hlast] at hat'
        exact noWordAhead_of_any_head (by simpa using hat')
    have hmem := mem_words p.symbol hleft hright
    rw [ht, ht', Param.text]
    simpa using hmem

theorem Param.Padded.exists_mem (hp : p.Padded) : ∃ b ∈ p.text, isSpace b = true := by
  rcases hp with hne | hne
  · obtain ⟨b, t, ht⟩ := exists_cons_of_ne_nil hne
    exact ⟨b, by simp [Param.text, ht], (p.blank_before b (by simp [ht])).1⟩
  · obtain ⟨b, t, ht⟩ := exists_cons_of_ne_nil hne
    exact ⟨b, by simp [Param.text, ht], (p.blank_after b (by simp [ht])).1⟩

/-- A parameter with white space around it is not found where there is none. -/
theorem substituteSymbolInString_padded (hp : p.Padded) (hs : Spaceless s) :
    substituteSymbolInString p.text y s = s := by
  refine subFrom_eq_self fun w t ht => ?_
  cases hfirst : first (wholeRe p.text) (.start (lastOf none w) t) with
  | none => rfl
  | some c =>
    obtain ⟨b, hb, hspace⟩ := hp.exists_mem
    have hmem : b ∈ s := by
      rw [ht, (of_first_wholeRe hfirst).1]
      simp [hb]
    rw [hs b hmem] at hspace
    cases hspace

theorem Param.text_of_not_padded (hp : ¬ p.Padded) : p.text = p.name := by
  obtain ⟨hbefore, hafter⟩ := not_or.mp hp
  rw [Param.text, not_not.mp hbefore, not_not.mp hafter, nil_append, append_nil]

/-- **Only parameters without white space are replaced**, if what keeps the others from being
found (`Q`) stays while arguments come in. -/
theorem substituteList_eq_replaceBare {Q : CString → Prop}
    (hQ : ∀ q ∈ ps.zip args, ∀ s, Q s → Q (replaceWord q.1.name q.2 s))
    (hskip : ∀ p ∈ ps, p.Padded → ∀ y s, Q s → substituteSymbolInString p.text y s = s)
    (hs : Q s) : substituteList (ps.map Param.text) args s = replaceBare ps args s := by
  induction ps generalizing args s with
  | nil => rfl
  | cons p ps ih =>
    cases args with
    | nil => rfl
    | cons arg args =>
      have hQ' (q) (hq : q ∈ ps.zip args) := hQ q (mem_cons_of_mem _ hq)
      have hskip' (p) (hp : p ∈ ps) := hskip p (mem_cons_of_mem _ hp)
      rw [map_cons, substituteList, replaceBare]
      split
      · case isTrue hpad => rw [hskip p mem_cons_self hpad arg s hs, ih hQ' hskip' hs]
      · case isFalse hpad =>
        rw [Param.text_of_not_padded hpad, substituteSymbolInString_symbol p.symbol]
        exact ih hQ' hskip' (hQ (p, arg) mem_cons_self s hs)

/-- Where there is no white space. -/
theorem substituteList_of_spaceless (hs : ∀ t ∈ s :: args, Spaceless t) :
    substituteList (ps.map Param.text) args s = replaceBare ps args s := by
  refine substituteList_eq_replaceBare (Q := Spaceless) (fun q hq t ht b hb => ?_)
    (fun p _ hpad _ _ ht => substituteSymbolInString_padded hpad ht) (hs s mem_cons_self)
  rcases mem_replaceWord hb with hb | hb
  · exact ht b hb
  · exact hs q.2 (mem_cons_of_mem _ (of_mem_zip hq).2) b hb

/-- Where the parameters with white space around them do not occur: neither in the text nor
in the arguments of parameters that do. -/
theorem substituteList_of_not_mem (hs : ∀ p ∈ ps, p.Padded → p.name ∉ words s)
    (hargs : ∀ p ∈ ps, p.Padded → ∀ q ∈ ps.zip args,
      (∃ t ∈ s :: args, q.1.name ∈ words t) → p.name ∉ words q.2) :
    substituteList (ps.map Param.text) args s = replaceBare ps args s := by
  -- all words are those of the text or of an argument
  refine substituteList_eq_replaceBare (Q := fun t => (∀ p ∈ ps, p.Padded → p.name ∉ words t) ∧
      ∀ w ∈ words t, ∃ u ∈ s :: args, w ∈ words u) (fun q hq t ⟨hnot, hin⟩ => ?_)
    (fun p hp hpad _ _ ht => substituteSymbolInString_text (ht.1 p hp hpad))
    ⟨hs, fun w hw => ⟨s, mem_cons_self, hw⟩⟩
  refine ⟨fun p hp hpad hmem => ?_, fun w hw => ?_⟩
  · rcases mem_words_replaceWord hmem with hmem | ⟨hq', hmem⟩
    · exact hnot p hp hpad hmem
    · exact hargs p hp hpad q hq (hin _ hq') hmem
  · rcases mem_words_replaceWord hw with hw | ⟨-, hw⟩
    · exact hin w hw
    · exact ⟨q.2, mem_cons_of_mem _ (of_mem_zip hq).2, hw⟩

/-- **What replacements make of a text**, they make of each of its words. -/
theorem replaceBare_eq_mapWords (ps : List Param) (args : List CString) (s : CString) :
    replaceBare ps args s = mapWords (replaceBare ps args) s := by
  induction ps generalizing args s with
  | nil => exact mapWords_id.symm
  | cons p ps ih =>
    cases args with
    | nil => exact mapWords_id.symm
    | cons arg args =>
      rw [replaceBare]
      split
      · case isTrue hpad =>
        rw [ih]
        exact mapWords_congr fun w _ => by rw [replaceBare, if_pos hpad]
      · case isFalse hpad =>
        rw [ih, replaceWord, mapWords_mapWords]
        refine mapWords_congr fun w hw => ?_
        rw [← ih, replaceBare, if_neg hpad, replaceWord_symbol (isSymbol_of_mem_words hw)]

end Padding

section Keeping

variable {ps : List Param} {params args : List CString} {w body : CString}

theorem symbol_spaceless (hw : IsSymbol w) : Spaceless w := by
  intro b hb
  refine Bool.eq_false_iff.mpr fun hspace => ?_
  have hword := hw.word b hb
  rw [isWord_of_isSpace b hspace] at hword
  cases hword

/-- There are no quotes and no pound signs in a word. -/
theorem symbol_quiet (hw : IsSymbol w) : 34 ∉ w ∧ dropPounds w = w ∧ Quiet none w := by
  have hno : ∀ b, isWord b = false → b ∉ w := by
    intro b hb hmem
    rw [hw.word b hmem] at hb
    cases hb
  exact ⟨hno 34 rfl, dropPounds_eq_self (hno 35 rfl), quiet_of_not_mem (hno 35 rfl)⟩

theorem massage_symbol (hw : IsSymbol w) : massageAccordingToPoundSigns w = w :=
  (massage_eq_iff (symbol_quiet hw).1).mpr (symbol_quiet hw).2

/-- **What kept arguments do to a word of the body**: it becomes the argument it stands for. -/
theorem Kept.massage_eq (hkept : Kept body ps args) (hquote : ∀ arg ∈ args, 34 ∉ arg)
    (hw : w ∈ words body) : massageAccordingToPoundSigns (replaceBare ps args w) =
      argumentOf (ps.map Param.name) args w := by
  have hsymbol := isSymbol_of_mem_words hw
  induction ps generalizing args with
  | nil => exact massage_symbol hsymbol
  | cons p ps ih =>
    cases args with
    | nil => exact massage_symbol hsymbol
    | cons arg args =>
      obtain ⟨hfirst, hkept⟩ := hkept
      rw [replaceBare, map_cons, argumentOf, replaceWord_symbol hsymbol]
      by_cases heq : w = p.name
      · obtain ⟨hpad, hdrop, hquiet⟩ := hfirst (heq ▸ hw)
        rw [if_neg hpad, if_pos heq, if_pos heq]
        exact (massage_eq_iff (hquote arg mem_cons_self)).mpr ⟨hdrop, hquiet⟩
      · rw [if_neg heq, if_neg heq, ite_self]
        exact ih hkept fun a ha => hquote a (mem_cons_of_mem _ ha)

theorem replaceBare_name {p : Param} (hp : p.name ∉ ps.map Param.name) :
    replaceBare ps args p.name = p.name := by
  induction ps generalizing args with
  | nil => rfl
  | cons q ps ih =>
    cases args with
    | nil => rfl
    | cons arg args =>
      rw [map_cons, mem_cons, not_or] at hp
      rw [replaceBare, replaceWord_symbol p.symbol, if_neg hp.1, ite_self]
      exact ih hp.2

theorem Kept.not_padded (hkept : Kept body ps args) (hlen : args.length = ps.length) :
    ∀ p ∈ ps, p.Padded → p.name ∉ words body := by
  induction ps generalizing args with
  | nil => nofun
  | cons p ps ih =>
    cases args with
    | nil => cases hlen
    | cons arg args =>
      exact forall_mem_cons.mpr ⟨fun hpad hw => (hkept.1 hw).1 hpad,
        ih hkept.2 (Nat.succ.inj hlen)⟩

/-- And the other way round: if each parameter becomes its argument, all are kept. -/
theorem kept_of_replaceBare (hnodup : (ps.map Param.name).Nodup)
    (hargs : ∀ arg ∈ args, IsSymbol arg)
    (hself : ∀ q ∈ ps.zip args, q.1.Padded → q.2 ≠ q.1.name)
    (hall : ∀ p ∈ ps, p.name ∈ words body →
      replaceBare ps args p.name = argumentOf (ps.map Param.name) args p.name) :
    Kept body ps args := by
  induction ps generalizing args with
  | nil => trivial
  | cons p ps ih =>
    cases args with
    | nil => trivial
    | cons arg args =>
      obtain ⟨hp, hnodup⟩ := nodup_cons.mp hnodup
      refine ⟨fun hw => ?_, ih hnodup (fun a ha => hargs a (mem_cons_of_mem _ ha))
        (fun q hq => hself q (mem_cons_of_mem _ hq)) fun q hq hw => ?_⟩
      · have hfirst := hall p mem_cons_self hw
        rw [replaceBare, map_cons, argumentOf, if_pos rfl, replaceWord_symbol p.symbol,
          if_pos rfl] at hfirst
        split at hfirst
        · case isTrue hpad =>
          rw [replaceBare_name hp] at hfirst
          exact absurd hfirst.symm (hself (p, arg) mem_cons_self hpad)
        · case isFalse hpad =>
          obtain ⟨-, hdrop, hquiet⟩ := symbol_quiet (hargs arg mem_cons_self)
          exact ⟨hpad, by rw [hfirst, hdrop], hquiet⟩
      · have hother := hall q (mem_cons_of_mem _ hq) hw
        have hne : q.name ≠ p.name := fun heq => hp (heq ▸ mem_map_of_mem hq)
        rwa [replaceBare, map_cons, argumentOf, if_neg hne, replaceWord_symbol q.symbol,
          if_neg hne, ite_self] at hother

theorem argumentOf_cases (params args : List CString) (w : CString) :
    argumentOf params args w = w ∨ argumentOf params args w ∈ args := by
  induction params generalizing args with
  | nil => exact .inl rfl
  | cons p params ih =>
    cases args with
    | nil => exact .inl rfl
    | cons arg args =>
      rw [argumentOf]
      split
      · exact .inr mem_cons_self
      · exact (ih args).imp_right (mem_cons_of_mem _)

/-- **With kept arguments, all parameters are replaced at once.** -/
theorem Kept.massage_replaceBare (hkept : Kept body ps args) (hquote : ∀ arg ∈ args, 34 ∉ arg)
    (hbody : 35 ∉ body) : massageAccordingToPoundSigns (replaceBare ps args body) =
      simultaneous (ps.map Param.name) args body := by
  rw [replaceBare_eq_mapWords]
  refine massage_mapWords hbody fun w hw => ⟨hkept.massage_eq hquote hw, fun hmem => ?_⟩
  rcases argumentOf_cases (ps.map Param.name) args w with heq | hin
  · rw [heq] at hmem
    exact absurd ((isSymbol_of_mem_words hw).word 34 hmem) (by decide)
  · exact hquote _ hin hmem

/-- Words that become words. -/
theorem isSymbol_replaceBare (hargs : ∀ arg ∈ args, IsSymbol arg) (hw : IsSymbol w) :
    IsSymbol (replaceBare ps args w) := by
  induction ps generalizing args w with
  | nil => exact hw
  | cons p ps ih =>
    cases args with
    | nil => exact hw
    | cons arg args =>
      rw [replaceBare, replaceWord_symbol hw]
      refine ih (fun a ha => hargs a (mem_cons_of_mem _ ha)) ?_
      split_ifs
      · exact hw
      · exact hargs arg mem_cons_self
      · exact hw

theorem isSymbol_argumentOf (hargs : ∀ arg ∈ args, IsSymbol arg) (hw : IsSymbol w) :
    IsSymbol (argumentOf params args w) := by
  rcases argumentOf_cases params args w with heq | hin
  · rwa [heq]
  · exact hargs _ hin

/-- If the arguments are words, there are no pound signs to treat. -/
theorem massage_replaceBare (hargs : ∀ arg ∈ args, IsSymbol arg) (hbody : 35 ∉ body) :
    massageAccordingToPoundSigns (replaceBare ps args body) =
      mapWords (replaceBare ps args) body := by
  rw [replaceBare_eq_mapWords]
  refine massage_mapWords hbody fun w hw => ?_
  have hsymbol : IsSymbol (replaceBare ps args w) :=
    isSymbol_replaceBare hargs (isSymbol_of_mem_words hw)
  exact ⟨massage_symbol hsymbol, (symbol_quiet hsymbol).1⟩

end Keeping

section Main

variable (h : Head) {args : List CString} {body : CString}

theorem Head.entered_name : h.entered.map Param.name = h.names := by
  rw [Head.entered, Head.names]
  cases h.params <;> rfl

theorem Head.length_entered : h.entered.length = h.params.length := by
  rw [Head.entered]
  cases h.params <;> rfl

theorem length_fields_entered (hlen : args.length = h.params.length) :
    (fields (h.entered.map Param.text)).length = (fields args).length :=
  length_fields (by rw [length_map, h.length_entered, hlen])

/-- What is looked for are the parameters, also if there are none. -/
theorem substituteList_fields (hlen : args.length = h.params.length) :
    substituteList (fields (h.entered.map Param.text)) (fields args) body =
      substituteList (h.entered.map Param.text) args body := by
  have hsame := h.length_entered.trans hlen.symm
  cases hentered : h.entered with
  | nil =>
    rw [hentered] at hsame
    rw [eq_nil_of_length_eq_zero hsame.symm]
    exact substituteSymbolInString_nil body
  | cons p ps =>
    cases args with
    | nil =>
      rw [hentered] at hsame
      cases hsame
    | cons arg args => rfl

variable (hargs : ∀ arg ∈ args, IsArg arg) (hlen : args.length = h.params.length)
include hargs hlen

/-- **A definition that fits.** -/
theorem expanded_of_fits (hfits : Fits h args body) (hbody : IsBody body) (hne : body ≠ []) :
    Expanded h args body := by
  have hsame : args.length = h.entered.length := hlen.trans h.length_entered.symm
  have hlist : substituteList (fields (h.entered.map Param.text)) (fields args) body =
      replaceBare h.entered args body := by
    rw [substituteList_fields h hlen]
    rcases hfits.unmatched with hnot | hspace
    · exact substituteList_of_not_mem (hfits.kept.not_padded hsame) hnot
    · exact substituteList_of_spaceless hspace
  refine ⟨_, _, readDirective_line h hbody, definesOf_line h _, ?_⟩
  rw [if_neg hne]
  intro defines hdf hcomplete hinert
  have hT : (SymbolTable.ofDefines defines).Complete := by
    intro x df hx
    rcases hcomplete _ (SymbolTable.mem_ofDefines.mp hx) with heq | hrhs
    · rw [(Prod.mk.inj heq).2]
      exact nofun
    · exact hrhs
  obtain ⟨n, values, hrun⟩ := evalExpression_returns SymbolTable.keys_ofDefines hT (h.call args)
  refine ⟨n, values, hrun, ?_⟩
  have hmem := massage_mem_evalExpression h hargs hinert (length_fields_entered h hlen)
    (SymbolTable.mem_ofDefines.mpr hdf) hrun
  rwa [hlist, hfits.kept.massage_replaceBare (fun arg harg => (hargs arg harg).no_quote)
    hbody.no_pound, h.entered_name] at hmem

variable (hsymbol : ∀ arg ∈ args, h.symbol ∉ words arg)
include hsymbol

omit hargs hlen in
/-- The expansion is a value if nothing else is defined. -/
theorem Expanded.alone (hexpanded : Expanded h args body) (hbody : IsBody body) :
    ∃ n values, evalExpression (.ofDefines [(h.symbol,
        ⟨some (fields (h.entered.map Param.text)), if body = [] then none else some body⟩)]) n
        (h.call args) () = some (.ok values, ()) ∧ simultaneous h.names args body ∈ values := by
  obtain ⟨d, df, hd, hdf, hexpanded⟩ := hexpanded
  rw [readDirective_line h hbody] at hd
  rw [← Option.some.inj hd, definesOf_line] at hdf
  obtain ⟨-, rfl⟩ := Prod.mk.inj (singleton_inj.mp hdf)
  refine hexpanded [(h.symbol, _)] (mem_singleton_self _)
    (fun e he => .inl (mem_singleton.mp he)) fun arg harg w hw => ?_
  have hne : h.symbol ≠ w := fun heq => hsymbol arg harg (heq ▸ hw)
  simp [SymbolTable.ofDefines, hne]

/-- **What has to hold for a body**, if nothing else is defined. -/
theorem Expanded.massage_eq (hexpanded : Expanded h args body) (hbody : IsBody body)
    (hne : body ≠ []) (hcall : simultaneous h.names args body ≠ h.call args) :
    massageAccordingToPoundSigns
      (substituteList (fields (h.entered.map Param.text)) (fields args) body) =
        simultaneous h.names args body := by
  obtain ⟨n, values, hrun, hmem⟩ := hexpanded.alone h hsymbol hbody
  rw [if_neg hne] at hrun
  exact ((eq_of_mem_evalExpression h hargs hsymbol (length_fields_entered h hlen) hrun
    hmem).resolve_left hcall).symm

/-- An empty body is none, and then there are no values. -/
theorem not_expanded_nil : ¬ Expanded h args [] := by
  have hbody : IsBody [] := ⟨nofun, nofun, nofun, nofun, by decide, by decide⟩
  intro hexpanded
  obtain ⟨n, values, hrun, -⟩ := hexpanded.alone h hsymbol hbody
  rw [if_pos rfl] at hrun
  exact evalExpression_call_ne_ok h hargs (length_fields_entered h hlen)
    (SymbolTable.mem_ofDefines.mpr (mem_singleton_self _)) hrun

/-- **A definition that expands the call fits it**, if nothing is right by accident. -/
theorem fits_of_expanded (hexpanded : Expanded h args body) (hapart : Apart h args body)
    (hbody : IsBody body) (hne : body ≠ []) : Fits h args body := by
  have hspacing : (∀ p ∈ h.entered, ¬ p.Padded) ∨ ∀ s ∈ body :: args, Spaceless s :=
    hapart.spacing.imp_right fun hspace =>
      forall_mem_cons.mpr ⟨hspace, fun arg harg => symbol_spaceless (hapart.symbols arg harg)⟩
  have hlist : substituteList (fields (h.entered.map Param.text)) (fields args) body =
      replaceBare h.entered args body := by
    rw [substituteList_fields h hlen]
    rcases hspacing with hpad | hspace
    · exact substituteList_of_not_mem (fun p hp hp' => absurd hp' (hpad p hp))
        fun p hp hp' => absurd hp' (hpad p hp)
    · exact substituteList_of_spaceless hspace
  have heq := hexpanded.massage_eq h hargs hlen hsymbol hbody hne hapart.not_call
  rw [hlist, massage_replaceBare hapart.symbols hbody.no_pound, ← h.entered_name] at heq
  have hword := eq_of_mapWords_eq heq
    (fun w hw => isSymbol_replaceBare hapart.symbols (isSymbol_of_mem_words hw))
    fun w hw => isSymbol_argumentOf hapart.symbols (isSymbol_of_mem_words hw)
  refine ⟨kept_of_replaceBare (h.entered_name ▸ h.nodup) hapart.symbols hapart.not_self
    fun p _ hw => hword _ hw, ?_⟩
  exact hspacing.imp_left fun hpad p hp hp' => absurd hp' (hpad p hp)

end Main

/-- `#define F(x, y)`. -/
def spacedHead : Head where
  indent := []
  space := lit " "
  symbol := lit "F"
  params := [⟨[], lit "x", [], nofun, by decide, nofun⟩,
    ⟨lit " ", lit "y", [], by decide, by decide, nofun⟩]
  gap := lit " "
  indent_blank := nofun
  blank_space := by decide
  space_ne_nil := by decide
  isSymbol := by decide
  nodup := (by decide : [lit "x", lit "y"].Nodup)
  blank_gap := by decide

/-- What is entered for `#define F(x, y) <x/y.h>`. -/
def spacedPair : List (CString × MacroDef) :=
  [(lit "F", ⟨some [lit "x", lit " y"], some (lit "<x/y.h>")⟩)]

end Distcc.IncludeServer
