import Distcc.IncludeServer.ParseFile

/-!
# Exceptions of the analysis

`NotCoveredError` is how the include server says that it cannot tell what a file includes;
the client then does without it. Anything else that is raised is a mistake of the program.

Two things that the parser lets through are such mistakes
(`analysis_covered_iff`). A directive `#include` with nothing behind it
runs into an assertion. A definition without a right-hand side is entered in the symbol
table, and the evaluation of an expression with that symbol fails, as it needs a string.
Nothing else goes wrong: what the parser takes for the left-hand side of a definition is one
for the table too, and all that the evaluation may find there it can deal with.
-/

namespace Distcc.IncludeServer

open CString Regex List Prog

/-! ### The files that an expression may mean -/

/-- The bytes of the names of files in a value. -/
def isValueByte (b : UInt8) : Bool := isPathByte b ∨ b = 92

/-- `INCLUDE_STRING_RE` -/
def includeStringRe : Regex UInt8 Group :=
  seqs [textStart, spaces,
    .alt
      (seqs [text (lit "\""), spaces, .group .quote (many (.char isValueByte)), spaces,
        text (lit "\"")])
      (seqs [text (lit "<"), spaces, .group .angle (many (.char isValueByte)), spaces,
        text (lit ">")]),
    spaces, textEnd]

/-- A computation on what is known of files. -/
abbrev Stat := Prog BuildStatCache PyExc

/-- `BuildStatCache.Resolve`, for a path that is entered in the map. -/
def resolvePath (ignoreAbsolute : Bool) (fs : FileSystem) (path : CString) (currdir : Directory)
    (searchdir : Option Directory) (searchlist : List Directory) :
    Stat (Option (Pair × CString)) := do
  let fp ← Prog.ofExcept (includepathMapIndex ignoreAbsolute path)
  let cache ← Prog.get
  let (file, cache) := cache.resolve fs fp currdir searchdir searchlist
  Prog.modify fun _ => cache
  pure file

/-- One turn of `ResolveExpr`: the file that a value means, or the symbols in it. -/
def resolveValue (ignoreAbsolute : Bool) (fs : FileSystem) (currdir searchdir : Directory)
    (quoteDirs angleDirs : List Directory) (val : CString) :
    Stat (List (Option (Pair × CString)) × List CString) :=
  match includeStringRe.matchStart val with
  | none => pure ([], symbolRe.findall val)
  | some m =>
    match caught m .quote, caught m .angle with
    | some path, _ => do
      let file ← resolvePath ignoreAbsolute fs path currdir (some searchdir) quoteDirs
      pure ([file], [])
    | none, some path => do
      let file ← resolvePath ignoreAbsolute fs path currdir none angleDirs
      pure ([file], [])
    | none, none => pure ([], [])

/-- `ResolveExpr`, with calls of the evaluation no deeper than that. -/
def resolveExpr (ignoreAbsolute : Bool) (fs : FileSystem) (symbolTable : SymbolTable)
    (depth : ℕ) (expr : CString) (currdir searchdir : Directory)
    (quoteDirs angleDirs : List Directory) :
    Stat (List (Option (Pair × CString)) × Finset CString) := do
  let values ← (evalExpression symbolTable depth expr).lift
  let found ← Prog.collect
    (resolveValue ignoreAbsolute fs currdir searchdir quoteDirs angleDirs) values.dedup
  pure (found.flatMap Prod.fst, (found.flatMap Prod.snd).toFinset)

/-! ### What the parser raises -/

/-- The exception that is meant to be raised. -/
def IsNotCovered (e : PyExc) : Prop := ∃ message, e = .notCoveredError message

/-- A call returns, or raises `NotCoveredError`. -/
def Covered {α : Type} (r : Except PyExc α) : Prop := ∀ e, r = .error e → IsNotCovered e

/-- An include that is refused. -/
def Directive.isRefused (ignoreAbsolute : Bool) : Directive → Bool
  | .include _ (.quote path) => path.head? = some 47 ∧ ignoreAbsolute = false
  | .include _ (.angle path) => path.head? = some 47 ∧ ignoreAbsolute = false
  | _ => false

/-- Nothing is missing that the program relies on. -/
def Directive.IsWhole (d : Directive) : Prop :=
  (∀ next, d ≠ .include next .missing) ∧ ∀ lhs, d ≠ .define lhs none

variable {ignoreAbsolute : Bool} {fs : FileSystem} {T : SymbolTable}

theorem isNotCovered_decorate {filepath : CString} {e : PyExc} (h : IsNotCovered e) :
    IsNotCovered (decorate filepath e) := by
  obtain ⟨message, rfl⟩ := h
  by_cases hpath : filepath = []
  · exact ⟨_, if_pos hpath⟩
  · exact ⟨_, if_neg hpath⟩

/-- **What is done about a directive**: it is refused, or runs into an assertion because its
operand is missing, or what it defines is entered. -/
inductive Acts (ignoreAbsolute : Bool) (st : Parsing) (d : Directive) : Prop
  | refused (e : PyExc) (hd : d.isRefused ignoreAbsolute = true)
      (h : actOn ignoreAbsolute st d = .error e) (he : IsNotCovered e)
  | missing (next : Bool) (hd : d = .include next .missing)
      (h : actOn ignoreAbsolute st d = .error .assertionError)
  | entered (st' : Parsing) (hd : d.isRefused ignoreAbsolute = false)
      (hm : ∀ next, d ≠ .include next .missing) (h : actOn ignoreAbsolute st d = .ok st')
      (hst : st'.defines = st.defines ++ definesOf d)

/-- An include of a path. -/
theorem acts_of_path {d : Directive} {st : Parsing} {path : CString} (k : CString → Parsing)
    (hact : actOn ignoreAbsolute st d =
      (includepathMapIndex ignoreAbsolute path >>= fun fp => pure (k fp)))
    (hrefused : d.isRefused ignoreAbsolute =
      decide (path.head? = some 47 ∧ ignoreAbsolute = false))
    (hm : ∀ next, d ≠ .include next .missing) (hk : ∀ fp, (k fp).defines = st.defines)
    (hdef : definesOf d = []) : Acts ignoreAbsolute st d := by
  by_cases h : path.head? = some 47 ∧ ignoreAbsolute = false
  · rw [includepathMapIndex, if_pos h] at hact
    exact .refused _ (hrefused.trans (decide_eq_true h)) hact ⟨_, rfl⟩
  · rw [includepathMapIndex, if_neg h] at hact
    refine .entered _ (hrefused.trans (decide_eq_false h)) hm hact ?_
    rw [hk, hdef, append_nil]

theorem acts (d : Directive) (hd : ∀ lhs rhs, d = .define lhs rhs → IsLhs lhs) (st : Parsing) :
    Acts ignoreAbsolute st d := by
  rcases d with ⟨_ | _, path | path | text | _⟩ | ⟨lhs, rhs⟩
  · exact acts_of_path _ rfl rfl nofun (fun _ => rfl) rfl
  · exact acts_of_path _ rfl rfl nofun (fun _ => rfl) rfl
  · exact .entered _ rfl nofun rfl (append_nil _).symm
  · exact .missing false rfl rfl
  · exact acts_of_path _ rfl rfl nofun (fun _ => rfl) rfl
  · exact acts_of_path _ rfl rfl nofun (fun _ => rfl) rfl
  · exact .entered _ rfl nofun rfl (append_nil _).symm
  · exact .missing true rfl rfl
  · have hlhs := hd lhs rhs rfl
    obtain ⟨sym, params, hdef, -, -⟩ := macroDef_of_isLhs hlhs rhs
    refine .entered { st with defines := st.defines ++ [(sym, ⟨params, rhs⟩)] } rfl nofun ?_ ?_
    · rw [actOn, if_neg hlhs.ne_nil, hdef]
      rfl
    · rw [definesOf, hdef]
      rfl

/-- The directives of a file that `Parse` gets to: those before the first one that is
refused. -/
def reached (ignoreAbsolute : Bool) (lines : List CString) : List Directive :=
  (lines.filterMap readDirective).takeWhile fun d => !d.isRefused ignoreAbsolute

section Lines

variable {filepath line : CString} {lines : List CString} {st : Parsing} {d : Directive}

theorem reached_cons (hread : readDirective line = some d)
    (hd : d.isRefused ignoreAbsolute = false) :
    reached ignoreAbsolute (line :: lines) = d :: reached ignoreAbsolute lines := by
  rw [reached, filterMap_cons_some hread, takeWhile_cons_of_pos (by rw [hd]; rfl)]
  rfl

theorem reached_cons_none (hread : readDirective line = none) :
    reached ignoreAbsolute (line :: lines) = reached ignoreAbsolute lines := by
  rw [reached, filterMap_cons_none hread]
  rfl

theorem reached_cons_refused (hread : readDirective line = some d)
    (hd : d.isRefused ignoreAbsolute = true) : reached ignoreAbsolute (line :: lines) = [] := by
  rw [reached, filterMap_cons_some hread, takeWhile_cons_of_neg]
  rw [hd]
  exact Bool.false_ne_true

theorem acts_of_read (ignoreAbsolute : Bool) (hread : readDirective line = some d)
    (st : Parsing) : Acts ignoreAbsolute st d := by
  refine acts d ?_ st
  rintro lhs rhs rfl
  exact isLhs_of_readDirective hread

theorem parseLines_none (hread : readDirective line = none) :
    parseLines ignoreAbsolute filepath (line :: lines) st =
      parseLines ignoreAbsolute filepath lines st := by
  rw [parseLines, parseFine, hread]

theorem parseLines_ok {st' : Parsing} (hread : readDirective line = some d)
    (hact : actOn ignoreAbsolute st d = .ok st') :
    parseLines ignoreAbsolute filepath (line :: lines) st =
      parseLines ignoreAbsolute filepath lines st' := by
  simp only [parseLines, parseFine, hread, hact]

theorem parseLines_error {e : PyExc} (hread : readDirective line = some d)
    (hact : actOn ignoreAbsolute st d = .error e) :
    parseLines ignoreAbsolute filepath (line :: lines) st =
      ⟨st.defines, .error (decorate filepath e)⟩ := by
  simp only [parseLines, parseFine, hread, hact]

/-- **A file without missing operands**: the macros are entered that its directives define. -/
theorem parseLines_of_operands
    (h : ∀ d ∈ reached ignoreAbsolute lines, ∀ next, d ≠ .include next .missing) :
    Covered (parseLines ignoreAbsolute filepath lines st).result ∧
      (parseLines ignoreAbsolute filepath lines st).defines =
        st.defines ++ (reached ignoreAbsolute lines).flatMap definesOf := by
  induction lines generalizing st with
  | nil => exact ⟨nofun, (append_nil _).symm⟩
  | cons line lines ih =>
    cases hread : readDirective line with
    | none =>
      rw [reached_cons_none hread] at h ⊢
      rw [parseLines_none hread]
      exact ih h
    | some d =>
      cases acts_of_read ignoreAbsolute hread st with
      | refused e hd hact he =>
        rw [parseLines_error hread hact, reached_cons_refused hread hd]
        refine ⟨?_, (append_nil _).symm⟩
        rintro e' he'
        exact Except.error.inj he' ▸ isNotCovered_decorate he
      | missing next hd hact =>
        rw [hd] at hread
        exact absurd rfl (h _ (reached_cons hread rfl ▸ mem_cons_self) next)
      | entered st' hd hm hact hst =>
        rw [reached_cons hread hd] at h ⊢
        rw [parseLines_ok hread hact, flatMap_cons, ← append_assoc, ← hst]
        exact ih fun d hd => h d (mem_cons_of_mem _ hd)

/-- **A missing operand** is an assertion that fails. -/
theorem parseLines_of_missing {next : Bool}
    (h : .include next .missing ∈ reached ignoreAbsolute lines) :
    (parseLines ignoreAbsolute filepath lines st).result = .error .assertionError := by
  induction lines generalizing st with
  | nil => cases h
  | cons line lines ih =>
    cases hread : readDirective line with
    | none =>
      rw [reached_cons_none hread] at h
      rw [parseLines_none hread]
      exact ih h
    | some d =>
      cases acts_of_read ignoreAbsolute hread st with
      | refused e hd hact he =>
        rw [reached_cons_refused hread hd] at h
        cases h
      | missing next hd hact =>
        rw [parseLines_error hread hact]
        rfl
      | entered st' hd hm hact hst =>
        rw [reached_cons hread hd] at h
        rw [parseLines_ok hread hact]
        rcases mem_cons.mp h with heq | h
        · exact absurd heq.symm (hm next)
        · exact ih h

/-- The macro of a definition that was read. -/
theorem definesOf_of_reached {lhs : CString} {rhs : Option CString}
    (h : .define lhs rhs ∈ reached ignoreAbsolute lines) :
    ∃ sym params, definesOf (.define lhs rhs) = [(sym, ⟨params, rhs⟩)] ∧ IsSymbol sym ∧
      params ≠ some [] := by
  obtain ⟨line, -, hread⟩ := mem_filterMap.mp ((List.takeWhile_prefix _).subset h)
  obtain ⟨sym, params, hdef, hsym, hparams⟩ :=
    macroDef_of_isLhs (isLhs_of_readDirective hread) rhs
  refine ⟨sym, params, ?_, hsym, hparams⟩
  rw [definesOf, hdef]
  rfl

end Lines

/-! ### What the evaluation raises -/

/-- As many empty arguments as there are commas, and one. -/
theorem parseArgs_commas (k : ℕ) :
    parseArgs (40 :: (List.replicate k 44 ++ [41])) = some (List.replicate (k + 1) [], []) := by
  have hloop : ∀ k args, parseArgsLoop 1 false [] args (List.replicate k 44 ++ [41]) =
      some (args ++ List.replicate (k + 1) [], []) := by
    intro k
    induction k with
    | zero => exact fun _ => rfl
    | succ k ih =>
      intro args
      rw [replicate_succ, cons_append, parseArgsLoop, if_pos ⟨rfl, rfl⟩, ih,
        append_assoc]
      rfl
  exact hloop k []

/-- A symbol that is defined without a right-hand side has no values. -/
theorem evalExpression_symbol_ne_ok {sym : CString} (hsym : IsSymbol sym)
    (hmem : ⟨none, none⟩ ∈ T sym) (n : ℕ) (values : List CString) :
    evalExpression T n sym () ≠ some (.ok values, ()) := by
  intro hrun
  cases n with
  | zero => cases hrun
  | succ n =>
    obtain ⟨-, ws, -, hws, -⟩ :=
      evalMacro_of_evalExprHelper hsym.splits not_mem_nil hmem hrun
    cases hws

/-- **A definition without a right-hand side**: there is an expression without values. -/
theorem exists_not_ok {sym : CString} {params : Option (List CString)}
    (hsym : IsSymbol sym) (hparams : params ≠ some []) (hmem : ⟨params, none⟩ ∈ T sym) :
    ∃ expr, ∀ n values, evalExpression T n expr () ≠ some (.ok values, ()) := by
  cases params with
  | none => exact ⟨sym, evalExpression_symbol_ne_ok hsym hmem⟩
  | some lhs =>
    obtain ⟨p, ps, rfl⟩ := exists_cons_of_ne_nil fun hnil => hparams (congrArg some hnil)
    have hahead : NoWordAhead (40 :: (List.replicate ps.length 44 ++ [41])) :=
      fun b hb => Option.some.inj hb ▸ rfl
    have hs := hsym.splits_append hahead
    refine ⟨sym ++ 40 :: (List.replicate ps.length 44 ++ [41]), fun n values hrun => ?_⟩
    cases n with
    | zero => cases hrun
    | succ n =>
      obtain ⟨-, ws, -, hws, -⟩ := evalMacro_of_evalExprHelper hs not_mem_nil hmem hrun
      rw [macroValues, parseArgs_commas] at hws
      dsimp only at hws
      rw [if_pos (by simp)] at hws
      obtain ⟨argsExpand, ⟨⟩, -, hfail⟩ := bind_eq_ok_iff.mp hws
      cases hfail

/-! ### The whole analysis -/

/-- The symbol table after some files, each by its name and its contents. -/
def tableOf (ignoreAbsolute : Bool) (files : List (CString × CString)) : SymbolTable :=
  .ofDefines (files.flatMap fun file => (parse ignoreAbsolute file.1 file.2).defines)

theorem resolvePath_ends (path : CString) (currdir : Directory) (searchdir : Option Directory)
    (searchlist : List Directory) :
    (resolvePath ignoreAbsolute fs path currdir searchdir searchlist).Ends IsNotCovered := by
  refine Prog.Ends.bind ?_ fun fp => ends_get.bind fun cache =>
    (ends_modify _).bind fun _ => ends_pure _
  rw [includepathMapIndex]
  split
  · exact ends_fail ⟨_, rfl⟩
  · exact ends_pure _

theorem resolveValue_ends (currdir searchdir : Directory) (quoteDirs angleDirs : List Directory)
    (val : CString) :
    (resolveValue ignoreAbsolute fs currdir searchdir quoteDirs angleDirs val).Ends
      IsNotCovered := by
  unfold resolveValue
  split
  · exact ends_pure _
  · split
    · exact .bind (resolvePath_ends _ _ _ _) fun _ => ends_pure _
    · exact .bind (resolvePath_ends _ _ _ _) fun _ => ends_pure _
    · exact ends_pure _

/-- What `ResolveExpr` raises, where every definition has a right-hand side. -/
theorem resolveExpr_covered {defines : List (CString × MacroDef)}
    (hT : (SymbolTable.ofDefines defines).Complete) (expr : CString)
    (currdir searchdir : Directory) (quoteDirs angleDirs : List Directory)
    (cache : BuildStatCache) :
    ∃ n r cache', resolveExpr ignoreAbsolute fs (.ofDefines defines) n expr currdir searchdir
      quoteDirs angleDirs cache = some (r, cache') ∧ Covered r := by
  obtain ⟨n, values, hrun⟩ := evalExpression_returns SymbolTable.keys_ofDefines hT expr
  have hlift : (evalExpression (.ofDefines defines) n expr).lift cache =
      some (.ok values, cache) := by
    rw [Prog.lift, hrun]
    rfl
  have hfiles : Prog.Ends IsNotCovered (do
      let found ← Prog.collect
        (resolveValue ignoreAbsolute fs currdir searchdir quoteDirs angleDirs) values.dedup
      pure (found.flatMap Prod.fst, (found.flatMap Prod.snd).toFinset)) :=
    (Prog.Ends.collect (resolveValue_ends currdir searchdir quoteDirs angleDirs) _).bind
      fun _ => ends_pure _
  obtain ⟨r, cache', hrest, hr⟩ := hfiles cache
  exact ⟨n, r, cache', (bind_of_ok hlift).trans hrest, hr⟩

/-- What `ResolveExpr` raises, where an expression has no values. -/
theorem resolveExpr_not_covered {expr : CString}
    (hno : ∀ n values, evalExpression T n expr () ≠ some (.ok values, ()))
    {currdir searchdir : Directory} {quoteDirs angleDirs : List Directory}
    {cache cache' : BuildStatCache} {n : ℕ}
    {r : Except PyExc (List (Option (Pair × CString)) × Finset CString)}
    (hrun : resolveExpr ignoreAbsolute fs T n expr currdir searchdir quoteDirs angleDirs cache =
      some (r, cache')) : ¬ Covered r := by
  intro hcovered
  have hlift : ∀ {r₁ cache₁}, (evalExpression T n expr).lift cache = some (r₁, cache₁) →
      evalExpression T n expr () = some (r₁, ()) := by
    intro r₁ cache₁ h
    obtain ⟨⟨r₂, ⟨⟩⟩, hrun2, heq⟩ := Option.map_eq_some_iff.mp h
    obtain ⟨rfl, -⟩ := Prod.mk.inj heq
    exact hrun2
  rcases bind_cases hrun with ⟨e, rfl, heval⟩ | ⟨values, cache₁, heval, -⟩
  · obtain ⟨message, rfl⟩ := hcovered e rfl
    rcases (evalExprHelper_raises n expr [] (hlift heval)).1 with h | h <;> cases h
  · exact hno n values (hlift heval)

/-- **Only `NotCoveredError` is raised, if nothing is missing**: whatever is parsed, and
whatever is evaluated then, is covered exactly if no directive that the parser gets to is an
include without an operand or a definition without a right-hand side. -/
theorem analysis_covered_iff (ignoreAbsolute : Bool) (fs : FileSystem)
    (files : List (CString × CString)) :
    ((∀ file ∈ files, Covered (parse ignoreAbsolute file.1 file.2).result) ∧
      ∀ expr currdir searchdir quoteDirs angleDirs cache, ∃ n r cache',
        resolveExpr ignoreAbsolute fs (tableOf ignoreAbsolute files) n expr currdir searchdir
          quoteDirs angleDirs cache = some (r, cache') ∧ Covered r) ↔
      ∀ file ∈ files, ∀ d ∈ reached ignoreAbsolute (directives file.2), d.IsWhole := by
  constructor
  · rintro ⟨hparse, hresolve⟩ file hfile
    have hoperands : ∀ d ∈ reached ignoreAbsolute (directives file.2),
        ∀ next, d ≠ .include next .missing := by
      rintro d hd next rfl
      obtain ⟨message, hcovered⟩ :=
        hparse file hfile .assertionError (parseLines_of_missing hd)
      cases hcovered
    refine fun d hd => ⟨hoperands d hd, ?_⟩
    rintro lhs rfl
    -- a macro without a right-hand side is in the table
    obtain ⟨sym, params, hdef, hsym, hparams⟩ := definesOf_of_reached hd
    have hmem : ⟨params, none⟩ ∈ tableOf ignoreAbsolute files sym := by
      refine SymbolTable.mem_ofDefines.mpr (mem_flatMap.mpr ⟨file, hfile, ?_⟩)
      rw [parse, (parseLines_of_operands hoperands).2]
      refine mem_append_right _ (mem_flatMap.mpr ⟨_, hd, ?_⟩)
      rw [hdef]
      exact mem_singleton_self _
    obtain ⟨expr, hno⟩ := exists_not_ok hsym hparams hmem
    obtain ⟨n, r, cache, hrun, hcovered⟩ := hresolve expr
      ⟨[], isDirectory_nil⟩ ⟨[], isDirectory_nil⟩ [] [] .empty
    exact resolveExpr_not_covered hno hrun hcovered
  · intro h
    have hdefines : ∀ file ∈ files, Covered (parse ignoreAbsolute file.1 file.2).result ∧
        (parse ignoreAbsolute file.1 file.2).defines =
          [] ++ (reached ignoreAbsolute (directives file.2)).flatMap definesOf :=
      fun file hfile => parseLines_of_operands fun d hd => (h file hfile d hd).1
    refine ⟨fun file hfile => (hdefines file hfile).1, resolveExpr_covered ?_⟩
    -- every macro in the table comes from a definition that is whole
    intro x df hdf hrhs
    obtain ⟨file, hfile, hmem⟩ := mem_flatMap.mp (SymbolTable.mem_ofDefines.mp hdf)
    rw [(hdefines file hfile).2, nil_append] at hmem
    obtain ⟨d, hd, hmem⟩ := mem_flatMap.mp hmem
    rcases d with ⟨next, operand⟩ | ⟨lhs, rhs⟩
    · cases hmem
    · obtain ⟨sym, params, hdef, -, -⟩ := definesOf_of_reached hd
      rw [hdef] at hmem
      obtain ⟨-, rfl⟩ := Prod.mk.inj (mem_singleton.mp hmem)
      obtain rfl : rhs = none := hrhs
      exact (h file hfile _ hd).2 lhs rfl

/-- **Two exceptions**: `#include` runs into an assertion, and after `#define A`, which is
parsed without an error, so does the expression `A`. -/
theorem analysis_not_covered :
    (parse false (lit "a.h") (lit "#include")).result = .error .assertionError ∧
      (parse false (lit "a.h") (lit "#define A")).result = .ok ⟨[], [], [], []⟩ ∧
      ∀ fs dir n r cache', resolveExpr false fs (tableOf false [(lit "a.h", lit "#define A")]) n
        (lit "A") dir dir [] [] .empty = some (r, cache') → ¬ Covered r := by
  have hmissing : Directive.include false .missing ∈
      reached false (directives (lit "#include")) := by decide +kernel
  have hparse : (parse false (lit "a.h") (lit "#define A")).result.toOption =
      some ⟨[], [], [], []⟩ := by decide +kernel
  have htable : tableOf false [(lit "a.h", lit "#define A")] (lit "A") = [⟨none, none⟩] := by
    decide +kernel
  refine ⟨parseLines_of_missing hmissing, ?_, fun fs dir n r cache' hrun => ?_⟩
  · cases hr : (parse false (lit "a.h") (lit "#define A")).result with
    | error e =>
      rw [hr] at hparse
      cases hparse
    | ok includes =>
      rw [hr] at hparse
      exact congrArg Except.ok (Option.some.inj hparse)
  · have hmem : ⟨none, none⟩ ∈ tableOf false [(lit "a.h", lit "#define A")] (lit "A") := by
      rw [htable]
      exact mem_singleton_self _
    exact resolveExpr_not_covered
      (evalExpression_symbol_ne_ok (by decide) hmem) hrun

end Distcc.IncludeServer
