import Mathlib.Data.List.DropRight
import Distcc.Arg.Slots

/-!
# Where the dependencies go

Model of `dcc_get_dotd_info` (`src/dotd.c`), which predicts the name of the file that the
compiler will write the dependencies of a source to. An option `-MF` names it, or else the
variable `DEPENDENCIES_OUTPUT` does; without both, the name is made from that of the output
or of the input, by giving it the extension `.d`.

The function has a loop of its own for the options, and leaves finding the input and the
output to `dcc_scan_args`. The two loops do not agree on what an operand is: for the first,
it is the word after `-MT`, `-MQ` and `-MF`, for the second that after `-o`, too. As long as
neither has read an `-o` they go in step, so that they agree on whether there is one
(`walkWords_dotdStep`).

The extension is searched for from the end of the name, and not only in its last component.
What is looked at in an empty name, one byte in front of it, is a parameter. Memory suffices.
-/

namespace Distcc

open CString List

/-! ### The function -/

/-- The variables of the loop in `dcc_get_dotd_info`. -/
structure DotdScan where
  /-- `*needs_dotd` -/
  needsDotd : Bool
  /-- `*sets_dotd_target` -/
  setsDotdTarget : Bool := false
  /-- `deps_output` -/
  depsOutput : Option CString := none
  /-- `has_dash_o` -/
  hasDashO : Bool := false
  deriving DecidableEq, Repr

/-- Options `-M…` other than `-MQ` and `-MT` imply that there will be a file. -/
def DotdScan.needs (s : DotdScan) (a : CString) : DotdScan :=
  { s with needsDotd := s.needsDotd || startsWith (lit "-M") a }

/-- The body of the loop in `dcc_get_dotd_info`. -/
def dotdStep (s : DotdScan) (a : CString) : Body CString DotdScan Empty :=
  if a = lit "-MT" ∨ a = lit "-MQ" then .move (.skip { s with setsDotdTarget := true })
  else if a = lit "-MF" then .look fun slot => .skip { s.needs a with depsOutput := slot }
  else if startsWith (lit "-MF") a then
    .move (.next { s.needs a with depsOutput := some (a.drop 3) })
  else if a = lit "-o" then .move (.next { s.needs a with hasDashO := true })
  else .move (.next (s.needs a))

/-- A name, with `.d` for its extension. -/
def dotdName (stray : UInt8) (name : CString) : CString :=
  match dccFindExtension name with
  | some extension => name.take (name.length - extension.length) ++ lit ".d"
  | none =>
    -- `tmp_dotd_fname[strlen(tmp_dotd_fname) - 1]`
    if name.getLast?.getD stray = '.'.toUInt8 then name ++ lit "d" else name ++ lit ".d"

/-- What `dcc_get_dotd_info` finds out. -/
structure DotdInfo where
  /-- `*dotd_fname` -/
  dotdFname : CString
  /-- `*needs_dotd` -/
  needsDotd : Bool
  /-- `*sets_dotd_target` -/
  setsDotdTarget : Bool
  /-- `*dotd_target` -/
  dotdTarget : Option CString
  deriving DecidableEq, Repr

/-- The part of `dcc_get_dotd_info` after its loop. `envVar` is what `DEPENDENCIES_OUTPUT` is
set to, and `fresh` what the slots hold that `dcc_scan_args` adds. -/
def dotdRest (envVar : Option CString) (stray : UInt8) (fresh argv : Argv) :
    DotdScan ⊕ Empty → Prog Unit Fault DotdInfo
  | .inl s =>
    match s.depsOutput with
    | some depsOutput => pure ⟨depsOutput, s.needsDotd, s.setsDotdTarget, none⟩
    | none =>
      match envVar with
      | some depsOutput =>
        pure ⟨depsOutput.takeWhile (· ≠ ' '.toUInt8), s.needsDotd, s.setsDotdTarget,
          (strchr ' '.toUInt8 depsOutput).map List.tail⟩
      | none => do
        -- the value that is returned is not looked at
        let outcome ← dccScanArgsAt (terminated (wordsOf argv) fresh)
        match if s.hasDashO then outcome.output else outcome.input with
        -- `strdup(NULL)`
        | none => Prog.fail .null
        | some name => pure ⟨dotdName stray name, s.needsDotd, s.setsDotdTarget, none⟩

/-- `dcc_get_dotd_info` -/
def dccGetDotdInfo (envVar : Option CString) (stray : UInt8) (fresh argv : Argv) :
    Prog Unit Fault DotdInfo :=
  walkSlots dotdStep argv { needsDotd := envVar.isSome } >>= dotdRest envVar stray fresh argv

/-! ### Staying inside the vector -/

/-- The options `dcc_get_dotd_info` steps over the next word for. -/
def dotdOperand (a : CString) : Bool := (["-MT", "-MQ", "-MF"].map lit).contains a

variable {a : CString} {words : List CString}

theorem dotdOperand_iff :
    dotdOperand a = true ↔ (a = lit "-MT" ∨ a = lit "-MQ") ∨ a = lit "-MF" := by
  simp [dotdOperand, or_assoc]

theorem walkWords_dotdStep_eq_none_iff (words : List CString) (s : DotdScan) :
    walkWords dotdStep words s = none ↔ Dangles dotdOperand words := by
  refine walkWords_eq_none_iff ?_ ?_
  · intro s a slot ha
    rw [dotdStep]
    rcases dotdOperand_iff.mp ha with hop | rfl
    · rw [if_pos hop]
      exact ⟨_, rfl⟩
    · exact ⟨_, rfl⟩
  · intro s a slot ha
    have hop := mt dotdOperand_iff.mpr (ne_true_of_eq_false ha)
    rw [not_or] at hop
    rw [dotdStep, if_neg hop.1, if_neg hop.2]
    split
    · exact ⟨_, rfl⟩
    · split
      · exact ⟨_, rfl⟩
      · exact ⟨_, rfl⟩

/-- `dcc_get_dotd_info` reads on behind the vector in its own loop, or has `dcc_scan_args` do
so. -/
theorem inside_dccGetDotdInfo_iff {compiler : CString} {rest : List CString}
    (h : isDash compiler = false) (hscan : ¬ScanOverruns (compiler :: rest))
    (envVar : Option CString) (stray : UInt8) :
    (Inside fun outside : Argv × Argv =>
        dccGetDotdInfo envVar stray outside.1 (terminated (compiler :: rest) outside.2)) ↔
      ¬Dangles dotdOperand (compiler :: rest) := by
  refine (inside_walkSlots_bind_iff (fun _ => rfl) ⟨([], []), rfl⟩ ?_).trans
    (not_congr (walkWords_dotdStep_eq_none_iff _ _))
  rintro (s | s) -
  · simp only [dotdRest, wordsOf_terminated]
    cases s.depsOutput with
    | some depsOutput => exact inside_pure _
    | none =>
      cases envVar with
      | some depsOutput => exact inside_pure _
      | none =>
        refine (((inside_dccScanArgsAt_iff h).mpr hscan).comp Prod.fst).bind fun outcome => ?_
        cases if s.hasDashO then outcome.output else outcome.input with
        | none => exact inside_fail nofun
        | some name => exact inside_pure _
  · exact s.elim

/-! ### What the name should be -/

/-- The last component of a path. -/
def lastComponent (name : CString) : CString := name.rtakeWhile (· ≠ '/'.toUInt8)

/-- A name with `d` for what is after its last dot, which it gets if it has none. -/
def withExtensionD (name : CString) : CString :=
  if '.'.toUInt8 ∈ name then name.rdropWhile (· ≠ '.'.toUInt8) ++ lit "d" else name ++ lit ".d"

/-- **The name of the file for the dependencies**, made from that of another file: it is in
the same directory, and the extension of its last component is `.d`. -/
def depsName (name : CString) : CString :=
  name.rdropWhile (· ≠ '/'.toUInt8) ++ withExtensionD (lastComponent name)

example : depsName (lit "out.dir/foo") = lit "out.dir/foo.d" := by decide

theorem rdropWhile_ne_append_cons {c : UInt8} (p : CString) {u : CString} (h : c ∉ u) :
    (p ++ c :: u).rdropWhile (· ≠ c) = p ++ [c] := by
  induction u using List.reverseRecOn with
  | nil => exact rdropWhile_concat_neg _ _ _ (by simp)
  | append_singleton u b ih =>
    rw [mem_append, not_or, mem_singleton] at h
    have hb : decide (b ≠ c) = true := decide_eq_true (Ne.symm h.2)
    rw [← cons_append, ← append_assoc]
    exact (rdropWhile_concat_pos (fun b => decide (b ≠ c)) (p ++ c :: u) b hb).trans (ih h.1)

/-- What the function does to a name, without regard to its components. -/
theorem dotdName_eq {stray : UInt8} {name : CString} (h : name = [] → stray ≠ '.'.toUInt8) :
    dotdName stray name = withExtensionD name := by
  cases hdot : strrchr '.'.toUInt8 name with
  | none =>
    have hmem : '.'.toUInt8 ∉ name := strrchr_eq_none_iff.mp hdot
    have hlast : name.getLast?.getD stray ≠ '.'.toUInt8 := by
      rcases eq_nil_or_concat' name with rfl | ⟨init, b, rfl⟩
      · exact h rfl
      · rw [getLast?_concat, Option.getD_some]
        rintro rfl
        exact hmem (mem_append_right _ (mem_singleton_self _))
    simp only [dotdName, dccFindExtension, hdot]
    rw [if_neg hlast, withExtensionD, if_neg hmem]
  | some t =>
    obtain ⟨p, u, rfl, rfl, hu⟩ := strrchr_eq_some hdot
    rw [withExtensionD, if_pos (mem_append_right p mem_cons_self),
      rdropWhile_ne_append_cons p hu]
    by_cases hempty : u = []
    · subst hempty
      simp [dotdName, dccFindExtension, hdot]
    · have hext : dccFindExtension (p ++ '.'.toUInt8 :: u) = some ('.'.toUInt8 :: u) := by
        rw [dccFindExtension, hdot]
        exact if_neg hempty
      simp only [dotdName, hext, length_append, Nat.add_sub_cancel, take_left',
        append_assoc]
      rfl

/-- The empty name, with a dot in front of it. -/
theorem dotdName_nil_ne : dotdName '.'.toUInt8 [] ≠ depsName [] := by decide

theorem withExtensionD_append (dir : CString) {c : CString} (h : '.'.toUInt8 ∈ c) :
    withExtensionD (dir ++ c) = dir ++ withExtensionD c := by
  obtain ⟨t, ht⟩ := Option.ne_none_iff_exists'.mp (mt strrchr_eq_none_iff.mp (not_not.mpr h))
  obtain ⟨p, u, rfl, rfl, hu⟩ := strrchr_eq_some ht
  rw [withExtensionD, if_pos (mem_append_right dir h), withExtensionD, if_pos h,
    ← append_assoc, rdropWhile_ne_append_cons _ hu, rdropWhile_ne_append_cons _ hu,
    append_assoc, append_assoc, append_assoc]

/-- **The components of a name do not matter** if a dot is in the last one, or nowhere. -/
theorem withExtensionD_eq_depsName_iff (name : CString) :
    withExtensionD name = depsName name ↔
      ('.'.toUInt8 ∈ name → '.'.toUInt8 ∈ lastComponent name) := by
  have hname : name.rdropWhile (· ≠ '/'.toUInt8) ++ lastComponent name = name :=
    rdropWhile_append_rtakeWhile ..
  rw [depsName]
  by_cases hlast : '.'.toUInt8 ∈ lastComponent name
  · rw [← withExtensionD_append _ hlast, hname]
    exact iff_of_true rfl fun _ => hlast
  · rw [withExtensionD.eq_def (lastComponent name), if_neg hlast, ← append_assoc, hname,
      withExtensionD]
    split_ifs with hmem
    · refine iff_of_false (fun heq => ?_) (fun himp => hlast (himp hmem))
      -- a dot with something after it is shorter than the name
      have hle := (List.rdropWhile_prefix (· ≠ '.'.toUInt8) (l := name)).length_le
      have hlen := congrArg List.length heq
      simp only [length_append] at hlen
      have hd : (lit "d").length = 1 := by decide
      have hdotd : (lit ".d").length = 2 := by decide
      omega
    · exact iff_of_true rfl fun h => absurd h hmem

/-- The words that are read as words of their own. -/
def ownWords : Mode → List CString → List CString
  | _, [] => []
  | m, a :: rest => (if m = .word then [a] else []) ++ ownWords (readWord m a).2 rest

/-- **The command names an output** by an option, in one word or in two. -/
def NamesOutput (words : List CString) : Prop :=
  ∃ a ∈ ownWords .word words, startsWith (lit "-o") a = true
deriving Decidable

/-- What the loop does without a `-MF`. -/
theorem dotdStep_cases (hMF : startsWith (lit "-MF") a = false) (s : DotdScan)
    (slot : Option CString) :
    (a = lit "-MT" ∨ a = lit "-MQ") ∧
        (dotdStep s a).after slot = .skip { s with setsDotdTarget := true } ∨
      a = lit "-o" ∧ (dotdStep s a).after slot = .next { s.needs a with hasDashO := true } ∨
      scansOperand a = false ∧ (dotdStep s a).after slot = .next (s.needs a) := by
  have hne : a ≠ lit "-MF" := by
    rintro rfl
    cases hMF
  by_cases hop : a = lit "-MT" ∨ a = lit "-MQ"
  · exact .inl ⟨hop, by rw [dotdStep, if_pos hop]; rfl⟩
  · have hstep : dotdStep s a =
        if a = lit "-o" then .move (.next { s.needs a with hasDashO := true })
        else .move (.next (s.needs a)) := by
      rw [dotdStep, if_neg hop, if_neg hne, if_neg (ne_true_of_eq_false hMF)]
    by_cases ho : a = lit "-o"
    · exact .inr (.inl ⟨ho, by rw [hstep, if_pos ho]; rfl⟩)
    · refine .inr (.inr ⟨?_, by rw [hstep, if_neg ho]; rfl⟩)
      simp only [not_or] at hop
      simp [scansOperand, hne, hop, ho]

theorem readWord_snd_eq_word (h : scansOperand a = false) : (readWord .word a).2 = .word := by
  by_contra hne
  exact absurd (readWord_snd_ne_word .word a) (by simp [hne, h])

/-- **The loop finds an `-o` where the scanner reads one.** Before the first, they go in
step. -/
theorem walkWords_dotdStep {s s' : DotdScan} (hMF : ∀ a ∈ words, startsWith (lit "-MF") a = false)
    (h : walkWords dotdStep words s = some (.inl s')) :
    s'.depsOutput = s.depsOutput ∧
      s'.hasDashO = (s.hasDashO || decide (lit "-o" ∈ ownWords .word words)) := by
  fun_induction walkWords dotdStep words s with
  | case1 s =>
    cases h
    simp [ownWords]
  | case2 a rest s s₁ hmove ih =>
    rw [forall_mem_cons] at hMF
    obtain ⟨hdeps, hdash⟩ := ih hMF.2 h
    obtain ⟨-, hskip⟩ | ⟨rfl, hnext⟩ | ⟨hop, hnext⟩ := dotdStep_cases hMF.1 s rest.head?
    · cases hmove.symm.trans hskip
    · cases hmove.symm.trans hnext
      refine ⟨hdeps, hdash.trans ?_⟩
      simp [ownWords]
    · cases hmove.symm.trans hnext
      refine ⟨hdeps, hdash.trans ?_⟩
      have ho : lit "-o" ≠ a := by
        rintro rfl
        cases hop
      simp [ownWords, readWord_snd_eq_word hop, DotdScan.needs, ho]
  | case3 a s s' hmove => cases h
  | case4 a s s₁ b rest hmove ih =>
    rw [forall_mem_cons, forall_mem_cons] at hMF
    obtain ⟨hdeps, hdash⟩ := ih hMF.2.2 h
    obtain ⟨hop, hskip⟩ | ⟨-, hnext⟩ | ⟨-, hnext⟩ := dotdStep_cases hMF.1 s (some b)
    · cases hmove.symm.trans hskip
      refine ⟨hdeps, hdash.trans ?_⟩
      have hread : (readWord .word a).2 = .skip := by
        rcases hop with rfl | rfl <;> decide
      have ho : lit "-o" ≠ a := by
        rcases hop with rfl | rfl <;> decide
      simp [ownWords, hread, ho]
    · cases hmove.symm.trans hnext
    · cases hmove.symm.trans hnext
  | case5 a rest s r hmove => exact r.elim

/-- An input is a source. -/
theorem dccIsSource_of_mem_inputs {i : CString} {m : Mode}
    (h : i ∈ inputs (marks m words)) : dccIsSource i = true := by
  induction words generalizing m with
  | nil => cases h
  | cons a words ih =>
    rw [marks_cons, inputs_append, mem_append] at h
    rcases h with h | h
    · cases hm : m with
      | skip => rw [hm] at h; cases h
      | output => rw [hm] at h; cases h
      | word =>
        rw [hm] at h
        cases hdash : isDash a with
        | true => rw [inputs_readWord_dash hdash] at h; cases h
        | false =>
          rw [readWord, hdash, if_neg Bool.false_ne_true] at h
          split_ifs at h with hsource hobject
          · obtain rfl := mem_singleton.mp h
            exact hsource
          · cases h
          · cases h
    · exact ih h

/-- The last dot of a source is that of its extension. -/
theorem dot_mem_lastComponent {i : CString} (h : dccIsSource i = true) :
    '.'.toUInt8 ∈ lastComponent i := by
  rw [dccIsSource, hasExten] at h
  cases hext : dccFindExtension i with
  | none => rw [hext] at h; cases h
  | some dot =>
    rw [hext] at h
    obtain ⟨p, u, rfl, rfl⟩ : ∃ p u, i = p ++ dot ∧ dot = '.'.toUInt8 :: u := by
      rw [dccFindExtension] at hext
      cases hdot : strrchr '.'.toUInt8 i with
      | none => rw [hdot] at hext; cases hext
      | some t =>
        obtain ⟨p, u, hi, ht, -⟩ := strrchr_eq_some hdot
        rw [hdot] at hext
        dsimp only at hext
        split at hext
        · cases hext
        · obtain rfl := Option.some.inj hext
          exact ⟨p, u, hi, ht⟩
    have hslash : ∀ e ∈ sourceExtens, ∀ b ∈ '.'.toUInt8 :: e, decide (b ≠ '/'.toUInt8) = true := by
      decide
    have hu := hslash u (contains_iff_mem.mp h)
    rw [lastComponent, List.rtakeWhile, reverse_append,
      takeWhile_append_of_pos fun b hb => hu b (mem_reverse.mp hb)]
    simp

theorem dotdName_of_dccIsSource {i : CString} (h : dccIsSource i = true) (stray : UInt8) :
    dotdName stray i = depsName i := by
  have hne : i ≠ [] := ne_nil_of_mem (dot_mem_of_dccIsSource h)
  rw [dotdName_eq fun hnil => absurd hnil hne, withExtensionD_eq_depsName_iff]
  exact fun _ => dot_mem_lastComponent h

theorem dotdName_eq_depsName_iff (stray : UInt8) (o : CString) :
    dotdName stray o = depsName o ↔
      (o = [] → stray ≠ '.'.toUInt8) ∧ ('.'.toUInt8 ∈ o → '.'.toUInt8 ∈ lastComponent o) := by
  by_cases h : o = [] → stray ≠ '.'.toUInt8
  · rw [dotdName_eq h, withExtensionD_eq_depsName_iff, and_iff_right h]
  · obtain ⟨rfl, rfl⟩ : o = [] ∧ stray = '.'.toUInt8 := by
      rwa [Classical.not_imp, not_ne_iff] at h
    exact iff_of_false dotdName_nil_ne fun hand => h hand.1

/-- What is found for an accepted command without `-MF`. -/
theorem dccGetDotdInfo_eq {words newargv : List CString} {i o : CString} {s : DotdScan}
    (hscan : dccScanArgs words = .ok ⟨i, o, newargv⟩)
    (hMF : ∀ a ∈ words, startsWith (lit "-MF") a = false)
    (hwalk : walkWords dotdStep words { needsDotd := false } = some (.inl s)) (stray : UInt8)
    (fresh behind : Argv) :
    dccGetDotdInfo none stray fresh (terminated words behind) () =
      some (.ok ⟨dotdName stray (if lit "-o" ∈ ownWords .word words then o else i), s.needsDotd,
        s.setsDotdTarget, none⟩, ()) := by
  obtain ⟨hdeps, hdash⟩ := walkWords_dotdStep hMF hwalk
  rw [dccGetDotdInfo]
  refine (Prog.bind_of_ok (walkSlots_of_some hwalk behind)).trans ?_
  simp only [dotdRest, hdeps, wordsOf_terminated]
  refine (Prog.bind_of_ok (dccScanArgsAt_of_ok hscan fresh)).trans ?_
  by_cases ho : lit "-o" ∈ ownWords .word words
  · simp [hdash, ho]
  · simp [hdash, ho]

/-- **The name is the right one**: whatever is behind the vector, the file is found, under the
name of the output if the command names one, or else under that of the input. -/
def DotdFound (stray : UInt8) (words : List CString) (i o : CString) : Prop :=
  ∀ fresh behind, ∃ info,
    dccGetDotdInfo none stray fresh (terminated words behind) () = some (.ok info, ()) ∧
      info.dotdFname = depsName (if NamesOutput words then o else i)

/-- **When the name is the right one**, for a command that is accepted and has no `-MF`. -/
theorem dotdFound_iff {words newargv : List CString} {i o : CString} {stray : UInt8}
    (hscan : dccScanArgs words = .ok ⟨i, o, newargv⟩)
    (hMF : ∀ a ∈ words, startsWith (lit "-MF") a = false) :
    DotdFound stray words i o ↔
      ¬Dangles dotdOperand words ∧
        (lit "-o" ∈ ownWords .word words →
          (o = [] → stray ≠ '.'.toUInt8) ∧ ('.'.toUInt8 ∈ o → '.'.toUInt8 ∈ lastComponent o)) ∧
        (NamesOutput words → lit "-o" ∉ ownWords .word words → depsName i = depsName o) := by
  rcases hwalk : walkWords dotdStep words { needsDotd := false } with _ | s | s
  · -- the loop reads on behind the vector
    have hdangles := (walkWords_dotdStep_eq_none_iff _ _).mp hwalk
    refine iff_of_false (fun hfound => ?_) (fun hand => hand.1 hdangles)
    obtain ⟨info, hrun, -⟩ := hfound [] []
    cases hrun.symm.trans (Prog.bind_of_error (walkSlots_of_none hwalk))
  · have hdangles : ¬Dangles dotdOperand words := fun hd => by
      rw [(walkWords_dotdStep_eq_none_iff _ _).mpr hd] at hwalk
      cases hwalk
    have hinput : dotdName stray i = depsName i := by
      refine dotdName_of_dccIsSource (@dccIsSource_of_mem_inputs words i .word ?_) _
      rw [inputs_of_dccScanArgs hscan]
      exact mem_singleton_self i
    have hfound : DotdFound stray words i o ↔
        dotdName stray (if lit "-o" ∈ ownWords .word words then o else i) =
          depsName (if NamesOutput words then o else i) := by
      constructor
      · intro h
        obtain ⟨info, hrun, hname⟩ := h [] []
        rw [dccGetDotdInfo_eq hscan hMF hwalk] at hrun
        cases hrun
        exact hname
      · intro hname fresh behind
        exact ⟨_, dccGetDotdInfo_eq hscan hMF hwalk stray fresh behind, hname⟩
    rw [hfound, and_iff_right hdangles]
    by_cases ho : lit "-o" ∈ ownWords .word words
    · have hnames : NamesOutput words := ⟨_, ho, by decide⟩
      rw [if_pos ho, if_pos hnames, dotdName_eq_depsName_iff]
      simp only [ho, hnames, forall_const, not_true, false_implies, and_true]
    · rw [if_neg ho, hinput]
      by_cases hnames : NamesOutput words
      · simp [ho, hnames]
      · simp [ho, hnames]
  · exact s.elim

/-- A command that names its output in two words. -/
def separateOutput : List CString :=
  ["gcc", "-MD", "-c", "hello.c", "-o", "build/hello.o"].map lit

theorem dotdFound_iff_separate :
    DotdFound 0 separateOutput (lit "hello.c") (lit "build/hello.o") := by
  have hscan : dccScanArgs separateOutput =
      .ok ⟨lit "hello.c", lit "build/hello.o", separateOutput⟩ := by decide
  exact (dotdFound_iff hscan (by decide)).mpr (by decide)

/-- A command that names its output in one word. -/
def attachedOutput : List CString := ["gcc", "-MD", "-c", "hello.c", "-obuild/hello.o"].map lit

/-- The compiler writes `build/hello.d`, and `hello.d` is looked for. -/
theorem attachedOutput_not_found :
    dccScanArgs attachedOutput =
        .ok ⟨lit "hello.c", lit "build/hello.o", attachedOutput⟩ ∧
      ¬DotdFound 0 attachedOutput (lit "hello.c") (lit "build/hello.o") := by
  refine ⟨by decide, fun h => ?_⟩
  obtain ⟨info, hrun, hname⟩ := h [] []
  have hinfo : dccGetDotdInfo none 0 [] (terminated attachedOutput []) () =
      some (.ok ⟨lit "hello.d", true, false, none⟩, ()) := by decide
  cases hrun.symm.trans hinfo
  exact absurd hname (by decide)

end Distcc
