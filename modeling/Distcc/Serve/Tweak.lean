import Mathlib.Data.List.MinMax
import Distcc.Arg.Slots
import Distcc.Serve.Job

/-!
# The operands of the include options

On the server, names of directories and files that are absolute on the client are taken
below the directory that its files were sent to. `tweak_include_arguments_for_server`
(`src/serve.c`) does so for the operands of nine options, which may be words of their own or
be attached to the option.

A word is compared with the options one after the other, and the first that it begins with is
taken. As `-iwithprefix` is in the list before `-iwithprefixbefore`, the latter is never
found: what is attached to it, and the word after it, are not rewritten, and that word is read
as an option if it looks like one. What the function should do is
`tweakWords` with the longest option that a word begins with; what it does is the
same with the first one (`walkWords_tweakStep`). The two readings can only go out of
step at a `-iwithprefixbefore`, and where they fall into step again is
`Settles`. They give the same if nothing absolute is there
(`tweaksOperands_iff`).
-/

namespace Distcc

open CString List

variable (rootDir : CString) {a : CString} {words : List CString}

/-! ### The function -/

/-- The option that `tweak_include_arguments_for_server` finds a word to begin with. -/
def firstOption (a : CString) : Option CString := includeOptions.find? (startsWith · a)

/-- The body of the loop in `tweak_include_arguments_for_server`, with the slots that are
behind it. -/
def tweakStep (done : Argv) (a : CString) : Body CString Argv Empty :=
  match firstOption a with
  | none => .move (.next (done ++ [some a]))
  | some option =>
    if a = option then .look fun slot => .skip (done ++ [some a, slot.map (underRoot rootDir)])
    else .move (.next (done ++ [some (option ++ underRoot rootDir (a.drop option.length))]))

/-- `tweak_include_arguments_for_server` gives the vector as it is in the end. -/
def tweakIncludeArgumentsForServerAt (argv : Argv) : Prog Unit Fault Argv := do
  match ← walkSlots (tweakStep rootDir) argv [] with
  | .inl done => pure (done ++ argv.drop done.length)

/-! ### Reading options -/

/-- The longest of the options that a word begins with. -/
def longestOption (a : CString) : Option CString :=
  (includeOptions.filter (startsWith · a)).argmax List.length

section Reading

variable (option : CString → Option CString)

/-- Is a word an option that takes the next word for its operand? -/
def takesNext (a : CString) : Bool := option a == some a

/-- What becomes of a word, which may be an operand. -/
def tweakWord (operand : Bool) (a : CString) : CString :=
  if operand then underRoot rootDir a
  else match option a with
  | none => a
  | some o => o ++ underRoot rootDir (a.drop o.length)

/-- **The operands of the options are rewritten**, and nothing else. -/
def tweakWords : Bool → List CString → List CString
  | _, [] => []
  | operand, a :: rest =>
    tweakWord rootDir option operand a :: tweakWords (!operand && takesNext option a) rest

variable {option} {o : CString}

theorem takesNext_of_none (h : option a = none) : takesNext option a = false := by
  rw [takesNext, h]
  rfl

theorem takesNext_of_ne (h : option a = some o) (hne : a ≠ o) : takesNext option a = false := by
  rw [takesNext, h]
  simpa using Ne.symm hne

theorem takesNext_iff : takesNext option a = true ↔ option a = some a := beq_iff_eq

@[simp] theorem underRoot_nil : underRoot rootDir [] = [] := rfl

theorem tweakWord_operand : tweakWord rootDir option true a = underRoot rootDir a := rfl

theorem tweakWord_of_none (h : option a = none) : tweakWord rootDir option false a = a := by
  simp [tweakWord, h]

theorem tweakWord_of_some (h : option a = some o) :
    tweakWord rootDir option false a = o ++ underRoot rootDir (a.drop o.length) := by
  simp [tweakWord, h]

theorem tweakWord_of_takesNext (h : takesNext option a = true) :
    tweakWord rootDir option false a = a := by
  rw [tweakWord_of_some rootDir (takesNext_iff.mp h), drop_length, underRoot_nil,
    append_nil]

end Reading

example : tweakWords (lit "/srv") longestOption false (["-I", "/usr", "-I/opt", "/tmp"].map lit) =
    ["-I", "/srv/usr", "-I/srv/opt", "/tmp"].map lit := by decide

/-- The walk along the slots reads the first options. -/
theorem walkWords_tweakStep (words : List CString) (done : Argv) :
    walkWords (tweakStep rootDir) words done =
      if pending (takesNext firstOption) false words then none
      else some (.inl (done ++ (tweakWords rootDir firstOption false words).map some)) := by
  fun_induction tweakIncludeArgumentsForServer rootDir words generalizing done with
  | case1 => simp [walkWords, tweakWords]
  | case2 a rest hfind ih =>
    have hopt : firstOption a = none := hfind
    simp [walkWords, tweakStep, hopt, Body.after, ih, tweakWords, takesNext_of_none hopt,
      tweakWord_of_none rootDir hopt]
  | case3 a hfind =>
    have hopt : firstOption a = some a := hfind
    simp [walkWords, tweakStep, hopt, Body.after, takesNext_iff.mpr hopt]
  | case4 a b rest hfind ih =>
    have hopt : firstOption a = some a := hfind
    have hnext := takesNext_iff.mpr hopt
    simp [walkWords, tweakStep, hopt, Body.after, ih, tweakWords, hnext, tweakWord]
  | case5 a rest option hfind hne ih =>
    have hopt : firstOption a = some option := hfind
    simp [walkWords, tweakStep, hopt, hne, Body.after, ih, tweakWords, takesNext_of_ne hopt hne,
      tweakWord_of_some rootDir hopt]

/-! ### The first option and the longest -/

/-- The option that is not found. -/
def withPrefixBefore : CString := lit "-iwithprefixbefore"

theorem mem_of_firstOption {a o : CString} (h : firstOption a = some o) :
    o ∈ includeOptions ∧ startsWith o a = true := by
  rw [firstOption] at h
  exact ⟨mem_of_find?_eq_some h, by simpa using find?_some h⟩

theorem mem_of_longestOption {a o : CString} (h : longestOption a = some o) :
    o ∈ includeOptions ∧ startsWith o a = true :=
  mem_filter.mp (argmax_mem h)

theorem firstOption_of_startsWith (h : startsWith withPrefixBefore a = true) :
    firstOption a = some (lit "-iwithprefix") := by
  obtain ⟨t, rfl⟩ := startsWith_iff.mp h
  rfl

/-- An option that begins with another. -/
theorem eq_of_startsWith : ∀ o ∈ includeOptions, ∀ o' ∈ includeOptions,
    startsWith o o' = true → o = o' ∨ o' = withPrefixBefore := by decide

/-- A word begins with one option at most, but for `-iwithprefixbefore`. -/
theorem option_unique {a o o' : CString} (ho : o ∈ includeOptions ∧ startsWith o a = true)
    (ho' : o' ∈ includeOptions ∧ startsWith o' a = true)
    (h : startsWith withPrefixBefore a = false) : o = o' := by
  wlog hle : o.length ≤ o'.length generalizing o o'
  · exact (this ho' ho (Nat.le_of_not_le hle)).symm
  · have hstarts : startsWith o o' = true :=
      isPrefixOf_iff_prefix.mpr (prefix_of_prefix_length_le
        (List.isPrefixOf_iff_prefix.mp ho.2) (List.isPrefixOf_iff_prefix.mp ho'.2) hle)
    obtain rfl | rfl := eq_of_startsWith o ho.1 o' ho'.1 hstarts
    · rfl
    · exact absurd ho'.2 (ne_true_of_eq_false h)

theorem longestOption_of_startsWith (h : startsWith withPrefixBefore a = true) :
    longestOption a = some withPrefixBefore := by
  have hmem : withPrefixBefore ∈ includeOptions.filter (startsWith · a) :=
    mem_filter.mpr ⟨by decide, h⟩
  obtain ⟨o, ho⟩ := Option.ne_none_iff_exists'.mp
    (mt argmax_eq_none.mp (ne_nil_of_mem hmem) : longestOption a ≠ none)
  have hlongest : ∀ o ∈ includeOptions,
      withPrefixBefore.length ≤ o.length → o = withPrefixBefore := by decide
  rw [ho, hlongest o (mem_of_longestOption ho).1 (le_of_mem_argmax hmem ho)]

theorem longestOption_eq_firstOption (h : startsWith withPrefixBefore a = false) :
    longestOption a = firstOption a := by
  cases hfirst : firstOption a with
  | none =>
    rw [longestOption, argmax_eq_none, filter_eq_nil_iff]
    rw [firstOption, find?_eq_none] at hfirst
    exact hfirst
  | some o =>
    have hmem : o ∈ includeOptions.filter (startsWith · a) :=
      mem_filter.mpr (mem_of_firstOption hfirst)
    obtain ⟨o', ho'⟩ := Option.ne_none_iff_exists'.mp
      (mt argmax_eq_none.mp (ne_nil_of_mem hmem) : longestOption a ≠ none)
    rw [ho', option_unique (mem_of_longestOption ho') (mem_of_firstOption hfirst) h]

/-! ### Two readings at once -/

/-- An option of the list is found where there is one. -/
def FindsOptions (option : CString → Option CString) : Prop :=
  ∀ a o, option a = some o → o ∈ includeOptions ∧ startsWith o a = true

/-- **Nothing in a word is absolute**, neither the word nor what is attached to an option. -/
def Relative (option : CString → Option CString) (a : CString) : Prop :=
  a.head? ≠ some '/'.toUInt8 ∧
    ∀ o, option a = some o → (a.drop o.length).head? ≠ some '/'.toUInt8

/-- **Two readings fall into step again.** One of them takes the first word for a word of its
own, the other for an operand. They change roles at each option, and are in step behind the
first word that is none, in which nothing is rewritten. -/
def Settles : (own other : CString → Option CString) → List CString → Prop
  | _, _, [] => False
  | own, other, a :: rest =>
    if takesNext own a then Settles other own rest else rootDir = [] ∨ Relative own a

theorem underRoot_eq_self_iff :
    underRoot rootDir a = a ↔ rootDir = [] ∨ a.head? ≠ some '/'.toUInt8 := by
  rw [underRoot]
  split_ifs with h
  · simp [h]
  · simp [h]

section Words

variable {option : CString → Option CString} (hfinds : FindsOptions option)
include hfinds

theorem head?_of_finds {o : CString} (h : option a = some o) : a.head? ≠ some '/'.toUInt8 := by
  have hdash : ∀ o ∈ includeOptions, o.head? = some '-'.toUInt8 := by decide
  obtain ⟨ho, hstarts⟩ := hfinds a o h
  obtain ⟨t, rfl⟩ := startsWith_iff.mp hstarts
  rw [head?_append, hdash o ho, Option.some_or]
  decide

/-- An option is not rewritten, whichever way it is read. -/
theorem tweakWord_eq_underRoot_of_takesNext
    (h : takesNext option a = true) : tweakWord rootDir option false a = underRoot rootDir a := by
  rw [tweakWord_of_takesNext rootDir h,
    (underRoot_eq_self_iff rootDir).mpr (.inr (head?_of_finds hfinds (takesNext_iff.mp h)))]

theorem tweakWord_eq_underRoot_iff :
    tweakWord rootDir option false a = underRoot rootDir a ↔ rootDir = [] ∨ Relative option a := by
  cases hopt : option a with
  | none =>
    rw [tweakWord_of_none rootDir hopt, eq_comm, underRoot_eq_self_iff, Relative, hopt]
    simp
  | some o =>
    have hhead := head?_of_finds hfinds hopt
    obtain ⟨t, rfl⟩ := startsWith_iff.mp (hfinds a o hopt).2
    have hrelative : Relative option (o ++ t) ↔ t.head? ≠ some '/'.toUInt8 := by
      rw [Relative, and_iff_right hhead]
      simp only [hopt, Option.some.injEq, forall_eq', drop_left]
    rw [tweakWord_of_some rootDir hopt, (underRoot_eq_self_iff rootDir).mpr (.inr hhead),
      drop_left, append_cancel_left_eq, underRoot_eq_self_iff, hrelative]

end Words

theorem finds_firstOption : FindsOptions firstOption := fun _ _ h => mem_of_firstOption h

theorem finds_longestOption : FindsOptions longestOption := fun _ _ h => mem_of_longestOption h

/-- **What a `-iwithprefixbefore` needs**: what is attached to it is not absolute, and if
nothing is, the two readings fall into step again. -/
def BeforeHarmless (a : CString) (rest : List CString) : Prop :=
  (a = withPrefixBefore → Settles rootDir firstOption longestOption rest) ∧
    (a ≠ withPrefixBefore →
      rootDir = [] ∨ (a.drop withPrefixBefore.length).head? ≠ some '/'.toUInt8)

/-- Where both readings take a word for one of its own, a `-iwithprefixbefore` is harmless. -/
def Steady (first longest : Bool) (words : List CString) : Prop :=
  ∀ pre a rest, words = pre ++ a :: rest →
    pending (takesNext firstOption) first pre = false →
    pending (takesNext longestOption) longest pre = false →
    startsWith withPrefixBefore a = true → BeforeHarmless rootDir a rest

theorem steady_nil (first longest : Bool) : Steady rootDir first longest [] := by
  intro pre a rest h
  exact absurd h.symm (append_ne_nil_of_right_ne_nil pre (cons_ne_nil a rest))

theorem steady_cons_iff (first longest : Bool) (a : CString) (rest : List CString) :
    Steady rootDir first longest (a :: rest) ↔
      (first = false → longest = false → startsWith withPrefixBefore a = true →
          BeforeHarmless rootDir a rest) ∧
        Steady rootDir (!first && takesNext firstOption a) (!longest && takesNext longestOption a)
          rest := by
  constructor
  · intro h
    refine ⟨fun hf hl => h [] a rest rfl hf hl, fun pre b post hrest => ?_⟩
    exact h (a :: pre) b post (congrArg (a :: ·) hrest)
  · rintro ⟨hhead, htail⟩ pre b post hsplit
    cases pre with
    | nil =>
      cases hsplit
      exact hhead
    | cons c pre =>
      obtain ⟨rfl, hrest⟩ := List.cons.inj hsplit
      exact htail pre b post hrest

/-- `-iwithprefixbefore` is taken for `-iwithprefix`, and `before` for what is attached. -/
theorem tweakWord_firstOption (h : startsWith withPrefixBefore a = true) :
    tweakWord rootDir firstOption false a = a := by
  rw [tweakWord_of_some rootDir (firstOption_of_startsWith h)]
  obtain ⟨t, rfl⟩ := startsWith_iff.mp h
  rfl

theorem takesNext_firstOption (h : startsWith withPrefixBefore a = true) :
    takesNext firstOption a = false := by
  refine takesNext_of_ne (firstOption_of_startsWith h) ?_
  rintro rfl
  cases h

/-- What is attached to `-iwithprefixbefore` should be rewritten. -/
theorem eq_tweakWord_longestOption_iff (h : startsWith withPrefixBefore a = true) :
    a = tweakWord rootDir longestOption false a ↔
      rootDir = [] ∨ (a.drop withPrefixBefore.length).head? ≠ some '/'.toUInt8 := by
  rw [tweakWord_of_some rootDir (longestOption_of_startsWith h), ← underRoot_eq_self_iff]
  obtain ⟨t, rfl⟩ := startsWith_iff.mp h
  rw [drop_left, append_cancel_left_eq, eq_comm]

/-- A word that both readings take for one of its own. -/
theorem in_step_iff (a : CString) (rest : List CString) :
    (tweakWord rootDir firstOption false a = tweakWord rootDir longestOption false a ∧
        (takesNext firstOption a = false → takesNext longestOption a = true →
          Settles rootDir firstOption longestOption rest) ∧
        (takesNext firstOption a = true → takesNext longestOption a = false →
          Settles rootDir longestOption firstOption rest)) ↔
      (startsWith withPrefixBefore a = true → BeforeHarmless rootDir a rest) := by
  cases hW : startsWith withPrefixBefore a with
  | false =>
    have hopt := longestOption_eq_firstOption hW
    simp only [tweakWord, takesNext, hopt, true_and, Bool.false_eq_true, false_implies, iff_true]
    exact ⟨fun h h' => absurd (h.symm.trans h') Bool.false_ne_true,
      fun h h' => absurd (h'.symm.trans h) Bool.false_ne_true⟩
  | true =>
    have hlongest := longestOption_of_startsWith hW
    rw [tweakWord_firstOption rootDir hW, eq_tweakWord_longestOption_iff rootDir hW,
      takesNext_firstOption hW, BeforeHarmless]
    by_cases ha : a = withPrefixBefore
    · subst ha
      simp [takesNext, hlongest]
    · simp [takesNext_of_ne hlongest ha, ha]

/-- **Both readings give the same**, word by word. -/
theorem tweakWords_eq_iff {first longest : Bool}
    (hlast : pending (takesNext longestOption) longest words = false) :
    (tweakWords rootDir firstOption first words = tweakWords rootDir longestOption longest words ∧
        pending (takesNext firstOption) first words = false) ↔
      (first = false → longest = true → Settles rootDir firstOption longestOption words) ∧
        (first = true → longest = false → Settles rootDir longestOption firstOption words) ∧
        Steady rootDir first longest words := by
  induction words generalizing first longest with
  | nil =>
    obtain rfl : longest = false := hlast
    cases first <;> simp [tweakWords, Settles, steady_nil]
  | cons a rest ih =>
    rw [steady_cons_iff, tweakWords, tweakWords, List.cons.injEq, pending_cons, and_assoc,
      ih hlast]
    cases first with
    | false =>
      cases longest with
      | false =>
        have hstep := in_step_iff rootDir a rest
        simp only [Bool.not_false, Bool.true_and, forall_const, reduceCtorEq, false_implies,
          true_and]
        rw [← hstep, and_assoc, and_assoc]
      | true =>
        have hstep := tweakWord_eq_underRoot_iff rootDir (a := a) finds_firstOption
        cases hnext : takesNext firstOption a with
        | false => simp [Settles, hnext, ← hstep, tweakWord_operand]
        | true =>
          simp [Settles, hnext, tweakWord_operand,
            tweakWord_eq_underRoot_of_takesNext rootDir finds_firstOption hnext]
    | true =>
      cases longest with
      | false =>
        have hstep :=
          eq_comm.trans (tweakWord_eq_underRoot_iff rootDir (a := a) finds_longestOption)
        cases hnext : takesNext longestOption a with
        | false => simp [Settles, hnext, ← hstep, tweakWord_operand]
        | true =>
          simp [Settles, hnext, tweakWord_operand,
            tweakWord_eq_underRoot_of_takesNext rootDir finds_longestOption hnext]
      | true => simp [tweakWord_operand]

/-! ### The operands are rewritten -/

/-- **The function rewrites the operands** that begin with a slash, and nothing else, whatever
is behind the vector. -/
def TweaksOperands (words : List CString) : Prop :=
  ∀ behind, tweakIncludeArgumentsForServerAt rootDir (terminated words behind) () =
    some (.ok (terminated (tweakWords rootDir longestOption false words) behind), ())

theorem length_tweakWords (option : CString → Option CString) (operand : Bool)
    (words : List CString) : (tweakWords rootDir option operand words).length = words.length := by
  induction words generalizing operand with
  | nil => rfl
  | cons a rest ih => exact congrArg (· + 1) (ih _)

theorem tweakIncludeArgumentsForServerAt_terminated
    (h : pending (takesNext firstOption) false words = false) (behind : Argv) :
    tweakIncludeArgumentsForServerAt rootDir (terminated words behind) () =
      some (.ok (terminated (tweakWords rootDir firstOption false words) behind), ()) := by
  have hwalk : walkWords (tweakStep rootDir) words [] =
      some (.inl ((tweakWords rootDir firstOption false words).map some)) := by
    rw [walkWords_tweakStep, h]
    rfl
  rw [tweakIncludeArgumentsForServerAt, Prog.bind_of_ok (walkSlots_of_some hwalk behind)]
  have hdrop : (terminated words behind).drop words.length = none :: behind := by
    rw [terminated]
    exact drop_left' (length_map ..)
  simp only [length_map, length_tweakWords, hdrop]
  rfl

/-- Each option is the longest that it begins with. -/
theorem takesNext_longestOption : takesNext longestOption = includeOptions.contains := by
  have hself : ∀ o ∈ includeOptions, longestOption o = some o := by decide
  funext a
  rw [Bool.eq_iff_iff, takesNext_iff, contains_iff_mem]
  exact ⟨fun h => (mem_of_longestOption h).1, hself a⟩

theorem tweaksOperands_iff_eq (words : List CString) :
    TweaksOperands rootDir words ↔
      tweakWords rootDir firstOption false words = tweakWords rootDir longestOption false words ∧
        pending (takesNext firstOption) false words = false := by
  constructor
  · intro htweaks
    have hrun := htweaks []
    cases hlast : pending (takesNext firstOption) false words with
    | true =>
      -- the walk goes on behind the vector
      have hwalk : walkWords (tweakStep rootDir) words [] = none := by
        rw [walkWords_tweakStep, hlast, if_pos rfl]
      cases hrun.symm.trans (Prog.bind_of_error (walkSlots_of_none hwalk))
    | false =>
      rw [tweakIncludeArgumentsForServerAt_terminated rootDir hlast] at hrun
      have hvector := Except.ok.inj (Prod.mk.inj (Option.some.inj hrun)).1
      refine ⟨?_, rfl⟩
      simpa using congrArg wordsOf hvector
  · rintro ⟨heq, hlast⟩ behind
    rw [tweakIncludeArgumentsForServerAt_terminated rootDir hlast, heq]

/-- **When the operands are rewritten**: an option `-iwithprefixbefore` is the only one that
can do harm. -/
theorem tweaksOperands_iff {words : List CString} (h : ¬Dangles includeOptions.contains words) :
    TweaksOperands rootDir words ↔ Steady rootDir false false words := by
  have hlast : pending (takesNext longestOption) false words = false := by
    rw [dangles_iff_pending, Bool.not_eq_true] at h
    rw [takesNext_longestOption, h]
  rw [tweaksOperands_iff_eq, tweakWords_eq_iff rootDir hlast]
  simp

/-- A command with all that is rewritten, and with what is not. -/
def includeCommand : List CString :=
  ["gcc", "-I", "/usr/include", "-isystem/opt", "-iwithprefixbefore", "inc", "/tmp/hello.c"].map lit

theorem tweaksOperands_iff_command : TweaksOperands (lit "/srv") includeCommand := by
  refine (tweaksOperands_iff (lit "/srv") (by decide)).mpr ?_
  have hinc : Relative firstOption (lit "inc") := ⟨by decide, fun o ho => by cases ho⟩
  have step {first longest : Bool} {a : CString} {rest : List CString}
      (ha : startsWith withPrefixBefore a = false)
      (hrest : Steady (lit "/srv") (!first && takesNext firstOption a)
        (!longest && takesNext longestOption a) rest) :
      Steady (lit "/srv") first longest (a :: rest) :=
    (steady_cons_iff ..).mpr ⟨fun _ _ h => absurd h (ne_true_of_eq_false ha), hrest⟩
  refine step (by decide) (step (by decide) (step (by decide) (step (by decide) ?_)))
  refine (steady_cons_iff ..).mpr ⟨fun _ _ _ => ⟨fun _ => ?_, fun h => absurd rfl h⟩, ?_⟩
  · exact .inr hinc
  · exact step (by decide) (step (by decide) (steady_nil _ _ _))

/-- A directory that is not rewritten. -/
def beforeCommand : List CString :=
  ["gcc", "-iwithprefixbefore", "/usr/include", "-c", "hello.c"].map lit

/-- The directory is not found on the server. -/
theorem beforeCommand_not_tweaked :
    ¬Dangles includeOptions.contains beforeCommand ∧
      ¬TweaksOperands (lit "/srv") beforeCommand := by
  refine ⟨by decide, fun h => ?_⟩
  have hrun : tweakIncludeArgumentsForServerAt (lit "/srv") (terminated beforeCommand []) () =
      some (.ok (terminated beforeCommand []), ()) := by decide
  cases (h []).symm.trans hrun

end Distcc
