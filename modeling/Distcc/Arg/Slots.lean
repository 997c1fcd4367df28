import Distcc.Arg.Expand
import Distcc.Arg.Strip
import Distcc.Base.Terminated

/-!
# The arguments, slot by slot

The functions of `src/arg.c` and `src/strip.c` that walk along a vector of arguments, as they
do it: with an index, along the slots of the vector and to the `NULL` that ends it. Options
that take an operand make them step over a slot. Whether they look first if it is the `NULL`
differs from one function to the other: `dcc_strip_local_args` does, `dcc_scan_args` and
`dcc_strip_dasho` do not.

`dccScanArgs`, `dccStripLocalArgs` and `dccStripDasho` are these
functions on the words of the vector. They are what the walks give as long as they stay
inside the vector (`walkWords_scanStep`, `walkWords_stripLocalStep`,
`walkWords_stripDashoStep`). Memory suffices, and the copy that `dcc_scan_args` makes
of its argument, with two slots more, is what its model is given.
-/

namespace Distcc

open CString

/-! ### Scanning -/

/-- The body of the loop in `dcc_scan_args`. It stops with what the variables hold. -/
def scanStep (s : Scan) (a : CString) : Body CString Scan Scan :=
  -- the label `GOT_OUTPUT`, from a word
  let gotOutput (name : CString) : Move Scan Scan :=
    if s.output.isSome then .stop s else .next { s with output := some name }
  if isDash a then
    match dashWord a with
    | .mustBeLocal => .move (.stop s)
    | .ignored => .move (.next s)
    | .skipNext => .move (.skip s)
    | .seenOptS => .move (.next { s with seenOptS := true })
    | .seenOptC => .move (.next { s with seenOptC := true })
    -- the next slot is taken as it is, `NULL` or not
    | .outputNext =>
      .look fun slot => if s.output.isSome then .stop s else .skip { s with output := slot }
    | .outputHere name => .move (gotOutput name)
  else if dccIsSource a then
    .move (if s.input.isSome then .stop s else .next { s with input := some a })
  else if endsWith (lit ".o") a then .move (gotOutput a)
  else .move (.next s)

/-- What `dcc_scan_args` leaves when it returns. -/
structure ScanOutcome where
  /-- The value it returns, with what `*ret_newargv` is. -/
  result : Except ScanError Scanned
  /-- `*input_file` -/
  input : Option CString
  /-- `*output_file` -/
  output : Option CString
  deriving DecidableEq, Repr

/-- Returning `EXIT_DISTCC_FAILED`. -/
def Scan.giveUp (s : Scan) : ScanOutcome := ⟨.error .distccFailed, s.input, s.output⟩

/-- The part of `dcc_scan_args` after its loop, with what it leaves. -/
def scanRest (argv : List CString) (s : Scan) : ScanOutcome :=
  if s.seenOptC = false ∧ s.seenOptS = false then s.giveUp
  else match s.input with
  | none => s.giveUp
  | some input =>
    if dccSourceNeedsLocal input then s.giveUp
    else match s.output with
    | some output =>
      if output = lit "-" then s.giveUp else ⟨.ok ⟨input, output, argv⟩, some input, some output⟩
    | none =>
      match dccOutputFromSource input (if s.seenOptS then lit ".s" else lit ".o") with
      | none => s.giveUp
      | some ofile =>
        if ofile = lit "-" then ⟨.error .distccFailed, some input, some ofile⟩
        else ⟨.ok ⟨input, ofile, argv ++ [lit "-o", ofile]⟩, some input, some ofile⟩

/-- `dcc_scan_args`, on the copy of its argument. -/
def dccScanArgsAt (argv : Argv) : Prog Unit Fault ScanOutcome := do
  match ← slotAt argv 0 with
  -- `argv[0][0]`
  | none => Prog.fail .null
  | some compiler =>
    -- `exit(EXIT_BAD_ARGUMENTS)`
    if isDash compiler then Prog.never
    else
      match ← walkSlots scanStep argv {} with
      | .inl s => pure (scanRest (wordsOf argv) s)
      | .inr s => pure s.giveUp

theorem scanRest_result (argv : List CString) (s : Scan) :
    (scanRest argv s).result = scanFinish argv s := by
  fun_cases scanRest argv s <;> simp_all [scanFinish, Scan.giveUp]

variable {argv : List CString} {scanned : Scanned}

/-- What is left when the scan succeeds is what it found. -/
theorem scanRest_of_ok {s : Scan} (h : (scanRest argv s).result = .ok scanned) :
    (scanRest argv s).input = some scanned.input ∧
      (scanRest argv s).output = some scanned.output := by
  revert h
  fun_cases scanRest argv s <;> intro h <;> cases h <;> exact ⟨rfl, rfl⟩

/-- The end of a walk, for the loop on the words. -/
def scanEnd : Option (Scan ⊕ Scan) → Except ScanError Scan
  | some (.inl s) => .ok s
  | some (.inr _) => .error .distccFailed
  | none => .error .overrun

/-- **The walk of the scanner is its loop on the words.** -/
theorem walkWords_scanStep (words : List CString) (s : Scan) :
    scanEnd (walkWords scanStep words s) = scanLoop words s := by
  fun_induction scanLoop words s with
  | case1 s => rfl
  | case10 a s hdash hword b rest ih =>
    by_cases hout : s.output.isSome <;>
      simp_all [walkWords, scanStep, Body.after, scanEnd, Scan.gotOutput]
  | case11 a rest s hdash b hword ih =>
    by_cases hout : s.output.isSome <;>
      simp_all [walkWords, scanStep, Body.after, scanEnd, Scan.gotOutput]
  | case14 a rest s hdash hsource hobject ih =>
    by_cases hout : s.output.isSome <;>
      simp_all [walkWords, scanStep, Body.after, scanEnd, Scan.gotOutput]
  | _ => simp_all [walkWords, scanStep, Body.after, scanEnd]

/-- The options `dcc_scan_args` reads with the next word. -/
def scansOperand (a : CString) : Bool := (["-MF", "-MT", "-MQ", "-o"].map lit).contains a

theorem readWord_snd_ne_word (m : Mode) (a : CString) :
    decide ((readWord m a).2 ≠ .word) = (!decide (m ≠ .word) && scansOperand a) := by
  cases m with
  | skip => rfl
  | output => rfl
  | word =>
    cases hs : scansOperand a with
    | true =>
      obtain rfl | rfl | rfl | rfl :
          a = lit "-MF" ∨ a = lit "-MT" ∨ a = lit "-MQ" ∨ a = lit "-o" := by
        simpa [scansOperand] using hs
      all_goals decide
    | false =>
      have hmode : (readWord .word a).2 = .word := by
        cases hd : dashWord a with
        | skipNext => obtain rfl | rfl | rfl := dashWord_eq_skipNext hd <;> cases hs
        | outputNext =>
          obtain rfl := dashWord_eq_outputNext hd
          cases hs
        | _ =>
          simp only [readWord, hd]
          split_ifs <;> rfl
      simp [hmode]

/-- A word is read in the ordinary way unless it is an operand. -/
theorem lastMode_ne_word_iff (words : List CString) :
    lastMode .word words ≠ .word ↔ Dangles scansOperand words := by
  have hmode (m : Mode) : (lastMode m words ≠ .word) ↔
      pending scansOperand (decide (m ≠ .word)) words = true := by
    induction words generalizing m with
    | nil => simp
    | cons a words ih =>
      rw [lastMode_cons, ih, pending_cons, readWord_snd_ne_word]
  rw [dangles_iff_pending, hmode]
  rfl

/-- **When the scanner reads on behind the vector**: it has not given up, and a word is
missing. A second `-o` is noticed before. -/
theorem scanLoop_eq_overrun_iff {s : Scan} : scanLoop argv s = .error .overrun ↔
      lastMode .word argv ≠ .word ∧ ∃ s', (marks .word argv).foldlM Scan.note s = .ok s' ∧
        (lastMode .word argv = .output → s'.output = none) := by
  fun_induction scanLoop argv s with
  | case8 a s hdash hword hout =>
    have hset : s.output ≠ none := Option.isSome_iff_ne_none.mp hout
    simp_all [readWord, pure, Except.pure]
  | case10 a s hdash hword b rest ih =>
    by_cases hout : s.output.isSome <;> simp_all [readWord, Scan.note, Scan.gotOutput]
  | case11 a rest s hdash b hword ih =>
    by_cases hout : s.output.isSome <;> simp_all [readWord, Scan.note, Scan.gotOutput]
  | case14 a rest s hdash hsource hobject ih =>
    by_cases hout : s.output.isSome <;> simp_all [readWord, Scan.note, Scan.gotOutput]
  | _ => simp_all [readWord, Scan.note, pure, Except.pure]

/-- **The scanner reads on behind the vector**: an operand is missing at its end, and nothing
before makes the scanner give up. -/
def ScanOverruns (words : List CString) : Prop :=
  Dangles scansOperand words ∧ .stay ∉ marks .word words ∧
    (inputs (marks .word words)).length ≤ 1 ∧
      (outputs (marks .word words)).length + (if words.getLast? = some (lit "-o") then 1 else 0) ≤ 1

variable {words rest : List CString} {compiler : CString}

theorem lastMode_eq_output_iff (h : lastMode .word words ≠ .word) :
    lastMode .word words = .output ↔ words.getLast? = some (lit "-o") := by
  rcases List.eq_nil_or_concat' words with rfl | ⟨init, a, rfl⟩
  · exact absurd rfl h
  · rw [List.getLast?_concat, Option.some.injEq]
    rw [lastMode_append, lastMode_cons, lastMode_nil] at h ⊢
    refine ⟨readWord_snd_eq_output, ?_⟩
    rintro rfl
    -- an operand makes nothing of the word after it
    cases hm : lastMode .word init with
    | word => rw [readWord_dash_o]
    | skip => exact absurd (congrArg (fun m => (readWord m (lit "-o")).2) hm) h
    | output => exact absurd (congrArg (fun m => (readWord m (lit "-o")).2) hm) h

theorem scanLoop_eq_overrun_iff_scanOverruns (words : List CString) :
    scanLoop words {} = .error .overrun ↔ ScanOverruns words := by
  rw [scanLoop_eq_overrun_iff, ScanOverruns, ← lastMode_ne_word_iff]
  refine and_congr_right fun hlast => ?_
  simp only [foldlM_note_eq_ok_iff, ← lastMode_eq_output_iff hlast]
  constructor
  · rintro ⟨_, ⟨hstay, hin, hout, rfl⟩, hnone⟩
    refine ⟨hstay, hin, ?_⟩
    split_ifs with ho
    · have hempty : outputs (marks .word words) = [] := List.head?_eq_none_iff.mp (hnone ho)
      rw [hempty]
      exact le_rfl
    · exact hout
  · rintro ⟨hstay, hin, hout⟩
    refine ⟨_, ⟨hstay, hin, le_trans (Nat.le_add_right _ _) hout, rfl⟩, fun ho => ?_⟩
    have hempty : (outputs (marks .word words)).length = 0 := by
      rw [if_pos ho] at hout
      omega
    exact List.head?_eq_none_iff.mpr (List.length_eq_zero_iff.mp hempty)

/-- On a vector with a compiler, `dcc_scan_args` is its loop, and what comes after it. -/
theorem dccScanArgsAt_terminated (h : isDash compiler = false) (behind : Argv) :
    dccScanArgsAt (terminated (compiler :: rest) behind) () =
      (walkSlots scanStep (terminated (compiler :: rest) behind) {} >>= fun
        | .inl s => pure (scanRest (compiler :: rest) s)
        | .inr s => pure s.giveUp) () := by
  have hslot : slotAt (terminated (compiler :: rest) behind) 0 () =
      some (.ok (some compiler), ()) := rfl
  rw [dccScanArgsAt, Prog.bind_of_ok hslot, wordsOf_terminated]
  dsimp only
  rw [h, if_neg Bool.false_ne_true]

theorem inside_dccScanArgsAt_iff (h : isDash compiler = false) :
    (Inside fun behind => dccScanArgsAt (terminated (compiler :: rest) behind)) ↔
      ¬ScanOverruns (compiler :: rest) := by
  refine (inside_walkSlots_bind_iff (dccScanArgsAt_terminated h) ⟨[], rfl⟩ ?_).trans ?_
  · rintro (s | s) -
    · exact inside_pure _
    · exact inside_pure _
  · rw [← scanLoop_eq_overrun_iff_scanOverruns, ← walkWords_scanStep]
    rcases walkWords scanStep (compiler :: rest) {} with _ | s | s <;> simp [scanEnd]

/-- What is found on a vector that is accepted. -/
theorem dccScanArgsAt_of_ok (h : dccScanArgs words = .ok scanned) (behind : Argv) :
    dccScanArgsAt (terminated words behind) () =
      some (.ok ⟨.ok scanned, some scanned.input, some scanned.output⟩, ()) := by
  cases words with
  | nil => cases h
  | cons compiler rest =>
    cases hdash : isDash compiler with
    | true => rw [dccScanArgs, hdash] at h; cases h
    | false =>
      rw [dccScanArgs, hdash, if_neg Bool.false_ne_true, ← walkWords_scanStep] at h
      rcases hwalk : walkWords scanStep (compiler :: rest) {} with _ | s | s <;> rw [hwalk] at h
      · cases h
      · have hrest : (scanRest (compiler :: rest) s).result = .ok scanned :=
          (scanRest_result _ s).trans h
        obtain ⟨hin, hout⟩ := scanRest_of_ok hrest
        rw [dccScanArgsAt_terminated hdash, Prog.bind_of_ok (walkSlots_of_some hwalk behind),
          ← hrest, ← hin, ← hout]
        rfl
      · cases h

/-! ### Stripping -/

/-- The body of the loop in `dcc_strip_local_args`, with what is stored so far. -/
def stripLocalStep (out : List CString) (a : CString) : Body CString (List CString) Empty :=
  if stripsOperand a then
    .look fun slot => if slot.isSome then .skip out else .next out
  else if stripsAlone a then .move (.next out)
  else .move (.next (out ++ [a]))

/-- The body of the loop in `dcc_strip_dasho`. -/
def stripDashoStep (out : List CString) (a : CString) : Body CString (List CString) Empty :=
  if a = lit "-o" then .move (.skip out)
  else if startsWith (lit "-o") a then .move (.next out)
  else .move (.next (out ++ [a]))

/-- The vector `to` has a slot for each word of `from`, and one for the `NULL`. -/
def storeAll (argv : Argv) : List CString ⊕ Empty → Prog Unit Fault (List CString)
  | .inl out => if out.length ≤ argvLen argv then pure out else Prog.fail .bounds

/-- `dcc_strip_local_args` gives the words of the new vector. -/
def dccStripLocalArgsAt (argv : Argv) : Prog Unit Fault (List CString) :=
  walkSlots stripLocalStep argv [] >>= storeAll argv

/-- `dcc_strip_dasho` gives the words of the new vector. -/
def dccStripDashoAt (argv : Argv) : Prog Unit Fault (List CString) :=
  walkSlots stripDashoStep argv [] >>= storeAll argv

theorem walkWords_stripLocalStep (words out : List CString) :
    walkWords stripLocalStep words out = some (.inl (out ++ dccStripLocalArgs words)) := by
  fun_induction dccStripLocalArgs words generalizing out <;>
    simp_all [walkWords, stripLocalStep, Body.after]

theorem walkWords_stripDashoStep (words out : List CString) :
    walkWords stripDashoStep words out =
      (dccStripDasho words).map fun left => .inl (out ++ left) := by
  fun_induction dccStripDasho words generalizing out <;>
    simp_all [walkWords, stripDashoStep, Body.after, Function.comp_def]

theorem argvLen_terminated (words : List CString) (behind : Argv) :
    argvLen (terminated words behind) = words.length := by
  induction words with
  | nil => rfl
  | cons a words ih => exact congrArg (· + 1) ih

theorem length_dccStripLocalArgs_le (words : List CString) :
    (dccStripLocalArgs words).length ≤ words.length := by
  fun_induction dccStripLocalArgs words <;> grind

variable {words left : List CString}

theorem length_dccStripDasho_le (h : dccStripDasho words = some left) :
    left.length ≤ words.length := by
  fun_induction dccStripDasho words generalizing left with
  | case5 a rest ha hstarts ih =>
    obtain ⟨left, hleft, rfl⟩ := Option.map_eq_some_iff.mp h
    exact Nat.succ_le_succ (ih hleft)
  | _ => grind

theorem inside_storeAll (h : left.length ≤ words.length) :
    Inside fun behind => storeAll (terminated words behind) (.inl left) := by
  refine ⟨.ok left, nofun, fun behind => ?_⟩
  change (if left.length ≤ argvLen (terminated words behind) then pure left
    else Prog.fail .bounds : Prog Unit Fault (List CString)) () = _
  rw [argvLen_terminated, if_pos h]
  rfl

/-- `dcc_strip_local_args` looks before it steps over a word. -/
theorem inside_dccStripLocalArgsAt (words : List CString) :
    Inside fun behind => dccStripLocalArgsAt (terminated words behind) := by
  refine (inside_walkSlots_bind_iff (fun _ => rfl) ⟨[], rfl⟩ ?_).mpr ?_
  · rintro r hr
    obtain rfl := Option.some.inj ((walkWords_stripLocalStep words []).symm.trans hr)
    exact inside_storeAll (length_dccStripLocalArgs_le words)
  · rw [walkWords_stripLocalStep]
    exact nofun

theorem inside_dccStripDashoAt_iff (words : List CString) :
    (Inside fun behind => dccStripDashoAt (terminated words behind)) ↔
      ¬Dangles (· = lit "-o") words := by
  refine (inside_walkSlots_bind_iff (fun _ => rfl) ⟨[], rfl⟩ ?_).trans
    (not_congr (walkWords_eq_none_iff ?_ ?_))
  · intro r hr
    rw [walkWords_stripDashoStep] at hr
    obtain ⟨left, hleft, rfl⟩ := Option.map_eq_some_iff.mp hr
    exact inside_storeAll (length_dccStripDasho_le hleft)
  · intro out a slot ha
    rw [stripDashoStep, if_pos (of_decide_eq_true ha)]
    exact ⟨out, rfl⟩
  · intro out a slot ha
    rw [stripDashoStep, if_neg (of_decide_eq_false ha)]
    split
    · exact ⟨_, rfl⟩
    · exact ⟨_, rfl⟩

end Distcc
