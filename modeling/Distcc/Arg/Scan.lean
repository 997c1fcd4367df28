import Distcc.Base.Prog
import Distcc.Filename

/-!
# Scanning a compiler command

Model of `dcc_scan_args` (`src/arg.c`), the function that decides whether a
command can be distributed and finds its input and its output. It is run twice
on a job: by the client on what the user typed, and by the server on what the
client sent.

The bottom layer is the source's loop (`scanLoop`), an index running over
the words of the vector: `-o`, `-MF`, `-MT` and `-MQ` move it one word further
than the others. When one of these is the last word the index steps over the
terminating NULL, and what the loop reads next is not part of the vector: that
outcome is `ScanError.overrun`.

Over it stands what the loop is for (`marks`): a word is read according
to the one before it, and each word says at most one thing – the input, an
output, that there is something to compile, or that the command must stay at
home. A vector is accepted exactly when its reading says one input, at most one
output, and nothing against (`dccScanArgs_eq_ok_iff`), and every statement
about the scanner below goes through that.
-/

namespace Distcc

open CString

/-! ### The option words -/

/-- What the scanner does on a word that starts with a dash. -/
inductive DashWord where
  /-- Return `EXIT_DISTCC_FAILED`: the command has to run locally. -/
  | mustBeLocal
  /-- Nothing. -/
  | ignored
  /-- Step over the next word. -/
  | skipNext
  /-- Set `seen_opt_s`. -/
  | seenOptS
  /-- Set `seen_opt_c`. -/
  | seenOptC
  /-- Take the next word for the output. -/
  | outputNext
  /-- Take the rest of this word for the output. -/
  | outputHere (name : CString)
  deriving DecidableEq, Repr

/-- The chain of comparisons `dcc_scan_args` makes on a word that starts with a
dash, in its order. -/
def dashWord (a : CString) : DashWord :=
  if a = lit "-E" then .mustBeLocal
  else if a = lit "-MD" ∨ a = lit "-MMD" then .ignored
  else if a = lit "-MG" ∨ a = lit "-MP" then .ignored
  else if a = lit "-MF" ∨ a = lit "-MT" ∨ a = lit "-MQ" then .skipNext
  else if startsWith (lit "-MF") a ∨ startsWith (lit "-MT") a ∨ startsWith (lit "-MQ") a then
    .ignored
  -- every other `-M` option implies `-E`
  else if startsWith (lit "M") a.tail then .mustBeLocal
  else if a = lit "-march=native" then .mustBeLocal
  else if a = lit "-mtune=native" then .mustBeLocal
  else if startsWith (lit "-Wa,") a then
    -- assembler options that write listings or dependencies
    if contains (lit ",-a") a ∨ contains (lit "--MD") a then .mustBeLocal else .ignored
  else if startsWith (lit "-specs=") a then .mustBeLocal
  else if a = lit "-S" then .seenOptS
  else if a = lit "-fprofile-arcs" ∨ a = lit "-ftest-coverage" ∨ a = lit "--coverage" then
    .mustBeLocal
  else if a = lit "-frepo" then .mustBeLocal
  else if startsWith (lit "-x") a then .mustBeLocal
  else if startsWith (lit "-dr") a then .mustBeLocal
  else if a = lit "-c" then .seenOptC
  else if a = lit "-o" then .outputNext
  else if startsWith (lit "-o") a then .outputHere (a.drop 2)
  else .ignored

private theorem ite_ne {α : Type} {c : Prop} [Decidable c] {x y z : α} (hx : x ≠ z)
    (hy : y ≠ z) : (if c then x else y) ≠ z := by
  split
  · exact hx
  · exact hy

variable {a : CString} (m : Mode)

theorem dashWord_eq_outputNext (h : dashWord a = .outputNext) : a = lit "-o" := by
  by_contra ho
  refine absurd h ?_
  rw [dashWord, if_neg ho]
  repeat' apply ite_ne
  all_goals exact DashWord.noConfusion

theorem dashWord_eq_skipNext (h : dashWord a = .skipNext) :
    a = lit "-MF" ∨ a = lit "-MT" ∨ a = lit "-MQ" := by
  by_contra ho
  refine absurd h ?_
  rw [dashWord, if_neg ho]
  repeat' apply ite_ne
  all_goals exact DashWord.noConfusion

theorem dashWord_dash_o_append {t : CString} (h : t ≠ []) :
    dashWord (lit "-o" ++ t) = .outputHere t := by
  cases t with
  | nil => exact absurd rfl h
  | cons b t => simp [dashWord, startsWith, lit]

/-- Does a word start with a dash? -/
def isDash (a : CString) : Bool := a.head? == some '-'.toUInt8

/-! ### The loop of `dcc_scan_args` -/

/-- The local variables of the loop: the two out-parameters and the two flags. -/
structure Scan where
  /-- `*input_file` -/
  input : Option CString := none
  /-- `*output_file` -/
  output : Option CString := none
  /-- `seen_opt_c` -/
  seenOptC : Bool := false
  /-- `seen_opt_s` -/
  seenOptS : Bool := false
  deriving DecidableEq, Repr

/-- How `dcc_scan_args` can fail to return 0. -/
inductive ScanError where
  /-- It returns `EXIT_DISTCC_FAILED`. -/
  | distccFailed
  /-- It calls `exit(EXIT_BAD_ARGUMENTS)`. -/
  | badArguments
  /-- It goes on reading after the NULL that ends the vector. -/
  | overrun
  deriving DecidableEq, Repr

/-- The label `GOT_OUTPUT`. -/
def Scan.gotOutput (s : Scan) (a : CString) : Except ScanError Scan :=
  if s.output.isSome then .error .distccFailed else .ok { s with output := some a }

/-- The `for` loop of `dcc_scan_args`, from the word `argv[i]` on. -/
def scanLoop : List CString → Scan → Except ScanError Scan
  | [], s => .ok s
  | a :: rest, s =>
    if isDash a then
      match dashWord a with
      | .mustBeLocal => .error .distccFailed
      | .ignored => scanLoop rest s
      | .seenOptS => scanLoop rest { s with seenOptS := true }
      | .seenOptC => scanLoop rest { s with seenOptC := true }
      | .skipNext =>
        match rest with
        | [] => .error .overrun
        | _ :: rest => scanLoop rest s
      | .outputNext =>
        match rest with
        -- `a` is NULL: a second output is still noticed, a first one is not
        | [] => if s.output.isSome then .error .distccFailed else .error .overrun
        | b :: rest => do scanLoop rest (← s.gotOutput b)
      | .outputHere b => do scanLoop rest (← s.gotOutput b)
    else if dccIsSource a then
      if s.input.isSome then .error .distccFailed else scanLoop rest { s with input := some a }
    else if endsWith (lit ".o") a then do scanLoop rest (← s.gotOutput a)
    else scanLoop rest s

/-- What `dcc_scan_args` gives back when it returns 0. -/
structure Scanned where
  /-- `*input_file` -/
  input : CString
  /-- `*output_file` -/
  output : CString
  /-- `*ret_newargv` -/
  newargv : List CString
  deriving DecidableEq, Repr

/-- The part of `dcc_scan_args` after its loop. -/
def scanFinish (argv : List CString) (s : Scan) : Except ScanError Scanned :=
  if s.seenOptC = false ∧ s.seenOptS = false then .error .distccFailed
  else match s.input with
  | none => .error .distccFailed
  | some input =>
    if dccSourceNeedsLocal input then .error .distccFailed
    else match s.output with
    | some output =>
      if output = lit "-" then .error .distccFailed else .ok ⟨input, output, argv⟩
    | none =>
      -- `-S` takes precedence over `-c`
      match dccOutputFromSource input (if s.seenOptS then lit ".s" else lit ".o") with
      | none => .error .distccFailed
      | some ofile =>
        if ofile = lit "-" then .error .distccFailed
        else .ok ⟨input, ofile, argv ++ [lit "-o", ofile]⟩

/-- `dcc_scan_args`, on a vector whose copy could be allocated. -/
def dccScanArgs (argv : List CString) : Except ScanError Scanned :=
  match argv with
  -- `argv[0][0]` with `argv[0]` NULL
  | [] => .error .overrun
  | compiler :: _ =>
    if isDash compiler then .error .badArguments
    else match scanLoop argv {} with
    | .error e => .error e
    | .ok s => scanFinish argv s

example : dccScanArgs (["gcc", "-c", "hello.c"].map lit) =
    .ok ⟨lit "hello.c", lit "hello.o", ["gcc", "-c", "hello.c", "-o", "hello.o"].map lit⟩ := by
  decide

/-! ### What a vector says -/

/-- How the next word of a vector is read. -/
inductive Mode where
  /-- As a word of its own. -/
  | word
  /-- As the operand of `-MF`, `-MT` or `-MQ`: not at all. -/
  | skip
  /-- As the operand of `-o`. -/
  | output
  deriving DecidableEq, Repr

/-- What a word says to the scanner. -/
inductive Mark where
  /-- It is an input file. -/
  | input (name : CString)
  /-- It is an output file. -/
  | output (name : CString)
  /-- It is `-c`. -/
  | optC
  /-- It is `-S`. -/
  | optS
  /-- The command must stay at home. -/
  | stay
  deriving DecidableEq, Repr

/-- What a word says, and how the word after it is read. -/
def readWord : Mode → CString → Option Mark × Mode
  | .skip, _ => (none, .word)
  | .output, a => (some (.output a), .word)
  | .word, a =>
    if isDash a then
      match dashWord a with
      | .mustBeLocal => (some .stay, .word)
      | .ignored => (none, .word)
      | .skipNext => (none, .skip)
      | .seenOptS => (some .optS, .word)
      | .seenOptC => (some .optC, .word)
      | .outputNext => (none, .output)
      | .outputHere b => (some (.output b), .word)
    else if dccIsSource a then (some (.input a), .word)
    else if endsWith (lit ".o") a then (some (.output a), .word)
    else (none, .word)

@[simp] theorem readWord_skip (a : CString) : readWord .skip a = (none, .word) := rfl

@[simp] theorem readWord_output (a : CString) :
    readWord .output a = (some (.output a), .word) := rfl

@[simp] theorem readWord_dash_o : readWord .word (lit "-o") = (none, .output) := by decide

/-- Only `-o` makes an output of the word after it. -/
theorem readWord_snd_eq_output {m : Mode} (h : (readWord m a).2 = .output) : a = lit "-o" := by
  cases m with
  | skip => cases h
  | output => cases h
  | word =>
    cases hd : dashWord a <;> simp only [readWord, hd] at h <;> split_ifs at h
    exact dashWord_eq_outputNext hd

/-- A dash word that looks like a source takes no operand. -/
theorem readWord_snd_of_source (hs : dccIsSource a = true) : (readWord .word a).2 = .word := by
  have hdot := dot_mem_of_dccIsSource hs
  cases hd : dashWord a with
  | skipNext =>
    obtain rfl | rfl | rfl := dashWord_eq_skipNext hd <;> exact absurd hdot (by decide)
  | outputNext =>
    obtain rfl := dashWord_eq_outputNext hd
    exact absurd hdot (by decide)
  | _ =>
    simp only [readWord, hd]
    split_ifs <;> rfl

theorem readWord_word_source (hd : isDash a = false) (hs : dccIsSource a = true) :
    readWord .word a = (some (.input a), .word) := by
  simp [readWord, hd, hs]

theorem readWord_word_object (hd : isDash a = false)
    (ho : endsWith (lit ".o") a = true) : readWord .word a = (some (.output a), .word) := by
  simp [readWord, hd, ho, dccIsSource_of_endsWith_o ho]

theorem isDash_dash_o_append (t : CString) : isDash (lit "-o" ++ t) = true := rfl

theorem readWord_dash_o_append {t : CString} (h : t ≠ []) :
    readWord .word (lit "-o" ++ t) = (some (.output t), .word) := by
  simp [readWord, isDash_dash_o_append, dashWord_dash_o_append h]

/-- What the words of a vector say, the first of them read in mode `m`. -/
def marks : Mode → List CString → List Mark
  | _, [] => []
  | m, a :: rest => (readWord m a).1.toList ++ marks (readWord m a).2 rest

/-- How the word after a vector would be read. -/
def lastMode : Mode → List CString → Mode
  | m, [] => m
  | m, a :: rest => lastMode (readWord m a).2 rest

@[simp] theorem marks_nil : marks m [] = [] := rfl

@[simp] theorem marks_cons (a : CString) (rest : List CString) :
    marks m (a :: rest) = (readWord m a).1.toList ++ marks (readWord m a).2 rest := rfl

@[simp] theorem lastMode_nil : lastMode m [] = m := rfl

@[simp] theorem lastMode_cons (a : CString) (rest : List CString) :
    lastMode m (a :: rest) = lastMode (readWord m a).2 rest := rfl

theorem marks_append (xs ys : List CString) :
    marks m (xs ++ ys) = marks m xs ++ marks (lastMode m xs) ys := by
  induction xs generalizing m with
  | nil => simp
  | cons a xs ih => simp [ih]

theorem lastMode_append (xs ys : List CString) :
    lastMode m (xs ++ ys) = lastMode (lastMode m xs) ys := by
  induction xs generalizing m with
  | nil => simp
  | cons a xs ih => simp [ih]

/-- The input a mark names. -/
def Mark.input? : Mark → Option CString
  | .input a => some a
  | _ => none

/-- The output a mark names. -/
def Mark.output? : Mark → Option CString
  | .output a => some a
  | _ => none

/-- The inputs named by a list of marks. -/
def inputs (ms : List Mark) : List CString := ms.filterMap Mark.input?

/-- The outputs named by a list of marks. -/
def outputs (ms : List Mark) : List CString := ms.filterMap Mark.output?

@[simp] theorem inputs_nil : inputs [] = [] := rfl

@[simp] theorem outputs_nil : outputs [] = [] := rfl

@[simp] theorem inputs_cons (k : Mark) (ms : List Mark) :
    inputs (k :: ms) = k.input?.toList ++ inputs ms := by
  cases k <;> rfl

@[simp] theorem outputs_cons (k : Mark) (ms : List Mark) :
    outputs (k :: ms) = k.output?.toList ++ outputs ms := by
  cases k <;> rfl

@[simp] theorem inputs_append (ms ms' : List Mark) :
    inputs (ms ++ ms') = inputs ms ++ inputs ms' := by simp [inputs]

@[simp] theorem outputs_append (ms ms' : List Mark) :
    outputs (ms ++ ms') = outputs ms ++ outputs ms' := by simp [outputs]

/-- An option names no input. -/
theorem inputs_readWord_dash (h : isDash a = true) : inputs (readWord .word a).1.toList = [] := by
  cases hd : dashWord a <;> simp [readWord, h, hd, Mark.input?]

/-! ### The loop reads the vector -/

/-- What the scanner does with a mark. -/
def Scan.note (s : Scan) : Mark → Except ScanError Scan
  | .input a =>
    if s.input.isSome then .error .distccFailed else .ok { s with input := some a }
  | .output a => s.gotOutput a
  | .optC => .ok { s with seenOptC := true }
  | .optS => .ok { s with seenOptS := true }
  | .stay => .error .distccFailed

variable {argv newargv : List CString} {i o : CString}

/-- A loop that ends well has noted every mark, in order, and stopped between
two words. -/
theorem scanLoop_eq_ok_iff {s s' : Scan} : scanLoop argv s = .ok s' ↔
      (marks .word argv).foldlM Scan.note s = .ok s' ∧ lastMode .word argv = .word := by
  -- along the loop, which takes one word or two at a time
  fun_induction scanLoop argv s <;>
    simp_all [readWord, Scan.note, Except.bind_eq_ok_iff, pure, Except.pure, ← and_assoc]

/-- What the scanner knows once it has noted `ms` from `s`. -/
def Scan.after (s : Scan) (ms : List Mark) : Scan where
  input := (s.input.toList ++ inputs ms).head?
  output := (s.output.toList ++ outputs ms).head?
  seenOptC := s.seenOptC || decide (.optC ∈ ms)
  seenOptS := s.seenOptS || decide (.optS ∈ ms)

/-- Noting succeeds exactly when the command may leave home and names one input
and one output at most. -/
theorem foldlM_note_eq_ok_iff {ms : List Mark} {s s' : Scan} :
    ms.foldlM Scan.note s = .ok s' ↔
      .stay ∉ ms ∧ (s.input.toList ++ inputs ms).length ≤ 1 ∧
        (s.output.toList ++ outputs ms).length ≤ 1 ∧ s' = s.after ms := by
  induction ms generalizing s with
  | nil =>
    rcases s with ⟨i, o, c, t⟩
    cases i <;> cases o <;> simp [Scan.after, pure, Except.pure, eq_comm]
  | cons k ms ih =>
    rcases s with ⟨i, o, c, t⟩
    have full (l : List CString) : 1 + l.length ≤ 1 ↔ l = [] := by
      rw [← List.length_eq_zero_iff]
      omega
    cases k <;> cases i <;> cases o <;>
      simp_all [Scan.note, Scan.gotOutput, Scan.after, Mark.input?, Mark.output?]

/-! ### What is accepted -/

theorem scanFinish_eq_ok_iff {s : Scan} : scanFinish argv s = .ok ⟨i, o, newargv⟩ ↔
      (s.seenOptC = true ∨ s.seenOptS = true) ∧ s.input = some i ∧
        dccSourceNeedsLocal i = false ∧ o ≠ lit "-" ∧
        (s.output = some o ∧ newargv = argv ∨
          s.output = none ∧
            dccOutputFromSource i (if s.seenOptS then lit ".s" else lit ".o") = some o ∧
            newargv = argv ++ [lit "-o", o]) := by
  rcases s with ⟨input, output, c, t⟩
  unfold scanFinish
  constructor
  · intro h
    -- one case for each `return 0` of the source
    repeat' split at h
    all_goals simp_all
    all_goals grind
  · rintro ⟨hact, hin, hloc, hdash, hout⟩
    rcases hout with ⟨hout, rfl⟩ | ⟨hout, hname, rfl⟩ <;> simp_all
    all_goals grind

/-- **A vector reads well**: it starts with a compiler, no word is missing at its
end, and its words name the input `i` once, the output `o` if any and no other,
ask for a compilation, and nowhere for staying at home. -/
@[mk_iff]
structure Reads (argv : List CString) (i : CString) (o : Option CString) : Prop where
  compiler : ∃ c, argv.head? = some c ∧ isDash c = false
  complete : lastMode .word argv = .word
  input : inputs (marks .word argv) = [i]
  output : outputs (marks .word argv) = o.toList
  action : .optC ∈ marks .word argv ∨ .optS ∈ marks .word argv
  leaves : .stay ∉ marks .word argv

/-- The name of the object file when the command gives none. -/
def impliedOutput (argv : List CString) (i : CString) : Option CString :=
  dccOutputFromSource i (if .optS ∈ marks .word argv then lit ".s" else lit ".o")

/-- **What `dcc_scan_args` accepts.** A vector is accepted when it reads well,
whether it names its output or leaves it to be implied, and neither its input nor
its output forbids distribution. -/
theorem dccScanArgs_eq_ok_iff : dccScanArgs argv = .ok ⟨i, o, newargv⟩ ↔
      dccSourceNeedsLocal i = false ∧ o ≠ lit "-" ∧
        (Reads argv i (some o) ∧ newargv = argv ∨
          Reads argv i none ∧ impliedOutput argv i = some o ∧
            newargv = argv ++ [lit "-o", o]) := by
  have hone {l : List CString} {a : CString} : l.length ≤ 1 ∧ l.head? = some a ↔ l = [a] := by
    rcases l with _ | ⟨b, _ | ⟨c, l⟩⟩ <;> simp
  have hstart : dccScanArgs argv = .ok ⟨i, o, newargv⟩ ↔
      (∃ c, argv.head? = some c ∧ isDash c = false) ∧
        ∃ s, scanLoop argv {} = .ok s ∧ scanFinish argv s = .ok ⟨i, o, newargv⟩ := by
    unfold dccScanArgs
    rcases argv with _ | ⟨c, argv⟩
    · simp
    · cases hc : isDash c <;> cases scanLoop (c :: argv) {} <;> simp [hc]
  simp only [hstart, scanLoop_eq_ok_iff, foldlM_note_eq_ok_iff, scanFinish_eq_ok_iff]
  constructor
  · rintro ⟨hc, _, ⟨⟨hstay, hin, hout, rfl⟩, hlast⟩, hact, hi, hloc, hdash, hname⟩
    have reads {o'} (h : (outputs (marks .word argv)).head? = o') : Reads argv i o' := by
      refine ⟨hc, hlast, hone.mp ⟨by simpa using hin, by simpa [Scan.after] using hi⟩, ?_,
        by simpa [Scan.after] using hact, hstay⟩
      cases o' with
      | none => simpa using h
      | some a => exact hone.mp ⟨by simpa using hout, h⟩
    refine ⟨hloc, hdash, ?_⟩
    rcases hname with ⟨ho, rfl⟩ | ⟨ho, hname, rfl⟩
    · exact .inl ⟨reads (by simpa [Scan.after] using ho), rfl⟩
    · exact .inr ⟨reads (by simpa [Scan.after] using ho),
        by simpa [Scan.after, impliedOutput] using hname, rfl⟩
  · rintro ⟨hloc, hdash, hname⟩
    rcases hname with ⟨h, rfl⟩ | ⟨h, hname, rfl⟩
    all_goals
      refine ⟨h.compiler, _, ⟨⟨h.leaves, ?_, ?_, rfl⟩, h.complete⟩, ?_, ?_, hloc, hdash, ?_⟩
    all_goals simp [Scan.after, h.input, h.output, h.action]
    simpa [impliedOutput] using hname

/-- The implied output is appended where the words end, so it reads as `-o` does
anywhere. -/
theorem Reads.append_output (h : Reads argv i none) : Reads (argv ++ [lit "-o", o]) i (some o) := by
  have hmarks : marks .word (argv ++ [lit "-o", o]) = marks .word argv ++ [.output o] := by
    simp [marks_append, h.complete]
  refine ⟨?_, ?_, ?_, ?_, ?_, ?_⟩
  · obtain ⟨c, hc, hdash⟩ := h.compiler
    exact ⟨c, by simp [hc], hdash⟩
  · simp [lastMode_append, h.complete]
  · simp [hmarks, h.input, Mark.input?]
  · simp [hmarks, h.output, Mark.output?]
  · simpa [hmarks] using h.action
  · simpa [hmarks] using h.leaves

/-- The vector `dcc_scan_args` gives back names its output. -/
theorem reads_newargv (h : dccScanArgs argv = .ok ⟨i, o, newargv⟩) : Reads newargv i (some o) := by
  obtain ⟨-, -, ⟨hreads, rfl⟩ | ⟨hreads, -, rfl⟩⟩ := dccScanArgs_eq_ok_iff.mp h
  · exact hreads
  · exact hreads.append_output

theorem inputs_of_dccScanArgs
    (h : dccScanArgs argv = .ok ⟨i, o, newargv⟩) : inputs (marks .word argv) = [i] := by
  obtain ⟨-, -, ⟨hreads, -⟩ | ⟨hreads, -⟩⟩ := dccScanArgs_eq_ok_iff.mp h
  · exact hreads.input
  · exact hreads.input

/-- **The vector that is given back is scanned like the one that was given**: with the same
input and the same output, and nothing is appended again. -/
theorem dccScanArgs_newargv (h : dccScanArgs argv = .ok ⟨i, o, newargv⟩) :
    dccScanArgs newargv = .ok ⟨i, o, newargv⟩ := by
  obtain ⟨hi, ho, -⟩ := dccScanArgs_eq_ok_iff.mp h
  exact dccScanArgs_eq_ok_iff.mpr ⟨hi, ho, .inl ⟨reads_newargv h, rfl⟩⟩

/-- `gcc -c a.c`, which leaves its output to be implied. -/
theorem dccScanArgs_newargv_implied : ∃ scanned,
    dccScanArgs (["gcc", "-c", "a.c"].map lit) = .ok scanned ∧
      dccScanArgs scanned.newargv = .ok scanned := by
  have hscan : dccScanArgs (["gcc", "-c", "a.c"].map lit) =
      .ok ⟨lit "a.c", lit "a.o", ["gcc", "-c", "a.c", "-o", "a.o"].map lit⟩ := by decide
  exact ⟨_, hscan, dccScanArgs_newargv hscan⟩

end Distcc
