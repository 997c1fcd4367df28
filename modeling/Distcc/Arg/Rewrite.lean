import Distcc.Arg.Scan

/-!
# Rewriting a scanned command

Model of the three functions of `src/arg.c` that change a vector after it was
scanned: `dcc_set_action_opt` (the client, before it preprocesses), and
`dcc_set_output` and `dcc_set_input` (the server, before it compiles).

The last two look for the word to change by rules of their own, simpler than
those of `dcc_scan_args`: neither knows that the word after `-MF`, `-MT`, `-MQ`
or `-o` is an operand. The comment over `dcc_set_output` calls it crucially
important that the two agree, and the one over `dcc_set_input` asks for a test
that they do. They agree on the commands for which the first word they would
change is the one the scanner read, and on hardly any others: both conditions
are stated exactly below, in terms of how the scanner reads that word.
-/

namespace Distcc

open CString List

/-! ### The functions -/

/-- `dcc_set_action_opt`: every `-c` and `-S` becomes `newC`; `none` stands for
`EXIT_DISTCC_FAILED`. -/
def dccSetActionOpt (newC : CString) (a : List CString) : Option (List CString) :=
  if a.any (fun w => w = lit "-c" ∨ w = lit "-S") then
    some (a.map fun w => if w = lit "-c" ∨ w = lit "-S" then newC else w)
  else none

/-- `dcc_set_output`: the first word that starts with `-o` decides; `none` stands
for `EXIT_DISTCC_FAILED`. -/
def dccSetOutput (ofname : CString) : List CString → Option (List CString)
  | [] => none
  | a :: rest =>
    if startsWith (lit "-o") a then
      match decide (a = lit "-o"), rest with
      | true, _ :: rest => some (a :: ofname :: rest)
      -- `strncmp(a[i], "-o", 2)` holds of a last `-o` as well
      | _, rest => some ((lit "-o" ++ ofname) :: rest)
    else (dccSetOutput ofname rest).map (a :: ·)

/-- `dcc_set_input`: the first word that looks like a source is replaced; `none`
stands for `EXIT_DISTCC_FAILED`. -/
def dccSetInput (ifname : CString) : List CString → Option (List CString)
  | [] => none
  | a :: rest =>
    if dccIsSource a then some (ifname :: rest) else (dccSetInput ifname rest).map (a :: ·)

variable {xs : List CString}

theorem dccSetOutput_append {t : CString} (l : List CString)
    (h : ∀ x ∈ xs, startsWith (lit "-o") x = false) :
    dccSetOutput t (xs ++ l) = (dccSetOutput t l).map (xs ++ ·) := by
  induction xs with
  | nil => simp
  | cons a xs ih =>
    have ha : startsWith (lit "-o") a = false := h a (by simp)
    have hxs := ih fun x hx => h x (by simp [hx])
    simp [dccSetOutput, ha, hxs, Function.comp_def]

theorem dccSetOutput_dash_o (t x : CString) (zs : List CString) :
    dccSetOutput t (lit "-o" :: x :: zs) = some (lit "-o" :: t :: zs) := by
  have hw : startsWith (lit "-o") (lit "-o") = true := by decide
  simp [dccSetOutput, hw]

theorem dccSetOutput_attached {t w : CString} {ys : List CString}
    (hw : startsWith (lit "-o") w = true) (hys : w = lit "-o" → ys = []) :
    dccSetOutput t (w :: ys) = some ((lit "-o" ++ t) :: ys) := by
  cases ys with
  | nil => simp [dccSetOutput, hw]
  | cons y ys =>
    have hne : w ≠ lit "-o" := fun h => by cases hys h
    simp [dccSetOutput, hw, hne]

theorem dccSetInput_append {t : CString} (l : List CString) (h : ∀ x ∈ xs, dccIsSource x = false) :
    dccSetInput t (xs ++ l) = (dccSetInput t l).map (xs ++ ·) := by
  induction xs with
  | nil => simp
  | cons a xs ih =>
    have ha : dccIsSource a = false := h a (by simp)
    have hxs := ih fun x hx => h x (by simp [hx])
    simp [dccSetInput, ha, hxs, Function.comp_def]

/-- A vector either has no word that satisfies `p`, or a first one. -/
theorem forall_or_first (p : CString → Bool) (l : List CString) :
    (∀ x ∈ l, p x = false) ∨
      ∃ xs w ys, l = xs ++ w :: ys ∧ (∀ x ∈ xs, p x = false) ∧ p w = true := by
  cases h : l.find? p with
  | none => exact .inl (by simpa using find?_eq_none.mp h)
  | some w =>
    obtain ⟨hw, xs, ys, rfl, hxs⟩ := find?_eq_some_iff_append.mp h
    exact .inr ⟨xs, w, ys, rfl, by simpa using hxs, hw⟩

/-! ### Reading the rewritten vector -/

theorem lastMode_ne_output (h : ∀ x ∈ xs, startsWith (lit "-o") x = false) :
    lastMode .word xs ≠ .output := by
  rcases eq_nil_or_concat xs with rfl | ⟨ys, a, rfl⟩
  · simp
  · intro hmode
    rw [concat_eq_append, lastMode_append] at hmode
    obtain rfl := readWord_snd_eq_output hmode
    exact absurd (h (lit "-o") (by simp)) (by decide)

/-- A mark that names a file, and says nothing else. -/
def Mark.Names (k : Mark) : Prop := (∃ a, k = .input a) ∨ ∃ a, k = .output a

section Replace

variable {xs ys : List CString} {w w' i i' : CString} {o o' : Option CString} {m : Mode}
  {k k' : Option Mark}

section

variable (h : Reads (xs ++ w :: ys) i o)
include h

/-- **Changing one word.** When the old word and the new one hand the same mode
on and do no more than name a file, the new vector reads well exactly when the
files it names are the right ones. -/
theorem Reads.replace_iff
    (hw : readWord (lastMode .word xs) w = (k, m)) (hw' : readWord (lastMode .word xs) w' = (k', m))
    (hk : ∀ x ∈ k, x.Names) (hk' : ∀ x ∈ k', x.Names) (hfirst : xs = [] → isDash w' = false) :
    Reads (xs ++ w' :: ys) i' o' ↔
      inputs (marks .word xs) ++ (inputs k'.toList ++ inputs (marks m ys)) = [i'] ∧
        outputs (marks .word xs) ++ (outputs k'.toList ++ outputs (marks m ys)) = o'.toList := by
  have hold : marks .word (xs ++ w :: ys) = marks .word xs ++ (k.toList ++ marks m ys) := by
    simp [marks_append, hw]
  have hnew : marks .word (xs ++ w' :: ys) = marks .word xs ++ (k'.toList ++ marks m ys) := by
    simp [marks_append, hw']
  have hmem {x : Mark} (hx : ¬x.Names) :
      x ∈ marks .word (xs ++ w' :: ys) ↔ x ∈ marks .word (xs ++ w :: ys) := by
    have h1 : x ∉ k.toList := fun hx' => hx (hk x (by simpa using hx'))
    have h2 : x ∉ k'.toList := fun hx' => hx (hk' x (by simpa using hx'))
    simp only [hold, hnew, mem_append, h1, h2]
  constructor
  · intro h'
    have hin := h'.input
    have hout := h'.output
    rw [hnew] at hin hout
    exact ⟨by simpa using hin, by simpa using hout⟩
  · rintro ⟨hin, hout⟩
    refine ⟨?_, ?_, by simpa [hnew] using hin, by simpa [hnew] using hout, ?_, ?_⟩
    · cases xs with
      | nil => exact ⟨w', rfl, hfirst rfl⟩
      | cons c xs => simpa using h.compiler
    · have hlast := h.complete
      simpa [lastMode_append, hw, hw'] using hlast
    · rw [hmem (by simp [Mark.Names]), hmem (by simp [Mark.Names])]
      exact h.action
    · rw [hmem (by simp [Mark.Names])]
      exact h.leaves

/-- The new word names an output in the place of another one. -/
theorem Reads.replace_output {b t : CString}
    (hw : readWord (lastMode .word xs) w = (some (.output b), m))
    (hw' : readWord (lastMode .word xs) w' = (some (.output t), m))
    (hfirst : xs = [] → isDash w' = false) : Reads (xs ++ w' :: ys) i (some t) := by
  have hin := h.input
  have hout := h.output
  simp only [marks_append, marks_cons, hw, inputs_append, outputs_append] at hin hout
  refine (h.replace_iff hw hw' (by simp [Mark.Names]) (by simp [Mark.Names]) hfirst).mpr ⟨?_, ?_⟩
  · simpa [Mark.input?] using hin
  · cases o <;> simp_all [Mark.output?, append_eq_singleton_iff]

/-- The new word names an input in the place of another one. -/
theorem Reads.replace_input {a t : CString}
    (hw : readWord (lastMode .word xs) w = (some (.input a), m))
    (hw' : readWord (lastMode .word xs) w' = (some (.input t), m))
    (hfirst : xs = [] → isDash w' = false) : Reads (xs ++ w' :: ys) t o := by
  have hin := h.input
  have hout := h.output
  simp only [marks_append, marks_cons, hw, inputs_append, outputs_append] at hin hout
  refine (h.replace_iff hw hw' (by simp [Mark.Names]) (by simp [Mark.Names]) hfirst).mpr ⟨?_, ?_⟩
  · simp_all [Mark.input?, append_eq_singleton_iff]
  · simpa [Mark.output?] using hout

end

/-- A vector with a bare object name in it reads as the one without it does, but
for its output. -/
theorem reads_insert_object_iff {t : CString} (hmode : lastMode .word xs = .word)
    (hne : xs ≠ []) (hd : isDash t = false) (ht : endsWith (lit ".o") t = true) :
    Reads (xs ++ t :: ys) i (some t) ↔ Reads (xs ++ ys) i none := by
  have hread : readWord .word t = (some (.output t), .word) := readWord_word_object hd ht
  have hold : marks .word (xs ++ ys) = marks .word xs ++ marks .word ys := by
    simp [marks_append, hmode]
  have hnew : marks .word (xs ++ t :: ys) = marks .word xs ++ .output t :: marks .word ys := by
    simp [marks_append, hmode, hread]
  have hhead : (xs ++ t :: ys).head? = (xs ++ ys).head? := by
    cases xs with
    | nil => exact absurd rfl hne
    | cons c xs => rfl
  have hlast : lastMode .word (xs ++ t :: ys) = lastMode .word (xs ++ ys) := by
    simp [lastMode_append, hmode, hread]
  -- the object name adds one output, and nothing else
  rw [reads_iff, reads_iff, hhead, hlast, hold, hnew]
  simp [Mark.input?, Mark.output?, append_eq_singleton_iff]

end Replace

/-! ### Where the two rewriters find what the scanner found -/

/-- **When `dcc_set_output` changes the output**: there is a word that starts
with `-o`, and the first of them either is read as an option, or is an operand of
`-MF`, `-MT` or `-MQ` and

* is `-o` itself, and the word after it is all that named an output; or
* is changed without being read, and the new name is the old one. -/
def FindsOutput (newargv : List CString) (i o t : CString) : Prop :=
  ∃ xs w ys, newargv = xs ++ w :: ys ∧ (∀ x ∈ xs, startsWith (lit "-o") x = false) ∧
    startsWith (lit "-o") w = true ∧
    (lastMode .word xs = .word ∨
      lastMode .word xs = .skip ∧
        (w = lit "-o" ∧ (∃ x zs, ys = x :: zs ∧ Reads (xs ++ w :: zs) i none) ∨
          (w = lit "-o" → ys = []) ∧ t = o))

/-- **When `dcc_set_input` changes the input**: the first word that looks like a
source is read as a word of its own and not as an option; or it is an operand and
the change makes no difference. -/
def FindsInput (newargv : List CString) (i o t : CString) : Prop :=
  ∃ xs w ys, newargv = xs ++ w :: ys ∧ (∀ x ∈ xs, dccIsSource x = false) ∧
    dccIsSource w = true ∧
    (lastMode .word xs = .word ∧ isDash w = false ∨
      lastMode .word xs = .skip ∧ t = i ∨
      lastMode .word xs = .output ∧ t = i ∧ t = o)

/-- After an output was written into a vector, none is implied. -/
theorem dccScanArgs_iff_reads {a : List CString} {i t : CString}
    (hi : dccSourceNeedsLocal i = false) (ht : t ≠ lit "-")
    (hout : outputs (marks .word a) ≠ []) :
    (∃ a', dccScanArgs a = .ok ⟨i, t, a'⟩) ↔ Reads a i (some t) := by
  simp only [dccScanArgs_eq_ok_iff]
  constructor
  · rintro ⟨a', -, -, ⟨h, -⟩ | ⟨h, -⟩⟩
    · exact h
    · exact absurd (by simpa using h.output) hout
  · intro h
    exact ⟨a, hi, ht, .inl ⟨h, rfl⟩⟩

/-- What is scanned is what was written. -/
theorem exists_set_iff {set : Option (List CString)} {v : List CString} {i t : CString}
    (h : set = some v) : (∃ a a', set = some a ∧ dccScanArgs a = .ok ⟨i, t, a'⟩) ↔
      ∃ a', dccScanArgs v = .ok ⟨i, t, a'⟩ := by
  simp [h]

/-- Where a word is not read, to change it changes nothing. -/
theorem Reads.replace_skipped {xs ys : List CString} {w i o i' t : CString}
    (hr : Reads (xs ++ w :: ys) i (some o)) (hm : lastMode .word xs = .skip)
    (hi : dccSourceNeedsLocal i' = false) (ht : t ≠ lit "-") (w' : CString) :
    (∃ a', dccScanArgs (xs ++ w' :: ys) = .ok ⟨i', t, a'⟩) ↔ i' = i ∧ t = o := by
  have hread (a : CString) : readWord (lastMode .word xs) a = (none, .word) := by
    rw [hm, readWord_skip]
  have hfirst : xs ≠ [] := by
    rintro rfl
    cases hm
  have hin := hr.input
  have hout := hr.output
  simp only [marks_append, marks_cons, hread, inputs_append, outputs_append] at hin hout
  have hout' : outputs (marks .word (xs ++ w' :: ys)) = [o] := by
    simpa [marks_append, hm] using hout
  rw [dccScanArgs_iff_reads hi ht (by simp [hout']),
    hr.replace_iff (hread _) (hread _) (by simp) (by simp) fun h => absurd h hfirst, hin, hout]
  simp [eq_comm]

/-! ### The output -/

section Output

variable {xs ys : List CString} {w i o t : CString}

/-- Where `dcc_set_output` changes the word after a `-o`. -/
theorem dccSetOutput_next_iff {x : CString} (hr : Reads (xs ++ lit "-o" :: x :: ys) i (some o))
    (hxs : ∀ x ∈ xs, startsWith (lit "-o") x = false) (hi : dccSourceNeedsLocal i = false)
    (ht : endsWith (lit ".o") t = true) (hd : isDash t = false) :
    (∃ a a', dccSetOutput t (xs ++ lit "-o" :: x :: ys) = some a ∧
        dccScanArgs a = .ok ⟨i, t, a'⟩) ↔
      lastMode .word xs = .word ∨
        lastMode .word xs = .skip ∧ Reads (xs ++ lit "-o" :: ys) i none := by
  have hdash : t ≠ lit "-" := by
    rintro rfl
    exact absurd ht (by decide)
  have hmode := lastMode_ne_output hxs
  have hset : dccSetOutput t (xs ++ lit "-o" :: x :: ys) = some (xs ++ lit "-o" :: t :: ys) := by
    rw [dccSetOutput_append _ hxs, dccSetOutput_dash_o, Option.map_some]
  rw [exists_set_iff hset]
  cases hm : lastMode .word xs with
  | output => exact absurd hm hmode
  | word =>
    -- `-o` is an option, and the new name stands where the scanner looks for it
    have hnext : lastMode .word (xs ++ [lit "-o"]) = .output := by simp [lastMode_append, hm]
    have hr' : Reads ((xs ++ [lit "-o"]) ++ x :: ys) i (some o) := by simpa using hr
    have hold : readWord (lastMode .word (xs ++ [lit "-o"])) x = (some (.output x), .word) := by
      rw [hnext, readWord_output]
    have hnew : readWord (lastMode .word (xs ++ [lit "-o"])) t = (some (.output t), .word) := by
      rw [hnext, readWord_output]
    have hreads := hr'.replace_output hold hnew (by simp)
    refine ⟨fun _ => .inl rfl, fun _ => ⟨_, dccScanArgs_eq_ok_iff.mpr ⟨hi, hdash, .inl ⟨?_, rfl⟩⟩⟩⟩
    simpa using hreads
  | skip =>
    -- `-o` is an operand, and the new name is read as a bare object name
    have hnext : lastMode .word (xs ++ [lit "-o"]) = .word := by simp [lastMode_append, hm]
    have hinsert : Reads ((xs ++ [lit "-o"]) ++ t :: ys) i (some t) ↔
        Reads ((xs ++ [lit "-o"]) ++ ys) i none :=
      reads_insert_object_iff hnext (by simp) hd ht
    have hout : outputs (marks .word (xs ++ lit "-o" :: t :: ys)) ≠ [] := by
      simp [marks_append, hm, readWord_word_object hd ht, Mark.output?]
    rw [dccScanArgs_iff_reads hi hdash hout]
    simpa using hinsert

/-- Where `dcc_set_output` changes a word with the output attached to it. -/
theorem dccSetOutput_attached_iff (hr : Reads (xs ++ w :: ys) i (some o))
    (hxs : ∀ x ∈ xs, startsWith (lit "-o") x = false) (hw : startsWith (lit "-o") w = true)
    (hys : w = lit "-o" → ys = []) (hi : dccSourceNeedsLocal i = false)
    (ht : endsWith (lit ".o") t = true) :
    (∃ a a', dccSetOutput t (xs ++ w :: ys) = some a ∧ dccScanArgs a = .ok ⟨i, t, a'⟩) ↔
      lastMode .word xs = .word ∨ lastMode .word xs = .skip ∧ t = o := by
  have hdash : t ≠ lit "-" := by
    rintro rfl
    exact absurd ht (by decide)
  have hne : t ≠ [] := by
    rintro rfl
    exact absurd ht (by decide)
  have hmode := lastMode_ne_output hxs
  obtain ⟨b, rfl⟩ := startsWith_iff.mp hw
  have hfirst : xs ≠ [] := by
    rintro rfl
    obtain ⟨c, hc, hcd⟩ := hr.compiler
    obtain rfl : lit "-o" ++ b = c := by simpa using hc
    rw [isDash_dash_o_append] at hcd
    cases hcd
  have hset : dccSetOutput t (xs ++ (lit "-o" ++ b) :: ys) =
      some (xs ++ (lit "-o" ++ t) :: ys) := by
    rw [dccSetOutput_append _ hxs, dccSetOutput_attached hw hys, Option.map_some]
  rw [exists_set_iff hset]
  cases hm : lastMode .word xs with
  | output => exact absurd hm hmode
  | word =>
    have hb : b ≠ [] := by
      rintro rfl
      -- a last `-o` would leave the scanner waiting for a name
      have hlast := hr.complete
      simp [hys, lastMode_append, hm] at hlast
    have hold : readWord (lastMode .word xs) (lit "-o" ++ b) = (some (.output b), .word) := by
      rw [hm, readWord_dash_o_append hb]
    have hnew : readWord (lastMode .word xs) (lit "-o" ++ t) = (some (.output t), .word) := by
      rw [hm, readWord_dash_o_append hne]
    have hreads := hr.replace_output hold hnew fun h => absurd h hfirst
    exact ⟨fun _ => .inl rfl,
      fun _ => ⟨_, dccScanArgs_eq_ok_iff.mpr ⟨hi, hdash, .inl ⟨hreads, rfl⟩⟩⟩⟩
  | skip =>
    -- neither word is read, so nothing changes
    rw [hr.replace_skipped hm hi hdash]
    simp

/-- **Rewriting the output.** After `dcc_scan_args` accepted a vector,
`dcc_set_output` gives it the output `t`, and leaves its input alone, exactly
when it finds the output. -/
theorem dccSetOutput_rescans_iff {argv newargv : List CString}
    (h : dccScanArgs argv = .ok ⟨i, o, newargv⟩) (ht : endsWith (lit ".o") t = true)
    (hd : isDash t = false) :
    (∃ a a', dccSetOutput t newargv = some a ∧ dccScanArgs a = .ok ⟨i, t, a'⟩) ↔
      FindsOutput newargv i o t := by
  have hr := reads_newargv h
  have hi := (dccScanArgs_eq_ok_iff.mp h).1
  -- at a given first word, the two lemmas above
  have hat {xs w ys} (hargv : newargv = xs ++ w :: ys)
      (hxs : ∀ x ∈ xs, startsWith (lit "-o") x = false) (hw : startsWith (lit "-o") w = true) :
      (∃ a a', dccSetOutput t newargv = some a ∧ dccScanArgs a = .ok ⟨i, t, a'⟩) ↔
        (lastMode .word xs = .word ∨
          lastMode .word xs = .skip ∧
            (w = lit "-o" ∧ (∃ x zs, ys = x :: zs ∧ Reads (xs ++ w :: zs) i none) ∨
              (w = lit "-o" → ys = []) ∧ t = o)) := by
    subst hargv
    by_cases hnext : w = lit "-o" ∧ ys ≠ []
    · obtain ⟨rfl, hys⟩ := hnext
      obtain ⟨x, zs, rfl⟩ := exists_cons_of_ne_nil hys
      rw [dccSetOutput_next_iff hr hxs hi ht hd]
      simp [and_assoc]
    · have hys : w = lit "-o" → ys = [] := fun hw' => by
        by_contra hys
        exact hnext ⟨hw', hys⟩
      rw [dccSetOutput_attached_iff hr hxs hw hys hi ht]
      constructor
      · rintro (hm | ⟨hm, rfl⟩)
        · exact .inl hm
        · exact .inr ⟨hm, .inr ⟨hys, rfl⟩⟩
      · rintro (hm | ⟨hm, ⟨rfl, x, zs, rfl, -⟩ | ⟨-, rfl⟩⟩)
        · exact .inl hm
        · exact absurd (hys rfl) (by simp)
        · exact .inr ⟨hm, rfl⟩
  constructor
  · rintro hset
    rcases forall_or_first (startsWith (lit "-o")) newargv with hnone | ⟨xs, w, ys, hargv, hxs, hw⟩
    · obtain ⟨a, a', ha, -⟩ := hset
      have hnil := dccSetOutput_append (t := t) [] hnone
      simp [dccSetOutput, ha] at hnil
    · exact ⟨xs, w, ys, hargv, hxs, hw, (hat hargv hxs hw).mp hset⟩
  · rintro ⟨xs, w, ys, hargv, hxs, hw, hcond⟩
    exact (hat hargv hxs hw).mpr hcond

/-- On `gcc -c hello.c` the output is found: it was appended as `-o hello.o`. -/
theorem dccSetOutput_rescans_hello :
    ∃ a a', dccSetOutput (lit "/tmp/d.o") (["gcc", "-c", "hello.c", "-o", "hello.o"].map lit) =
        some a ∧ dccScanArgs a = .ok ⟨lit "hello.c", lit "/tmp/d.o", a'⟩ := by
  have hscan : dccScanArgs (["gcc", "-c", "hello.c"].map lit) =
      .ok ⟨lit "hello.c", lit "hello.o", ["gcc", "-c", "hello.c", "-o", "hello.o"].map lit⟩ := by
    decide
  refine (dccSetOutput_rescans_iff hscan (by decide) (by decide)).mpr
    ⟨["gcc", "-c", "hello.c"].map lit, lit "-o", [lit "hello.o"], by decide, by decide, by decide,
      .inl (by decide)⟩

/-- `gcc -c foo.c foo.o`: the scanner takes the bare `foo.o` for the output, and
`dcc_set_output` looks for a `-o`. -/
theorem dccSetOutput_misses_bare_object :
    dccScanArgs (["gcc", "-c", "foo.c", "foo.o"].map lit) =
        .ok ⟨lit "foo.c", lit "foo.o", ["gcc", "-c", "foo.c", "foo.o"].map lit⟩ ∧
      endsWith (lit ".o") (lit "/tmp/d.o") = true ∧ isDash (lit "/tmp/d.o") = false ∧
      ¬∃ a a', dccSetOutput (lit "/tmp/d.o") (["gcc", "-c", "foo.c", "foo.o"].map lit) = some a ∧
        dccScanArgs a = .ok ⟨lit "foo.c", lit "/tmp/d.o", a'⟩ := by
  refine ⟨by decide, by decide, by decide, ?_⟩
  rintro ⟨a, a', ha, -⟩
  have hnone : dccSetOutput (lit "/tmp/d.o") (["gcc", "-c", "foo.c", "foo.o"].map lit) = none := by
    decide
  rw [hnone] at ha
  cases ha

end Output

/-! ### The input -/

section Input

variable {xs ys : List CString} {w i o t : CString}

/-- What `dcc_set_input` does at the first word that looks like a source. -/
theorem dccSetInput_first_iff (hr : Reads (xs ++ w :: ys) i (some o))
    (hxs : ∀ x ∈ xs, dccIsSource x = false) (hw : dccIsSource w = true) (ho : o ≠ lit "-")
    (hd : isDash t = false) (hs : dccIsSource t = true) (ht : dccSourceNeedsLocal t = false) :
    (∃ a a', dccSetInput t (xs ++ w :: ys) = some a ∧ dccScanArgs a = .ok ⟨t, o, a'⟩) ↔
      lastMode .word xs = .word ∧ isDash w = false ∨
        lastMode .word xs = .skip ∧ t = i ∨
        lastMode .word xs = .output ∧ t = i ∧ t = o := by
  have hset : dccSetInput t (xs ++ w :: ys) = some (xs ++ t :: ys) := by
    rw [dccSetInput_append _ hxs]
    simp [dccSetInput, hw]
  have hin := hr.input
  have hout := hr.output
  rw [exists_set_iff hset]
  cases hm : lastMode .word xs with
  | word =>
    have hnew : readWord (lastMode .word xs) t = (some (.input t), .word) := by
      rw [hm, readWord_word_source hd hs]
    cases hwd : isDash w with
    | false =>
      have hold : readWord (lastMode .word xs) w = (some (.input w), .word) := by
        rw [hm, readWord_word_source hwd hw]
      have hreads := hr.replace_input hold hnew fun _ => hd
      simp only [and_self, true_or, iff_true]
      exact ⟨_, dccScanArgs_eq_ok_iff.mpr ⟨ht, ho, .inl ⟨hreads, rfl⟩⟩⟩
    | true =>
      -- the input the scanner found is still there, and now there are two
      simp only [Bool.true_eq_false, and_false, reduceCtorEq, false_and, or_self, iff_false]
      rintro ⟨a', ha⟩
      have hin' := inputs_of_dccScanArgs ha
      simp only [marks_append, marks_cons, hm, inputs_append, inputs_readWord_dash hwd,
        readWord_snd_of_source hw] at hin
      simp only [marks_append, marks_cons, hnew, inputs_append] at hin'
      have hone := congrArg List.length hin
      have htwo := congrArg List.length hin'
      simp [Mark.input?] at hone htwo
      omega
  | skip =>
    rw [hr.replace_skipped hm ht ho]
    simp
  | output =>
    have hread (a : CString) : readWord (lastMode .word xs) a = (some (.output a), .word) := by
      rw [hm, readWord_output]
    have hfirst : xs ≠ [] := by
      rintro rfl
      cases hm
    simp only [marks_append, marks_cons, hread, inputs_append, outputs_append] at hin hout
    have hout' : outputs (marks .word (xs ++ t :: ys)) ≠ [] := by
      simp [marks_append, hm, Mark.output?]
    obtain ⟨hxo, -, hyo⟩ :
        outputs (marks .word xs) = [] ∧ w = o ∧ outputs (marks .word ys) = [] := by
      simpa [Mark.output?, append_eq_singleton_iff] using hout
    rw [dccScanArgs_iff_reads ht ho hout',
      hr.replace_iff (hread _) (hread _) (by simp [Mark.Names]) (by simp [Mark.Names])
        fun h => absurd h hfirst, hxo, hyo]
    have hin' : inputs (marks .word xs) ++
        (inputs (some (Mark.output t)).toList ++ inputs (marks .word ys)) = [i] := hin
    rw [hin']
    constructor
    · rintro ⟨hi, ho'⟩
      exact .inr (.inr ⟨rfl, (singleton_inj.mp hi).symm, by simpa [Mark.output?] using ho'⟩)
    · rintro (⟨hm', -⟩ | ⟨hm', -⟩ | ⟨-, rfl, rfl⟩)
      · cases hm'
      · cases hm'
      · exact ⟨rfl, rfl⟩

/-- **Rewriting the input.** After `dcc_scan_args` accepted a vector,
`dcc_set_input` gives it the input `t`, and leaves its output alone, exactly when
it finds the input. -/
theorem dccSetInput_rescans_iff {argv newargv : List CString}
    (h : dccScanArgs argv = .ok ⟨i, o, newargv⟩) (hd : isDash t = false)
    (hs : dccIsSource t = true) (ht : dccSourceNeedsLocal t = false) :
    (∃ a a', dccSetInput t newargv = some a ∧ dccScanArgs a = .ok ⟨t, o, a'⟩) ↔
      FindsInput newargv i o t := by
  have hr := reads_newargv h
  have ho := (dccScanArgs_eq_ok_iff.mp h).2.1
  constructor
  · intro hset
    rcases forall_or_first dccIsSource newargv with hnone | ⟨xs, w, ys, rfl, hxs, hw⟩
    · obtain ⟨a, a', ha, -⟩ := hset
      have hnil := dccSetInput_append (t := t) [] hnone
      simp [dccSetInput, ha] at hnil
    · exact ⟨xs, w, ys, rfl, hxs, hw, (dccSetInput_first_iff hr hxs hw ho hd hs ht).mp hset⟩
  · rintro ⟨xs, w, ys, rfl, hxs, hw, hcond⟩
    exact (dccSetInput_first_iff hr hxs hw ho hd hs ht).mpr hcond

/-- On `gcc -c hello.c -o hello.o` the input is found. -/
theorem dccSetInput_rescans_hello :
    ∃ a a', dccSetInput (lit "/tmp/d.i") (["gcc", "-c", "hello.c", "-o", "hello.o"].map lit) =
        some a ∧ dccScanArgs a = .ok ⟨lit "/tmp/d.i", lit "hello.o", a'⟩ := by
  have hscan : dccScanArgs (["gcc", "-c", "hello.c", "-o", "hello.o"].map lit) =
      .ok ⟨lit "hello.c", lit "hello.o", ["gcc", "-c", "hello.c", "-o", "hello.o"].map lit⟩ := by
    decide
  exact (dccSetInput_rescans_iff hscan (by decide) (by decide) (by decide)).mpr
    ⟨["gcc", "-c"].map lit, lit "hello.c", ["-o", "hello.o"].map lit, by decide, by decide,
      by decide, .inl (by decide)⟩

/-- `gcc -frandom-seed=foo.c -c foo.c`: the option is the first word with the
extension of a source, and `dcc_set_input` writes over it. -/
theorem dccSetInput_overwrites_option :
    dccScanArgs (["gcc", "-frandom-seed=foo.c", "-c", "foo.c"].map lit) =
        .ok ⟨lit "foo.c", lit "foo.o",
          ["gcc", "-frandom-seed=foo.c", "-c", "foo.c", "-o", "foo.o"].map lit⟩ ∧
      isDash (lit "/tmp/d.i") = false ∧ dccIsSource (lit "/tmp/d.i") = true ∧
      dccSourceNeedsLocal (lit "/tmp/d.i") = false ∧
      ¬∃ a a', dccSetInput (lit "/tmp/d.i")
          (["gcc", "-frandom-seed=foo.c", "-c", "foo.c", "-o", "foo.o"].map lit) = some a ∧
        dccScanArgs a = .ok ⟨lit "/tmp/d.i", lit "foo.o", a'⟩ := by
  refine ⟨by decide, by decide, by decide, by decide, ?_⟩
  rintro ⟨a, a', ha, hscan⟩
  have hset : dccSetInput (lit "/tmp/d.i")
      (["gcc", "-frandom-seed=foo.c", "-c", "foo.c", "-o", "foo.o"].map lit) =
        some (["gcc", "/tmp/d.i", "-c", "foo.c", "-o", "foo.o"].map lit) := by
    decide
  obtain rfl := Option.some.inj (hset.symm.trans ha)
  -- "do we have two inputs?  i give up"
  have hgive : dccScanArgs (["gcc", "/tmp/d.i", "-c", "foo.c", "-o", "foo.o"].map lit) =
      .error .distccFailed := by
    decide
  rw [hgive] at hscan
  cases hscan

end Input

end Distcc
