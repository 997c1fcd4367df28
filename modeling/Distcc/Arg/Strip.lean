import Mathlib.Data.List.Perm.Basic
import Distcc.Arg.Scan
import Distcc.Base.Terminated

/-!
# What the client sends of a command

Model of `src/strip.c`. A client that preprocesses locally sends the server the
command without the options that concern the preprocessor and the linker
(`dccStripLocalArgs`), and the server scans what is left.

The function that strips and the one that scans walk over the same words with
different ideas of which of them are operands: for the first, the word after
`-D`, `-I`, `-l`, `-include` and a dozen others; for the second, the word after
`-MF`, `-MT`, `-MQ` and `-o`. To say when the server finds what the client found,
both are followed at once (`Walk`): what the client reads in a word and the
server does not is *lost*, what the server reads there and the client does not is
*gained*. Up to order, what the server reads is what the client reads, without
what is lost and with what is gained (`marks_stripFrom_perm`), so that the
two agree exactly when what is lost is gained elsewhere
(`dccStripLocalArgs_rescans_iff`).
-/

namespace Distcc

open CString List

/-! ### The functions -/

/-- The options `dcc_strip_local_args` drops together with the next word. -/
def stripsOperand (a : CString) : Bool :=
  (["-D", "-I", "-U", "-L", "-l", "-MF", "-MT", "-MQ", "-include", "-imacros", "-iprefix",
    "-iwithprefix", "-isystem", "-iwithprefixbefore", "-idirafter"].map lit).contains a

/-- The options `dcc_strip_local_args` drops alone. -/
def stripsAlone (a : CString) : Bool :=
  (["-Wp,", "-Wl,", "-D", "-U", "-I", "-l", "-L", "-MF", "-MT", "-MQ"].map lit).any
      (startsWith · a) ||
    (["-undef", "-nostdinc", "-nostdinc++", "-MD", "-MMD", "-MG", "-MP"].map lit).contains a

/-- `dcc_strip_local_args`, its result allocated. -/
def dccStripLocalArgs : List CString → List CString
  | [] => []
  | a :: rest =>
    if stripsOperand a then
      match rest with
      | [] => []
      | _ :: rest => dccStripLocalArgs rest
    else if stripsAlone a then dccStripLocalArgs rest
    else a :: dccStripLocalArgs rest

/-- `dcc_strip_dasho`, its result allocated; `none` when a last `-o` makes it read
after the NULL that ends the vector. -/
def dccStripDasho : List CString → Option (List CString)
  | [] => some []
  | a :: rest =>
    if a = lit "-o" then
      match rest with
      | [] => none
      | _ :: rest => dccStripDasho rest
    else if startsWith (lit "-o") a then dccStripDasho rest
    else (dccStripDasho rest).map (a :: ·)

/-- What is left of the words from here on; `drop` says that the first of them is
the operand of a dropped option. -/
def stripFrom : Bool → List CString → List CString
  | _, [] => []
  | true, _ :: rest => stripFrom false rest
  | false, a :: rest =>
    if stripsOperand a then stripFrom true rest
    else if stripsAlone a then stripFrom false rest
    else a :: stripFrom false rest

theorem dccStripLocalArgs_eq_stripFrom (argv : List CString) :
    dccStripLocalArgs argv = stripFrom false argv := by
  fun_induction dccStripLocalArgs argv <;> simp_all [stripFrom]

/-- Does a word stay, with these words before it? Of options in a row that take an operand, each
second one is the operand of the one before it, so that a word after an odd number of them is
dropped with the last one. -/
def stays (before : List CString) (a : CString) : Bool :=
  !stripsOperand a && !stripsAlone a && ¬Dangles stripsOperand before

/-- Between two words, the words before tell where the walk stands. -/
theorem stripFrom_eq_filter (before argv : List CString) :
    stripFrom (pending stripsOperand false before) argv =
      ((argv.zipIdx before.length).filter fun x =>
        stays ((before ++ argv).take x.2) x.1).map Prod.fst := by
  induction argv generalizing before with
  | nil => rfl
  | cons a argv ih =>
    have ih := ih (before ++ [a])
    rw [length_append, length_singleton, append_assoc, singleton_append, pending_append,
      pending_cons, pending_nil] at ih
    rw [zipIdx_cons, filter_cons, take_left]
    cases hpending : pending stripsOperand false before with
    | true =>
      rw [hpending] at ih
      simpa [stripFrom, stays, dangles_iff_pending, hpending] using ih
    | false =>
      rw [hpending] at ih
      cases hoperand : stripsOperand a <;> cases halone : stripsAlone a <;>
        simp_all [stripFrom, stays, dangles_iff_pending]

theorem dccStripLocalArgs_eq_self {argv : List CString}
    (h : ∀ a ∈ argv, stripsOperand a = false ∧ stripsAlone a = false) :
    dccStripLocalArgs argv = argv := by
  fun_induction dccStripLocalArgs argv <;> simp_all

/-- **What is sent are the words that stay**: all but the options that are dropped and their
operands, in the order in which they were. Nothing is taken from it any more. -/
theorem dccStripLocalArgs_strips (argv : List CString) :
    dccStripLocalArgs argv =
        ((argv.zipIdx.filter fun x => stays (argv.take x.2) x.1).map Prod.fst) ∧
      dccStripLocalArgs (dccStripLocalArgs argv) = dccStripLocalArgs argv := by
  have heq : dccStripLocalArgs argv =
      ((argv.zipIdx.filter fun x => stays (argv.take x.2) x.1).map Prod.fst) :=
    (dccStripLocalArgs_eq_stripFrom argv).trans (stripFrom_eq_filter [] argv)
  refine ⟨heq, dccStripLocalArgs_eq_self fun a ha => ?_⟩
  rw [heq, mem_map] at ha
  obtain ⟨x, hx, rfl⟩ := ha
  have hstays := (mem_filter.1 hx).2
  simp only [stays, Bool.and_eq_true, Bool.not_eq_true'] at hstays
  exact hstays.1

/-- Only options are dropped. -/
theorem not_strips_of_not_isDash {a : CString} (h : isDash a = false) :
    stripsOperand a = false ∧ stripsAlone a = false := by
  cases a with
  | nil => decide
  | cons c a =>
    have hdash : '-'.toUInt8 = 45 := by decide
    have hc : c ≠ 45 := by simpa [isDash, hdash] using h
    simp [stripsOperand, stripsAlone, startsWith, lit, List.isPrefixOf, hc, hc.symm]

/-! ### Both walks at once -/

/-- Where the two walks stand between two words. -/
structure Walk where
  /-- How the client's scan reads the next word. -/
  client : Mode := .word
  /-- Is the next word the operand of an option that was dropped? -/
  drop : Bool := false
  /-- How the server's scan reads the next word it is sent. -/
  server : Mode := .word

/-- One word further. -/
def Walk.next (s : Walk) (a : CString) : Walk where
  client := (readWord s.client a).2
  drop := !s.drop && stripsOperand a
  server :=
    if s.drop || stripsOperand a || stripsAlone a then s.server else (readWord s.server a).2

/-- Is the word sent? -/
def Walk.sends (s : Walk) (a : CString) : Bool := !(s.drop || stripsOperand a || stripsAlone a)

/-- What the client reads in a word, when the server does not read it there too. -/
def Walk.lostAt (s : Walk) (a : CString) : Option Mark :=
  if s.sends a ∧ (readWord s.server a).1 = (readWord s.client a).1 then none
  else (readWord s.client a).1

/-- What the server reads in a word, when the client does not read it there too. -/
def Walk.gainedAt (s : Walk) (a : CString) : Option Mark :=
  if s.sends a ∧ (readWord s.server a).1 ≠ (readWord s.client a).1 then (readWord s.server a).1
  else none

/-- What the client reads in the words from here on and the server does not. -/
def lost : Walk → List CString → List Mark
  | _, [] => []
  | s, a :: rest => (s.lostAt a).toList ++ lost (s.next a) rest

/-- What the server reads in the words from here on and the client does not. -/
def gained : Walk → List CString → List Mark
  | _, [] => []
  | s, a :: rest => (s.gainedAt a).toList ++ gained (s.next a) rest

/-- Where the walks stand after a vector. -/
def Walk.after : Walk → List CString → Walk
  | s, [] => s
  | s, a :: rest => (s.next a).after rest

section

variable (s : Walk) (argv : List CString) (a : CString)
include s

theorem Walk.next_server :
    (s.next a).server = if s.sends a then (readWord s.server a).2 else s.server := by
  cases h : s.drop || stripsOperand a || stripsAlone a <;> simp [Walk.next, Walk.sends, h]

/-- A word that is sent heads what is left; any other leaves nothing. -/
theorem stripFrom_cons (rest : List CString) : stripFrom s.drop (a :: rest) =
      (if s.sends a then [a] else []) ++ stripFrom (s.next a).drop rest := by
  rcases s with ⟨client, drop, server⟩
  cases drop <;> cases ho : stripsOperand a <;> cases hs : stripsAlone a <;>
    simp [stripFrom, Walk.sends, Walk.next, ho, hs]

/-- What the server reads in a word, if it is sent one. -/
def Walk.servedAt (s : Walk) (a : CString) : Option Mark :=
  if s.sends a then (readWord s.server a).1 else none

theorem marks_stripFrom_cons (rest : List CString) : marks s.server (stripFrom s.drop (a :: rest)) =
      (s.servedAt a).toList ++ marks (s.next a).server (stripFrom (s.next a).drop rest) := by
  rw [stripFrom_cons, Walk.next_server]
  cases h : s.sends a <;> simp [Walk.servedAt, h]

/-- The books of one word balance. -/
theorem count_servedAt_add_lostAt (k : Mark) :
    (s.servedAt a).toList.count k + (s.lostAt a).toList.count k =
      (readWord s.client a).1.toList.count k + (s.gainedAt a).toList.count k := by
  cases h : s.sends a with
  | false => simp [Walk.servedAt, Walk.lostAt, Walk.gainedAt, h]
  | true =>
    by_cases hsame : (readWord s.server a).1 = (readWord s.client a).1
    · simp [Walk.servedAt, Walk.lostAt, Walk.gainedAt, h, hsame]
    · simp [Walk.servedAt, Walk.lostAt, Walk.gainedAt, h, hsame, Nat.add_comm]

/-- **The books balance**: what the server reads, and what is lost, is what the
client reads, and what is gained. -/
theorem marks_stripFrom_perm : (marks s.server (stripFrom s.drop argv) ++ lost s argv).Perm
      (marks s.client argv ++ gained s argv) := by
  induction argv generalizing s with
  | nil => simp [stripFrom, lost, gained]
  | cons a rest ih =>
    have hrest := ih (s.next a)
    rw [marks_stripFrom_cons, lost, gained, marks_cons]
    rw [perm_iff_count] at hrest ⊢
    intro k
    have hword := count_servedAt_add_lostAt s a k
    have hk := hrest k
    have hclient : (s.next a).client = (readWord s.client a).2 := rfl
    simp only [count_append, hclient] at hk ⊢
    omega

theorem lastMode_stripFrom : lastMode s.server (stripFrom s.drop argv) = (s.after argv).server := by
  induction argv generalizing s with
  | nil => rfl
  | cons a rest ih =>
    rw [stripFrom_cons, Walk.after, ← ih, Walk.next_server]
    cases h : s.sends a <;> simp

/-- Nothing is lost that was not there. -/
theorem lost_subset : lost s argv ⊆ marks s.client argv := by
  induction argv generalizing s with
  | nil => simp [lost]
  | cons a rest ih =>
    rw [lost, marks_cons]
    refine append_subset.mpr ⟨?_, subset_append_of_subset_right _ (ih (s.next a))⟩
    refine subset_append_of_subset_left _ ?_
    unfold Walk.lostAt
    split
    · simp
    · exact List.Subset.refl _

end

/-! ### When the server finds what the client found -/

/-- Does the server still read a mark `k` somewhere? -/
def Survives (newargv : List CString) (k : Mark) : Prop :=
  (lost {} newargv).count k < (marks .word newargv ++ gained {} newargv).count k
deriving Decidable

/-- **When the two sides agree**: the server is sent no option without its
operand, every input that is lost is gained elsewhere, and every output too –
unless the output is lost and is the one the server implies –, some option still
asks for a compilation, and none that was an operand before now asks for staying
at home. -/
structure Agrees (newargv : List CString) (i o : CString) : Prop where
  complete : (Walk.after {} newargv).server = .word
  input : (inputs (lost {} newargv)).Perm (inputs (gained {} newargv))
  output : (outputs (lost {} newargv)).Perm (outputs (gained {} newargv)) ∨
    (outputs (lost {} newargv)).Perm (o :: outputs (gained {} newargv)) ∧
      dccOutputFromSource i (if Survives newargv .optS then lit ".s" else lit ".o") = some o
  action : Survives newargv .optC ∨ Survives newargv .optS
  leaves : .stay ∉ gained {} newargv

section Agreement

variable {newargv l taken added : List CString} {i o : CString}

theorem mem_marks_strip_iff {k : Mark} :
    k ∈ marks .word (dccStripLocalArgs newargv) ↔ Survives newargv k := by
  have hperm := (marks_stripFrom_perm {} newargv).count_eq k
  rw [← count_pos_iff, Survives, dccStripLocalArgs_eq_stripFrom]
  simp only [count_append] at hperm ⊢
  omega

theorem inputs_strip_perm (newargv : List CString) :
    (inputs (marks .word (dccStripLocalArgs newargv)) ++ inputs (lost {} newargv)).Perm
      (inputs (marks .word newargv) ++ inputs (gained {} newargv)) := by
  have hperm := (marks_stripFrom_perm {} newargv).filterMap Mark.input?
  rw [dccStripLocalArgs_eq_stripFrom, ← inputs_append, ← inputs_append]
  exact hperm

theorem outputs_strip_perm (newargv : List CString) :
    (outputs (marks .word (dccStripLocalArgs newargv)) ++ outputs (lost {} newargv)).Perm
      (outputs (marks .word newargv) ++ outputs (gained {} newargv)) := by
  have hperm := (marks_stripFrom_perm {} newargv).filterMap Mark.output?
  rw [dccStripLocalArgs_eq_stripFrom, ← outputs_append, ← outputs_append]
  exact hperm

/-- What is left of a list with one element, when something was taken and
something was added. -/
theorem eq_singleton_iff_of_perm {a : CString}
    (h : (l ++ taken).Perm ([a] ++ added)) : l = [a] ↔ taken.Perm added := by
  constructor
  · rintro rfl
    exact (perm_append_left_iff _).mp h
  · intro htaken
    have hadded : (l ++ added).Perm ([a] ++ added) :=
      (List.Perm.append_left l htaken.symm).trans h
    exact perm_singleton.mp ((perm_append_right_iff _).mp hadded)

theorem eq_nil_iff_of_perm {a : CString}
    (h : (l ++ taken).Perm ([a] ++ added)) : l = [] ↔ taken.Perm (a :: added) := by
  constructor
  · rintro rfl
    exact h
  · intro htaken
    have hlen := h.length_eq
    have hlen' := htaken.length_eq
    simp only [length_append, length_cons, length_nil] at hlen hlen'
    exact length_eq_zero_iff.mp (by omega)

/-- The compiler is not stripped. -/
theorem head?_strip (h : ∃ c, newargv.head? = some c ∧ isDash c = false) :
    (dccStripLocalArgs newargv).head? = newargv.head? := by
  obtain ⟨c, hc, hdash⟩ := h
  cases newargv with
  | nil => rfl
  | cons c' rest =>
    obtain rfl : c' = c := by simpa using hc
    obtain ⟨hoperand, halone⟩ := not_strips_of_not_isDash hdash
    simp [dccStripLocalArgs_eq_stripFrom, stripFrom, hoperand, halone]

/-- What is left of a vector reads well, with the output `o'`, exactly when the
books say so. -/
theorem reads_strip_iff {o' : Option CString} (h : Reads newargv i (some o)) :
    Reads (dccStripLocalArgs newargv) i o' ↔
      (Walk.after {} newargv).server = .word ∧
        (inputs (lost {} newargv)).Perm (inputs (gained {} newargv)) ∧
        outputs (marks .word (dccStripLocalArgs newargv)) = o'.toList ∧
        (Survives newargv .optC ∨ Survives newargv .optS) ∧ .stay ∉ gained {} newargv := by
  have hperm := inputs_strip_perm newargv
  rw [h.input] at hperm
  have hin := eq_singleton_iff_of_perm hperm
  have hlast : lastMode .word (dccStripLocalArgs newargv) = (Walk.after {} newargv).server := by
    rw [dccStripLocalArgs_eq_stripFrom]
    exact lastMode_stripFrom {} newargv
  have hstay : .stay ∉ marks .word (dccStripLocalArgs newargv) ↔ .stay ∉ gained {} newargv := by
    -- the client reads no such mark, so none is lost either
    have hclient : (marks .word newargv).count .stay = 0 := count_eq_zero.mpr h.leaves
    have hlost : (lost {} newargv).count .stay = 0 :=
      count_eq_zero.mpr fun hmem => h.leaves (lost_subset {} newargv hmem)
    rw [mem_marks_strip_iff, Survives, count_append, hclient, hlost, Nat.zero_add,
      count_pos_iff]
  constructor
  · rintro ⟨-, h2, h3, h4, h5, h6⟩
    rw [mem_marks_strip_iff, mem_marks_strip_iff] at h5
    exact ⟨hlast ▸ h2, hin.mp h3, h4, h5, hstay.mp h6⟩
  · rintro ⟨h2, h3, h4, h5, h6⟩
    rw [← mem_marks_strip_iff, ← mem_marks_strip_iff] at h5
    exact ⟨head?_strip h.compiler ▸ h.compiler, hlast.trans h2, hin.mpr h3, h4, h5, hstay.mpr h6⟩

/-- **Stripping and scanning.** The server accepts what is left of a vector the
client accepted, with the same input and the same output, exactly when the two
sides agree. -/
theorem dccStripLocalArgs_rescans_iff {argv : List CString}
    (h : dccScanArgs argv = .ok ⟨i, o, newargv⟩) :
    (∃ a, dccScanArgs (dccStripLocalArgs newargv) = .ok ⟨i, o, a⟩) ↔ Agrees newargv i o := by
  have hr := reads_newargv h
  obtain ⟨hi, ho, -⟩ := dccScanArgs_eq_ok_iff.mp h
  have hperm := outputs_strip_perm newargv
  rw [hr.output] at hperm
  have hnamed := eq_singleton_iff_of_perm hperm
  have himplied := eq_nil_iff_of_perm hperm
  have hext : impliedOutput (dccStripLocalArgs newargv) i =
      dccOutputFromSource i (if Survives newargv .optS then lit ".s" else lit ".o") := by
    simp only [impliedOutput, mem_marks_strip_iff]
  simp only [dccScanArgs_eq_ok_iff, reads_strip_iff hr, hext]
  constructor
  · rintro ⟨a, -, -, ⟨⟨h1, h2, h3, h4, h5⟩, -⟩ | ⟨⟨h1, h2, h3, h4, h5⟩, hname, -⟩⟩
    · exact ⟨h1, h2, .inl (hnamed.mp h3), h4, h5⟩
    · exact ⟨h1, h2, .inr ⟨himplied.mp h3, hname⟩, h4, h5⟩
  · rintro ⟨h1, h2, h3 | ⟨h3, hname⟩, h4, h5⟩
    · exact ⟨_, hi, ho, .inl ⟨⟨h1, h2, hnamed.mpr h3, h4, h5⟩, rfl⟩⟩
    · exact ⟨_, hi, ho, .inr ⟨⟨h1, h2, himplied.mpr h3, h4, h5⟩, hname, rfl⟩⟩

end Agreement

/-- `gcc -DNDEBUG -c hello.c`: the two sides agree, for the word that is dropped
says nothing to either. -/
theorem dccStripLocalArgs_rescans_hello :
    ∃ a, dccScanArgs (dccStripLocalArgs
        (["gcc", "-DNDEBUG", "-c", "hello.c", "-o", "hello.o"].map lit)) =
      .ok ⟨lit "hello.c", lit "hello.o", a⟩ := by
  have hscan : dccScanArgs (["gcc", "-DNDEBUG", "-c", "hello.c"].map lit) =
      .ok ⟨lit "hello.c", lit "hello.o",
        ["gcc", "-DNDEBUG", "-c", "hello.c", "-o", "hello.o"].map lit⟩ := by
    decide
  exact (dccStripLocalArgs_rescans_iff hscan).mpr
    ⟨by decide, by decide, .inl (by decide), by decide, by decide⟩

/-- `gcc -c -include foo.c`: the scanner takes the operand of `-include` for the
input, and the client does not send it. -/
theorem dccStripLocalArgs_drops_input :
    dccScanArgs (["gcc", "-c", "-include", "foo.c"].map lit) =
        .ok ⟨lit "foo.c", lit "foo.o", ["gcc", "-c", "-include", "foo.c", "-o", "foo.o"].map lit⟩ ∧
      ¬∃ a, dccScanArgs (dccStripLocalArgs
          (["gcc", "-c", "-include", "foo.c", "-o", "foo.o"].map lit)) =
        .ok ⟨lit "foo.c", lit "foo.o", a⟩ := by
  refine ⟨by decide, ?_⟩
  rintro ⟨a, ha⟩
  -- "no visible input file"
  have hnone : dccScanArgs (dccStripLocalArgs
      (["gcc", "-c", "-include", "foo.c", "-o", "foo.o"].map lit)) = .error .distccFailed := by
    decide
  rw [hnone] at ha
  cases ha

end Distcc
