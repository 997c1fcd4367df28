import Distcc.Base.Buffer
import Distcc.Request.Client

/-!
# The dependencies of a file, as the client is to see them

Model of `dcc_cleanup_dotd` in `src/dotd.c`. The compiler on the server writes the files it
has read, which are below a temporary directory, and the name of its output, which is a
temporary name as well. The lines are read one by one into a buffer and changed there: the
first occurrence of the server's name is replaced by the client's, and the temporary
directory is deleted wherever it occurs.

`fgets` reads a long line in pieces, and the pieces would be changed as if they were lines.
So the function gives up if there is no newline in what was read and the file did not come
to an end. It also gives up if a line would not fit the buffer after the replacement. In all
other cases, the file is what it should be (`Dotd.dccCleanupDotd_cleans`).

For the answer of the server (`Serve.Job`) it only matters that a file is written. Here
it is how.
-/

namespace Distcc.Dotd

open CString List Prog

/-! ### The functions -/

/-- `MAX_DOTD_LINE_LEN` -/
def maxDotdLineLen : ℕ := maxPathLen * 2

/-- `buf` -/
abbrev DotdBuffer := Buffer (2 * maxDotdLineLen)

/-- `dcc_strgraft`, on the string at the beginning of the buffer. -/
def dccStrgraft {size : ℕ} (haySize : ℕ) (needle newNeedle : CString) :
    Prog (Buffer size) Fault ℕ := do
  match ← Buffer.strstr 0 needle with
  | none => pure 0
  | some found =>
    let len ← Buffer.strlen 0
    if len - needle.length + newNeedle.length + 1 > haySize then pure 1
    else do
      let rest ← Buffer.strlen (found + needle.length)
      Buffer.memmove (found + newNeedle.length) (found + needle.length) (rest + 1)
      Buffer.write found newNeedle
      pure 0

/-- A turn of the loop that deletes the directory. -/
def trimTurn {size : ℕ} (rootDir : CString) :
    Option ℕ → Prog (Buffer size) Fault (Option ℕ ⊕ Unit)
  | none => pure (.inr ())
  | some found => do
    let rest ← Buffer.strlen (found + rootDir.length)
    Buffer.memmove found (found + rootDir.length) (rest + 1)
    let found ← Buffer.strstr found rootDir
    pure (.inl found)

/-- The directory is deleted from the string at the beginning of the buffer. -/
def trimRootDir {size : ℕ} (rootDir : CString) : Prog (Buffer size) Fault Unit := do
  let found ← Buffer.strstr 0 rootDir
  Prog.loop (trimTurn rootDir) (size + 1) found

/-- What the input and the output do. -/
structure DotdIo where
  /-- Can `dotd_fname` be opened? -/
  opensDotd : Bool := true
  /-- What `dcc_make_tmpnam` returns. -/
  makeTmpnam : ℕ := 0
  /-- Can the new file be opened? -/
  opensTmp : Bool := true
  /-- Is there an error in this call of `fgets`? -/
  readFails : ℕ → Bool := fun _ => false
  /-- Is there an error in this call of `fprintf`? -/
  printFails : ℕ → Bool := fun _ => false
  /-- `ferror(tmp_dotd)` -/
  errorTmp : Bool := false
  /-- Is there an error in `fclose(tmp_dotd)`? -/
  closeFails : Bool := false

/-- The variables, and the files. -/
structure DotdState where
  buf : DotdBuffer
  /-- What is left of the file that is read. -/
  dotd : CString := []
  /-- `feof(dotd)` -/
  eof : Bool := false
  /-- What was written to the new file. -/
  tmpDotd : CString := []

/-- Something is done in the buffer. -/
def inBuf {α : Type} (x : Prog DotdBuffer Fault α) : Prog DotdState Fault α :=
  x.zoom DotdState.buf fun s buf => { s with buf := buf }

/-- How the loop over the lines ends. -/
inductive DotdEnd
  /-- The function returns. -/
  | returned (ret : ℕ)
  /-- `fgets` returned `NULL`, with `ferror(dotd)`. -/
  | done (error : Bool)
  deriving DecidableEq, Repr

/-- What is done with a line in the buffer. -/
def cleanLine (io : DotdIo) (rootDir clientOutName serverOutName : CString) (n : ℕ) :
    Prog DotdState Fault (ℕ ⊕ DotdEnd) := do
  let ret ← inBuf (dccStrgraft (2 * maxDotdLineLen) serverOutName clientOutName)
  if ret ≠ 0 then pure (.inr (.returned 1))
  else do
    inBuf (trimRootDir rootDir)
    let line ← inBuf (Buffer.stringAt 0)
    if io.printFails n then pure (.inr (.returned 1))
    else do
      Prog.modify fun s => { s with tmpDotd := s.tmpDotd ++ line }
      pure (.inl (n + 1))

/-- The `n`th turn of the loop over the lines. -/
def dotdTurn (io : DotdIo) (rootDir clientOutName serverOutName : CString) (n : ℕ) :
    Prog DotdState Fault (ℕ ⊕ DotdEnd) := do
  let s ← Prog.get
  let r := fgets (maxDotdLineLen - 1) s.dotd
  if io.readFails n then pure (.inr (.done true))
  else if r.1 = [] then pure (.inr (.done false))
  else do
    Prog.modify fun s => { s with dotd := r.2.1, eof := r.2.2 }
    inBuf (Buffer.write 0 (r.1 ++ [0]))
    let line ← inBuf (Buffer.stringAt 0)
    if strchr 10 line = none ∧ ¬ r.2.2 then pure (.inr (.returned 1))
    else cleanLine io rootDir clientOutName serverOutName n

/-- `dcc_cleanup_dotd`. The file that is read has this content. -/
def dccCleanupDotd (io : DotdIo) (content rootDir clientOutName serverOutName : CString) :
    Prog DotdState Fault ℕ := do
  if ¬ io.opensDotd then pure 1
  else if io.makeTmpnam ≠ 0 then pure io.makeTmpnam
  else if ¬ io.opensTmp then pure 1
  else do
    Prog.modify fun s => ⟨s.buf, content, false, []⟩
    match ← Prog.loop (dotdTurn io rootDir clientOutName serverOutName) (content.length + 1) 0 with
    | .returned ret => pure ret
    | .done error =>
      if error ∨ io.errorTmp then pure 1
      else if io.closeFails then pure 1
      else pure 0

/-! ### What is asked for -/

/-- All input and output succeeds. -/
structure DotdIo.Succeeds (io : DotdIo) : Prop where
  opensDotd : io.opensDotd = true
  makeTmpnam : io.makeTmpnam = 0
  opensTmp : io.opensTmp = true
  readFails : ∀ n, io.readFails n = false
  printFails : ∀ n, io.printFails n = false
  errorTmp : io.errorTmp = false
  closeFails : io.closeFails = false

/-- A line that is not too long, neither before nor after the replacement. If there is no
newline at its end it must be shorter by one. -/
def LineFits (clientOutName serverOutName line : CString) : Prop :=
  (if 10 ∈ line then line.length ≤ maxDotdLineLen - 1 else line.length ≤ maxDotdLineLen - 2) ∧
    (replaceFirst serverOutName clientOutName line).length < 2 * maxDotdLineLen
deriving Decidable

/-- The line that is written for a line. -/
def cleanedLine (rootDir clientOutName serverOutName line : CString) : CString :=
  eraseAll rootDir (replaceFirst serverOutName clientOutName line)

/-- All lines are not too long. -/
def DotdFits (content clientOutName serverOutName : CString) : Prop :=
  ∀ line ∈ rawFrom content [], LineFits clientOutName serverOutName line
deriving Decidable

/-- The file that is to be written. -/
def cleanedDotd (content rootDir clientOutName serverOutName : CString) : CString :=
  (rawFrom content []).flatMap (cleanedLine rootDir clientOutName serverOutName)

/-! ### The changes in the buffer -/

section Changes

variable {size : ℕ} {buf : Buffer size} {s needle new rootDir : CString} {pre rest : List UInt8}

/-- **The replacement of the name.** It is done if there is room for it, and otherwise the
buffer is not touched. -/
theorem dccStrgraft_spec (hbytes : buf.bytes = s ++ 0 :: rest) (hs : s.NulFree)
    (hne : needle ≠ []) :
    ((replaceFirst needle new s).length < size → ∃ buf' rest',
      dccStrgraft size needle new buf = some (.ok 0, buf') ∧
        buf'.bytes = replaceFirst needle new s ++ 0 :: rest') ∧
    (size ≤ (replaceFirst needle new s).length →
      dccStrgraft size needle new buf = some (.ok 1, buf)) := by
  have hsize := buf.length_eq
  have hstrstr := @Buffer.strstr_eq _ buf [] _ _ needle hbytes hs
  have hlen : Buffer.strlen 0 buf = some (.ok s.length, buf) :=
    @Buffer.strlen_eq _ buf [] _ _ hbytes hs
  rw [hbytes, length_append, length_cons] at hsize
  obtain ⟨hnone, hreplace, -⟩ | ⟨p, post, rfl, hsome, hreplace, -⟩ := strstr_cases hne s
  · rw [hreplace, dccStrgraft]
    rw [hnone] at hstrstr
    exact ⟨fun _ => ⟨buf, rest, bind_of_ok hstrstr, hbytes⟩, fun hle => absurd hle (by omega)⟩
  · have hreplaced := congrArg List.length (hreplace new)
    simp only [length_append] at hreplaced hsize
    have hrest : post.NulFree := fun b hb => hs b (by simp [hb])
    have hassoc : buf.bytes = p ++ (needle ++ (post ++ 0 :: rest)) := by
      simpa only [append_assoc] using hbytes
    rw [hsome, Option.map_some, length_nil, Nat.zero_add] at hstrstr
    rw [dccStrgraft, bind_of_ok hstrstr]
    dsimp only
    rw [bind_of_ok hlen]
    simp only [length_append]
    constructor
    · intro hlt
      rw [if_neg (by omega)]
      have hpost := @Buffer.strlen_eq _ buf (p ++ needle) _ _
        (hassoc.trans (append_assoc ..).symm) hrest
      rw [length_append] at hpost
      obtain ⟨buf₁, gap, junk, hmove, hbytes1, hgap⟩ :=
        @Buffer.memmove_tail _ _ _ _ _ _ hassoc new.length (by omega)
      obtain ⟨buf₂, hwrite, hbytes2⟩ := Buffer.write_eq hbytes1 hgap
      refine ⟨buf₂, junk, ?_, ?_⟩
      · rw [bind_of_ok hpost, bind_of_ok hmove, bind_of_ok hwrite]
        rfl
      · rw [hbytes2, hreplace, append_assoc, append_assoc]
    · intro hle
      rw [if_pos (by omega)]
      rfl

/-- **The directory is deleted** from the place on where it was found. -/
theorem loop_trimTurn (hne : rootDir ≠ []) {k : ℕ} (hk : s.length < k)
    (hbytes : buf.bytes = pre ++ (s ++ 0 :: rest)) (hs : s.NulFree) :
    ∃ buf' rest', Prog.loop (trimTurn rootDir) k ((CString.strstr rootDir s).map (pre.length + ·))
        buf = some (.ok (), buf') ∧
      buf'.bytes = pre ++ (eraseAll rootDir s ++ 0 :: rest') := by
  induction k generalizing s pre rest buf with
  | zero => exact absurd hk (Nat.not_lt_zero _)
  | succ k ih =>
    obtain ⟨hnone, -, herase⟩ | ⟨p, post, rfl, hsome, -, herase⟩ := strstr_cases hne s
    · rw [hnone, herase]
      exact ⟨buf, rest, loop_done rfl, hbytes⟩
    · have hsize := buf.length_eq
      rw [hbytes] at hsize
      simp only [length_append, length_cons] at hsize hk
      have hpos := length_pos_iff.mpr hne
      have hrest : post.NulFree := fun b hb => hs b (by simp [hb])
      have hassoc : buf.bytes = (pre ++ p) ++ (rootDir ++ (post ++ 0 :: rest)) := by
        simpa only [append_assoc] using hbytes
      have hpost := @Buffer.strlen_eq _ buf (pre ++ p ++ rootDir) _ _
        (hassoc.trans (append_assoc ..).symm) hrest
      rw [length_append, length_append] at hpost
      obtain ⟨buf₁, gap, junk, hmove, hbytes1, hgap⟩ :=
        @Buffer.memmove_tail _ _ _ _ _ _ hassoc 0 (by rw [length_append]; omega)
      obtain rfl := eq_nil_of_length_eq_zero hgap
      rw [nil_append] at hbytes1
      have hfound := @Buffer.strstr_eq _ buf₁ _ _ _ rootDir hbytes1 hrest
      obtain ⟨buf', rest', hloop, hbytes'⟩ := ih (by omega) hbytes1 hrest
      rw [length_append] at hmove hfound hloop
      refine ⟨buf', rest', ?_, ?_⟩
      · rw [hsome, Option.map_some]
        refine (loop_next ?_).trans hloop
        rw [trimTurn, bind_of_ok hpost]
        exact (bind_of_ok hmove).trans (bind_of_ok hfound)
      · rw [hbytes', herase, append_assoc, append_assoc]

theorem trimRootDir_spec (hne : rootDir ≠ []) (hbytes : buf.bytes = s ++ 0 :: rest)
    (hs : s.NulFree) :
    ∃ buf' rest', trimRootDir rootDir buf = some (.ok (), buf') ∧
      buf'.bytes = eraseAll rootDir s ++ 0 :: rest' := by
  have hsize := buf.length_eq
  rw [hbytes, length_append, length_cons] at hsize
  have hfound := @Buffer.strstr_eq _ buf [] _ _ rootDir hbytes hs
  obtain ⟨buf', rest', hloop, hbytes'⟩ :=
    @loop_trimTurn _ buf s rootDir [] rest hne (size + 1) (by omega) hbytes hs
  exact ⟨buf', rest', (bind_of_ok hfound).trans hloop, hbytes'⟩

end Changes

/-! ### One line after the other -/

section Lines

variable {io : DotdIo} {rootDir clientOutName serverOutName line file rest : CString}
  {s : DotdState} {junk : List UInt8} {n : ℕ}

theorem one_lt_maxDotdLineLen : 1 < maxDotdLineLen := by decide

theorem inBuf_eq {α : Type} {x : Prog DotdBuffer Fault α} {r : Except Fault α} {buf : DotdBuffer}
    (h : x s.buf = some (r, buf)) : inBuf x s = some (r, ⟨buf, s.dotd, s.eof, s.tmpDotd⟩) :=
  zoom_eq h

/-- What is done with a line that was read. -/
theorem cleanLine_spec (hio : io.Succeeds) (hroot : rootDir ≠ []) (hclient : clientOutName.NulFree)
    (hserver : serverOutName ≠ []) (hbytes : s.buf.bytes = line ++ 0 :: junk)
    (hline : line.NulFree) :
    ((replaceFirst serverOutName clientOutName line).length < 2 * maxDotdLineLen → ∃ buf,
      cleanLine io rootDir clientOutName serverOutName n s = some (.ok (.inl (n + 1)),
        ⟨buf, s.dotd, s.eof, s.tmpDotd ++ cleanedLine rootDir clientOutName serverOutName line⟩)) ∧
    (¬ (replaceFirst serverOutName clientOutName line).length < 2 * maxDotdLineLen →
      cleanLine io rootDir clientOutName serverOutName n s =
        some (.ok (.inr (.returned 1)), s)) := by
  obtain ⟨hgraft, hfull⟩ := @dccStrgraft_spec _ _ _ _ clientOutName _ hbytes hline hserver
  constructor
  · intro hlt
    have hreplaced := hline.replaceFirst hclient hserver
    obtain ⟨buf₁, junk₁, hrun1, hbytes1⟩ := hgraft hlt
    obtain ⟨buf₂, junk₂, hrun2, hbytes2⟩ := trimRootDir_spec hroot hbytes1 hreplaced
    have hstring := @Buffer.stringAt_eq _ buf₂ [] _ _ hbytes2 fun b hb =>
      hreplaced b ((eraseFrom_sublist 0 _).subset hb)
    refine ⟨buf₂, ?_⟩
    rw [cleanLine, bind_of_ok (inBuf_eq hrun1)]
    refine (bind_of_ok (inBuf_eq hrun2)).trans ?_
    refine (bind_of_ok (inBuf_eq hstring)).trans ?_
    rw [if_neg (by simp [hio.printFails])]
    rfl
  · intro hge
    rw [cleanLine, bind_of_ok (inBuf_eq (hfull (Nat.le_of_not_lt hge)))]
    rfl

/-- Bytes that were read are put into the buffer. -/
theorem exists_write (hlen : line.length ≤ maxDotdLineLen - 1) (buf : DotdBuffer) :
    ∃ buf' junk, Buffer.write 0 (line ++ [0]) buf = some (.ok (), buf') ∧
      buf'.bytes = line ++ 0 :: junk := by
  have hpos := one_lt_maxDotdLineLen
  have hsize := buf.length_eq
  have hold : (buf.bytes.take (line.length + 1)).length = (line ++ [0]).length := by
    rw [length_take, length_append, length_singleton]
    omega
  obtain ⟨buf', hwrite, hbytes⟩ :=
    @Buffer.write_eq _ buf [] _ _ _ (take_append_drop (line.length + 1) buf.bytes).symm hold
  exact ⟨buf', buf.bytes.drop (line.length + 1), hwrite, by rw [hbytes]; simp⟩

/-- Bytes are read, and it is decided whether to give up. -/
theorem dotdTurn_eq {eof : Bool} (hio : io.Succeeds)
    (hread : fgets (maxDotdLineLen - 1) s.dotd = (line, rest, eof)) (hne : line ≠ [])
    (hline : line.NulFree) (hlen : line.length ≤ maxDotdLineLen - 1) :
    ∃ buf junk, buf.bytes = line ++ 0 :: junk ∧
      dotdTurn io rootDir clientOutName serverOutName n s =
        (if strchr 10 line = none ∧ ¬ eof then pure (.inr (.returned 1))
          else cleanLine io rootDir clientOutName serverOutName n : Prog DotdState Fault _)
          ⟨buf, rest, eof, s.tmpDotd⟩ := by
  obtain ⟨buf, junk, hwrite, hbytes⟩ := exists_write hlen s.buf
  have hstring := @Buffer.stringAt_eq _ buf [] _ _ hbytes hline
  refine ⟨buf, junk, hbytes, ?_⟩
  rw [dotdTurn, get_bind, hread]
  dsimp only
  rw [if_neg (by simp [hio.readFails]), if_neg hne, modify_bind]
  refine (bind_of_ok (@inBuf_eq ⟨s.buf, rest, eof, s.tmpDotd⟩ _ _ _ _ hwrite)).trans ?_
  exact bind_of_ok (@inBuf_eq ⟨buf, rest, eof, s.tmpDotd⟩ _ _ _ _ hstring)

/-- A line that was read as a whole is written, unless it gets too long. -/
theorem dotdTurn_line {eof : Bool} (hio : io.Succeeds) (hroot : rootDir ≠ [])
    (hclient : clientOutName.NulFree) (hserver : serverOutName ≠ [])
    (hread : fgets (maxDotdLineLen - 1) s.dotd = (line, rest, eof)) (hne : line ≠ [])
    (hline : line.NulFree) (hlen : line.length ≤ maxDotdLineLen - 1)
    (hwhole : strchr 10 line ≠ none ∨ eof = true) :
    ((replaceFirst serverOutName clientOutName line).length < 2 * maxDotdLineLen → ∃ s',
      dotdTurn io rootDir clientOutName serverOutName n s = some (.ok (.inl (n + 1)), s') ∧
        s'.dotd = rest ∧
        s'.tmpDotd = s.tmpDotd ++ cleanedLine rootDir clientOutName serverOutName line) ∧
    (¬ (replaceFirst serverOutName clientOutName line).length < 2 * maxDotdLineLen → ∃ s',
      dotdTurn io rootDir clientOutName serverOutName n s =
        some (.ok (.inr (.returned 1)), s')) := by
  obtain ⟨buf, junk, hbytes, heq⟩ := @dotdTurn_eq _ rootDir clientOutName serverOutName _ _ _ n _
    hio hread hne hline hlen
  obtain ⟨hfits, hlong⟩ := @cleanLine_spec _ _ _ _ _ ⟨buf, rest, eof, s.tmpDotd⟩ _ n hio hroot
    hclient hserver hbytes hline
  have hgoes : ¬ (strchr 10 line = none ∧ ¬ eof = true) := fun h => hwhole.elim (· h.1) h.2
  rw [heq, if_neg hgoes]
  constructor
  · intro hlt
    obtain ⟨buf', hrun⟩ := hfits hlt
    exact ⟨_, hrun, rfl, rfl⟩
  · intro hge
    exact ⟨_, hlong hge⟩

/-- There are too many bytes up to the next newline or the end of the file. -/
theorem dotdTurn_long {t u : CString} (hio : io.Succeeds) (hfile : s.dotd = t ++ u) (ht : 10 ∉ t)
    (hnul : t.NulFree) (hlong : maxDotdLineLen - 1 ≤ t.length) :
    ∃ s', dotdTurn io rootDir clientOutName serverOutName n s =
      some (.ok (.inr (.returned 1)), s') := by
  have hread := fgets_full ht hlong u
  rw [← hfile] at hread
  have hlen : (t.take (maxDotdLineLen - 1)).length = maxDotdLineLen - 1 :=
    length_take_of_le hlong
  have hne : t.take (maxDotdLineLen - 1) ≠ [] := by
    refine ne_nil_of_length_pos ?_
    rw [hlen]
    decide
  obtain ⟨buf, junk, hbytes, heq⟩ := @dotdTurn_eq _ rootDir clientOutName serverOutName _ _ _ n _
    hio hread hne (fun b hb => hnul b (mem_of_mem_take hb)) hlen.le
  have hnone : strchr 10 (t.take (maxDotdLineLen - 1)) = none :=
    strchr_eq_none fun h => ht (mem_of_mem_take h)
  rw [heq, if_pos ⟨hnone, Bool.false_ne_true⟩]
  exact ⟨_, rfl⟩

/-- **The first line of a file** is written if it fits, and otherwise the function gives up. -/
theorem dotdTurn_first (hio : io.Succeeds) (hroot : rootDir ≠ [])
    (hclient : clientOutName.NulFree) (hserver : serverOutName ≠ []) (hne : s.dotd ≠ [])
    (hfile : s.dotd.NulFree) :
    ∃ line rest, rawFrom s.dotd [] = line :: rawFrom rest [] ∧ s.dotd = line ++ rest ∧
      line ≠ [] ∧
      (LineFits clientOutName serverOutName line → ∃ s',
        dotdTurn io rootDir clientOutName serverOutName n s = some (.ok (.inl (n + 1)), s') ∧
          s'.dotd = rest ∧
          s'.tmpDotd = s.tmpDotd ++ cleanedLine rootDir clientOutName serverOutName line) ∧
      (¬ LineFits clientOutName serverOutName line → ∃ s',
        dotdTurn io rootDir clientOutName serverOutName n s =
          some (.ok (.inr (.returned 1)), s')) := by
  have hpos := one_lt_maxDotdLineLen
  obtain hlast | ⟨t, rest, hsplit, ht⟩ := first_cases 10 s.dotd
  · -- the last line, without a newline: there must be room for a byte that is not there
    refine ⟨s.dotd, [], rawFrom_end hlast hne, (append_nil _).symm, hne, ?_⟩
    rw [LineFits, if_neg hlast]
    by_cases hlen : s.dotd.length ≤ maxDotdLineLen - 2
    · have hlt : s.dotd.length < maxDotdLineLen - 1 := by omega
      obtain ⟨hfits, hlong⟩ := @dotdTurn_line _ rootDir _ _ _ _ _ n _ hio hroot hclient hserver
        (fgets_end hlast hlt) hne hfile hlt.le (.inr rfl)
      exact ⟨fun h => hfits h.2, fun h => hlong fun hlt => h ⟨hlen, hlt⟩⟩
    · refine ⟨fun h => absurd h.1 hlen, fun _ => ?_⟩
      exact dotdTurn_long hio (append_nil _).symm hlast hfile (by omega)
  · have hnul : t.NulFree := fun b hb => hfile b (by simp [hsplit, hb])
    have hmem : (10 : UInt8) ∈ t ++ [10] := mem_concat_self
    have hnul' : NulFree (t ++ [10]) := by
      rw [NulFree, forall_mem_append]
      exact ⟨hnul, by decide⟩
    refine ⟨t ++ [10], rest, ?_, ?_, by simp, ?_⟩
    · rw [hsplit, rawFrom_newline ht, nil_append]
    · rw [hsplit, append_assoc, singleton_append]
    · rw [LineFits, if_pos hmem]
      by_cases hlen : (t ++ [10]).length ≤ maxDotdLineLen - 1
      · have hread := @fgets_newline (maxDotdLineLen - 1) _ ht (by simpa using hlen) rest
        rw [← hsplit] at hread
        have hwhole : strchr 10 (t ++ [10]) ≠ none := by
          rw [strchr_append_cons ht]
          exact Option.some_ne_none _
        obtain ⟨hfits, hlong⟩ := @dotdTurn_line _ rootDir _ _ _ _ _ n _ hio hroot hclient hserver
          hread (by simp) hnul' hlen (.inl hwhole)
        exact ⟨fun h => hfits h.2, fun h => hlong fun hlt => h ⟨hlen, hlt⟩⟩
      · refine ⟨fun h => absurd h.1 hlen, fun _ => ?_⟩
        rw [length_append, length_singleton] at hlen
        exact dotdTurn_long hio hsplit ht hnul (by omega)

/-- **All lines of a file** are written if they fit, and otherwise the function gives up. -/
theorem loop_dotdTurn (hio : io.Succeeds) (hroot : rootDir ≠ [])
    (hclient : clientOutName.NulFree) (hserver : serverOutName ≠ []) {k : ℕ}
    (hk : s.dotd.length < k) (hfile : s.dotd.NulFree) :
    (DotdFits s.dotd clientOutName serverOutName → ∃ s',
      Prog.loop (dotdTurn io rootDir clientOutName serverOutName) k n s =
          some (.ok (.done false), s') ∧
        s'.tmpDotd = s.tmpDotd ++ cleanedDotd s.dotd rootDir clientOutName serverOutName) ∧
    (¬ DotdFits s.dotd clientOutName serverOutName → ∃ s',
      Prog.loop (dotdTurn io rootDir clientOutName serverOutName) k n s =
        some (.ok (.returned 1), s')) := by
  induction k generalizing s n with
  | zero => exact absurd hk (Nat.not_lt_zero _)
  | succ k ih =>
    by_cases hnil : s.dotd = []
    · have hread : fgets (maxDotdLineLen - 1) s.dotd = ([], [], true) := by
        rw [hnil]
        exact fgets_end not_mem_nil (Nat.sub_pos_of_lt one_lt_maxDotdLineLen)
      have hturn : dotdTurn io rootDir clientOutName serverOutName n s =
          some (.ok (.inr (.done false)), s) := by
        rw [dotdTurn, get_bind, hread]
        dsimp only
        rw [if_neg (by simp [hio.readFails]), if_pos rfl]
        rfl
      rw [hnil]
      refine ⟨fun _ => ⟨s, loop_done hturn, (append_nil _).symm⟩, fun h => ?_⟩
      exact absurd (forall_mem_nil _) h
    · obtain ⟨line, rest, hraw, hsplit, hne, hfits, hgives⟩ :=
        @dotdTurn_first io rootDir _ _ s n hio hroot hclient hserver hnil hfile
      have hlen := length_pos_iff.mpr hne
      rw [DotdFits, cleanedDotd, hraw, forall_mem_cons, flatMap_cons]
      by_cases hline : LineFits clientOutName serverOutName line
      · obtain ⟨s₁, hturn, hrest, hwritten⟩ := hfits hline
        obtain ⟨hdone, hgives'⟩ := @ih s₁ (n + 1)
          (by rw [hsplit, length_append] at hk; rw [hrest]; omega)
          (by rw [hrest]; exact fun b hb => hfile b (by simp [hsplit, hb]))
        rw [hrest] at hdone hgives'
        rw [loop_next hturn]
        constructor
        · intro h
          obtain ⟨s', hloop, hwritten'⟩ := hdone h.2
          exact ⟨s', hloop, by rw [hwritten', hwritten, append_assoc]; rfl⟩
        · exact fun h => hgives' fun hfit => h ⟨hline, hfit⟩
      · obtain ⟨s', hturn⟩ := hgives hline
        exact ⟨fun h => absurd h.1 hline, fun _ => ⟨s', loop_done hturn⟩⟩

/-- **The file that is written.** If all input and output succeeds and the lines are not too
long, the function returns 0, and in each line the first occurrence of the server's name is
replaced and the directory is deleted. If a line is too long, it returns something else. What
is in the buffer at the beginning does not matter. -/
theorem dccCleanupDotd_cleans {content : CString} (hio : io.Succeeds) (hcontent : content.NulFree)
    (hroot : rootDir ≠ []) (hclient : clientOutName.NulFree) (hserver : serverOutName ≠ [])
    (s : DotdState) :
    (DotdFits content clientOutName serverOutName → ∃ s',
      dccCleanupDotd io content rootDir clientOutName serverOutName s = some (.ok 0, s') ∧
        s'.tmpDotd = cleanedDotd content rootDir clientOutName serverOutName) ∧
    (¬ DotdFits content clientOutName serverOutName → ∃ ret s',
      dccCleanupDotd io content rootDir clientOutName serverOutName s = some (.ok ret, s') ∧
        ret ≠ 0) := by
  obtain ⟨hdone, hgives⟩ := @loop_dotdTurn io rootDir _ _ ⟨s.buf, content, false, []⟩ 0 hio hroot
    hclient hserver (content.length + 1) (Nat.lt_succ_self _) hcontent
  rw [dccCleanupDotd, if_neg (by simp [hio.opensDotd]), if_neg (by simp [hio.makeTmpnam]),
    if_neg (by simp [hio.opensTmp]), modify_bind]
  constructor
  · intro hfits
    obtain ⟨s', hloop, hwritten⟩ := hdone hfits
    refine ⟨s', (bind_of_ok hloop).trans ?_, hwritten⟩
    dsimp only
    rw [if_neg (by simp [hio.errorTmp]), if_neg (by simp [hio.closeFails])]
    rfl
  · intro hlong
    obtain ⟨s', hloop⟩ := hgives hlong
    exact ⟨1, s', bind_of_ok hloop, one_ne_zero⟩

/-- A rule with a file below the directory, and one that is found twice. -/
theorem dccCleanupDotd_cleans_rule : ∃ s',
    dccCleanupDotd {} (lit "tmp.o: /r/a.c \\\n /r/r/b.h\n") (lit "/r") (lit "a.o") (lit "tmp.o")
        ⟨⟨.replicate _ 0, length_replicate⟩, [], false, []⟩ = some (.ok 0, s') ∧
      s'.tmpDotd = lit "a.o: /a.c \\\n /b.h\n" := by
  obtain ⟨s', hrun, hwritten⟩ := (@dccCleanupDotd_cleans {} (lit "/r") (lit "a.o") (lit "tmp.o")
    (lit "tmp.o: /r/a.c \\\n /r/r/b.h\n")
    ⟨rfl, rfl, rfl, fun _ => rfl, fun _ => rfl, rfl, rfl⟩ (by decide) (by decide) (by decide)
    (by decide) ⟨⟨.replicate _ 0, length_replicate⟩, [], false, []⟩).1 (by decide +kernel)
  exact ⟨s', hrun, hwritten.trans (by decide +kernel)⟩

end Lines

end Distcc.Dotd
