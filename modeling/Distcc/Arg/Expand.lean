import Distcc.Base.Lines
import Distcc.Base.Prog

/-!
# Options for the preprocessor

Model of `dcc_expand_preprocessor_options` in `src/arg.c`. A word `-Wp,x,y` hands `x` and
`y` to the preprocessor. It is replaced by its pieces, and as the preprocessor takes the
name of a file after `-MD` and `-MMD`, which the compiler only takes after `-MF`, a piece
that follows one of the two gets an `-MF` in front of it.

There are two walks along the commas of the word. `countExtraArgs` says how many
slots are needed, and looks at the word as it is. `copyExtraArgs` fills them, and
cuts the word to pieces on its way. A vector of arguments is a list of slots, the last of
which holds `NULL`. Every access is checked, and so is the assertion at the end of the
second walk: an access outside of a vector, or a failed assertion, is a `Fault`.

What the function is for is `expandWords`, in terms of the pieces between the
commas. The function gives exactly this (`dccExpandPreprocessorOptions_eq`): both
walks go through the pieces in the same way (`countLoop_eq`,
`copyLoop_eq`). Memory suffices, and the counters are natural numbers.
-/

namespace Distcc

open CString List Prog

/-! ### The functions -/

/-- A vector of arguments: its slots hold strings or `NULL`. -/
abbrev Argv := List (Option CString)

/-- What a turn of `count_extra_args` does, `comma` being the rest of the word from a comma
on. -/
def countTurn (st : Option CString × ℕ) : Prog Argv Fault (Option CString × ℕ ⊕ ℕ) :=
  match st with
  | (none, extraArgs) => pure (.inr extraArgs)
  | (some comma, extraArgs) =>
    let opt := comma.tail
    if startsWith (lit "-MD,") opt || startsWith (lit "-MMD,") opt then
      match strchr 44 opt with
      | none => Prog.fail .null
      | some comma =>
        let filename := comma.tail
        pure (.inl (strchr 44 filename, extraArgs + 3))
    else pure (.inl (strchr 44 opt, extraArgs + 1))

/-- `count_extra_args` -/
def countExtraArgs (dashWpOption : CString) : Prog Argv Fault ℕ :=
  Prog.loop countTurn dashWpOption.length (some (dashWpOption.drop 3), 0)

/-- `new_argv[k] = slot` -/
def storeSlot (k : ℕ) (slot : Option CString) : Prog Argv Fault Unit := do
  let newArgv ← Prog.get
  if k < newArgv.length then Prog.modify (·.set k slot) else Prog.fail .bounds

/-- What a turn of `copy_extra_args` does. `dest_argv` is the vector from the slot `dest`
on. The loop gives the number of slots that were filled. -/
def copyTurn (dest : ℕ) (st : Option CString × ℕ) :
    Prog Argv Fault (Option CString × ℕ ⊕ ℕ) :=
  match st with
  | (none, i) => pure (.inr i)
  | (some comma, i) => do
    -- the word is cut at the next comma, so that `opt` ends there
    let comma' := strchr 44 comma.tail
    let opt := comma.tail.takeWhile (· ≠ 44)
    storeSlot (dest + i) (some opt)
    if opt = lit "-MD" ∨ opt = lit "-MMD" then
      match comma' with
      | none => pure (.inr (i + 1))
      | some comma => do
        let filename := comma.tail.takeWhile (· ≠ 44)
        storeSlot (dest + (i + 1)) (some (lit "-MF"))
        storeSlot (dest + (i + 2)) (some filename)
        pure (.inl (strchr 44 comma.tail, i + 3))
    else pure (.inl (comma', i + 1))

/-- `copy_extra_args` -/
def copyExtraArgs (dest : ℕ) (dashWpOption : CString) (extraArgs : ℕ) :
    Prog Argv Fault Unit := do
  let i ← Prog.loop (copyTurn dest) dashWpOption.length (some (dashWpOption.drop 3), 0)
  if i = extraArgs then pure () else Prog.fail .assertion

/-- `new_argv[k] = argv[j]` -/
def moveSlot (argv : Argv) (k j : ℕ) : Prog Argv Fault Unit :=
  match argv[j]? with
  | some slot => storeSlot k slot
  | none => Prog.fail .bounds

/-- The body of the loop in `dcc_expand_preprocessor_options`, for an option `word` in slot
`i`. The state is the vector `new_argv`. -/
def replaceOption (argv : Argv) (i argc : ℕ) (word : CString) :
    Prog Argv Fault (Argv × ℕ × ℕ) := do
  let extraArgs ← countExtraArgs word
  if extraArgs ≥ 1 then
    Prog.modify fun _ => List.replicate (argc + extraArgs) none
    Prog.forEach (fun j => moveSlot argv j j) (List.range i)
    copyExtraArgs i word extraArgs
    Prog.forEach (fun j => moveSlot argv (j + extraArgs - 1) j) (List.range' (i + 1) (argc - i))
    let newArgv ← Prog.get
    pure (newArgv, i + (extraArgs - 1), argc + (extraArgs - 1))
  else Prog.fail .assertion

/-- What a turn of `dcc_expand_preprocessor_options` does. -/
def expandTurn (st : Argv × ℕ × ℕ) : Prog Argv Fault (Argv × ℕ × ℕ ⊕ Argv) :=
  let (argv, i, argc) := st
  match argv[i]? with
  | none => Prog.fail .bounds
  | some none => pure (.inr argv)
  | some (some word) =>
    if startsWith (lit "-Wp,") word then do
      let (argv, i, argc) ← replaceOption argv i argc word
      pure (.inl (argv, i + 1, argc))
    else pure (.inl (argv, i + 1, argc))

/-- `dcc_argv_len`, of a vector that ends with `NULL`. -/
def argvLen : Argv → ℕ
  | some _ :: argv => argvLen argv + 1
  | _ => 0

/-- `dcc_expand_preprocessor_options` gives the vector that `argv_ptr` points to in the
end. -/
def dccExpandPreprocessorOptions (argv : Argv) : Prog Argv Fault Argv :=
  Prog.loop expandTurn argv.length (argv, 0, argvLen argv)

/-! ### What the function is for -/

/-- The words that the pieces of an option stand for. -/
def expandPieces : List CString → List CString
  | [] => []
  | [p] => [p]
  | p :: f :: pieces =>
    if p = lit "-MD" ∨ p = lit "-MMD" then p :: lit "-MF" :: f :: expandPieces pieces
    else p :: expandPieces (f :: pieces)

/-- The words that a word stands for: the pieces between its commas, if it is `-Wp,` and
something. -/
def expandWord (word : CString) : List CString :=
  if startsWith (lit "-Wp,") word then expandPieces ((word.drop 4).splitOn 44) else [word]

/-- The words that a command stands for. -/
def expandWords (words : List CString) : List CString := words.flatMap expandWord

/-- The vector of these words. -/
def argvOf (words : List CString) : Argv := words.map some ++ [none]

/-! ### The two walks -/

/-- The pieces of an option, each with a comma in front of it. -/
def chain : List CString → Option CString
  | [] => none
  | p :: pieces => some (44 :: [44].intercalate (p :: pieces))

section Pieces

variable {p q opt : CString} (hp : 44 ∉ p)

include hp

/-- The next comma is that in front of the next piece. -/
theorem strchr_intercalate (pieces : List CString) :
    strchr 44 ([44].intercalate (p :: pieces)) = chain pieces := by
  cases pieces with
  | nil => simp [chain, strchr_eq_none hp]
  | cons q pieces =>
    rw [intercalate_cons_cons, append_assoc]
    exact strchr_append_cons hp _

/-- A word that is cut at the next comma is the piece in front of it. -/
theorem takeWhile_intercalate (pieces : List CString) :
    ([44].intercalate (p :: pieces)).takeWhile (· ≠ 44) = p := by
  have hfree : ∀ b ∈ p, decide (b ≠ 44) = true := fun b hb =>
    decide_eq_true (ne_of_mem_of_not_mem hb hp)
  cases pieces with
  | nil => simpa [takeWhile_eq_self_iff] using hfree
  | cons q pieces =>
    rw [intercalate_cons_cons, append_assoc, takeWhile_append_of_pos hfree]
    simp

/-- Testing an option and its comma on the intact word is comparing the piece. -/
theorem startsWith_comma (hopt : 44 ∉ opt) (u : CString) :
    startsWith (opt ++ [44]) (p ++ 44 :: u) = true ↔ p = opt := by
  rw [startsWith_iff]
  constructor
  · rintro ⟨t, ht⟩
    rw [append_assoc, singleton_append] at ht
    have hrest : strchr 44 (p ++ 44 :: u) = strchr 44 (opt ++ 44 :: t) := congrArg _ ht
    rw [strchr_append_cons hp, strchr_append_cons hopt] at hrest
    rw [List.cons.inj (Option.some.inj hrest) |>.2] at ht
    exact append_cancel_right ht
  · rintro rfl
    exact ⟨u, by rw [append_assoc, singleton_append]⟩

theorem not_startsWith_comma : startsWith (opt ++ [44]) p = false := by
  rw [Bool.eq_false_iff, Ne, startsWith_iff]
  rintro ⟨t, rfl⟩
  simp at hp

theorem startsWith_takesFile (q : CString) (pieces : List CString) :
    (startsWith (lit "-MD,") ([44].intercalate (p :: q :: pieces)) ||
      startsWith (lit "-MMD,") ([44].intercalate (p :: q :: pieces))) = true ↔
      p = lit "-MD" ∨ p = lit "-MMD" := by
  have hmd : (44 : UInt8) ∉ lit "-MD" := by decide
  have hmmd : (44 : UInt8) ∉ lit "-MMD" := by decide
  rw [intercalate_cons_cons, append_assoc, Bool.or_eq_true]
  exact or_congr (startsWith_comma hp hmd _) (startsWith_comma hp hmmd _)

end Pieces

section Turns

variable {p f : CString} {pieces : List CString} {n : ℕ} {v : Argv}

theorem chain_cons (p : CString) (pieces : List CString) :
    chain (p :: pieces) = some (44 :: [44].intercalate (p :: pieces)) := rfl

theorem countTurn_some (opt : CString) (n : ℕ) : countTurn (some (44 :: opt), n) =
    if startsWith (lit "-MD,") opt || startsWith (lit "-MMD,") opt then
      match strchr 44 opt with
      | none => Prog.fail .null
      | some comma => pure (.inl (strchr 44 comma.tail, n + 3))
    else pure (.inl (strchr 44 opt, n + 1)) := rfl

theorem countTurn_last (hp : 44 ∉ p) :
    countTurn (chain [p], n) v = some (.ok (.inl (chain [], n + 1)), v) := by
  have hmd : startsWith (lit "-MD" ++ [44]) p = false := not_startsWith_comma hp
  have hmmd : startsWith (lit "-MMD" ++ [44]) p = false := not_startsWith_comma hp
  have hno : (startsWith (lit "-MD,") p || startsWith (lit "-MMD,") p) = false :=
    Bool.or_eq_false_iff.mpr ⟨hmd, hmmd⟩
  rw [chain_cons, intercalate_singleton, countTurn_some, hno, strchr_eq_none hp]
  rfl

theorem countTurn_file (hp : 44 ∉ p) (hf : 44 ∉ f) (h : p = lit "-MD" ∨ p = lit "-MMD") :
    countTurn (chain (p :: f :: pieces), n) v = some (.ok (.inl (chain pieces, n + 3)), v) := by
  rw [chain_cons, countTurn_some, if_pos ((startsWith_takesFile hp f pieces).mpr h),
    strchr_intercalate hp, chain_cons]
  dsimp only
  rw [tail_cons, strchr_intercalate hf]
  rfl

theorem countTurn_piece (hp : 44 ∉ p) (h : ¬(p = lit "-MD" ∨ p = lit "-MMD")) :
    countTurn (chain (p :: f :: pieces), n) v =
      some (.ok (.inl (chain (f :: pieces), n + 1)), v) := by
  rw [chain_cons, countTurn_some, if_neg fun hs => h ((startsWith_takesFile hp f pieces).mp hs),
    strchr_intercalate hp]
  rfl

end Turns

variable {pieces front rest words : List CString}

/-- **The first walk** counts the words that the pieces stand for. -/
theorem countLoop_eq (hpieces : ∀ p ∈ pieces, 44 ∉ p) (n : ℕ) (v : Argv)
    {k : ℕ} (hk : pieces.length < k) : Prog.loop countTurn k (chain pieces, n) v =
      some (.ok (n + (expandPieces pieces).length), v) := by
  induction pieces using expandPieces.induct generalizing n k with
  | case1 =>
    obtain ⟨k, rfl⟩ := Nat.exists_eq_add_of_lt hk
    exact loop_done rfl
  | case2 p =>
    obtain ⟨k, rfl⟩ := Nat.exists_eq_add_of_le' (show 2 ≤ k from hk)
    rw [loop_next (countTurn_last (hpieces p mem_cons_self))]
    exact loop_done rfl
  | case3 p f pieces h ih =>
    obtain ⟨hp, hf, hrest⟩ : 44 ∉ p ∧ 44 ∉ f ∧ ∀ q ∈ pieces, 44 ∉ q := by simpa using hpieces
    obtain ⟨k, rfl⟩ := Nat.exists_eq_add_of_lt hk
    rw [loop_next (countTurn_file hp hf h), ih hrest (n + 3) (by grind), expandPieces,
      if_pos h]
    simp only [length_cons]
    grind
  | case4 p f pieces h ih =>
    obtain ⟨hp, hrest⟩ := forall_mem_cons.mp hpieces
    obtain ⟨k, rfl⟩ := Nat.exists_eq_add_of_lt hk
    rw [loop_next (countTurn_piece hp h), ih hrest (n + 1) (by grind), expandPieces, if_neg h]
    simp only [length_cons]
    grind

/-- What is written in the middle of a vector. -/
theorem storeSlot_eq {before after : Argv} {slot slot' : Option CString} {k : ℕ}
    (hk : k = before.length) :
    storeSlot k slot' (before ++ slot :: after) = some (.ok (), before ++ slot' :: after) := by
  subst hk
  simp [storeSlot, get_bind, Prog.modify]

section Turns

variable {p f : CString} {pieces : List CString} {dest i : ℕ} {before after : Argv}

theorem copyTurn_some (opt : CString) (dest i : ℕ) : copyTurn dest (some (44 :: opt), i) = (do
    storeSlot (dest + i) (some (opt.takeWhile (· ≠ 44)))
    if opt.takeWhile (· ≠ 44) = lit "-MD" ∨ opt.takeWhile (· ≠ 44) = lit "-MMD" then
      match strchr 44 opt with
      | none => pure (.inr (i + 1))
      | some comma => do
        storeSlot (dest + (i + 1)) (some (lit "-MF"))
        storeSlot (dest + (i + 2)) (some (comma.tail.takeWhile (· ≠ 44)))
        pure (.inl (strchr 44 comma.tail, i + 3))
    else pure (.inl (strchr 44 opt, i + 1))) := rfl

variable (hbefore : dest + i = before.length) {slot : Option CString}

include hbefore

theorem copyTurn_piece (hp : 44 ∉ p) (h : ¬(p = lit "-MD" ∨ p = lit "-MMD")) :
    copyTurn dest (chain (p :: pieces), i) (before ++ slot :: after) =
      some (.ok (.inl (chain pieces, i + 1)), before ++ some p :: after) := by
  rw [chain_cons, copyTurn_some, takeWhile_intercalate hp, strchr_intercalate hp,
    bind_of_ok (storeSlot_eq hbefore), if_neg h]
  rfl

theorem copyTurn_last (hp : 44 ∉ p) (h : p = lit "-MD" ∨ p = lit "-MMD") :
    copyTurn dest (chain [p], i) (before ++ slot :: after) =
      some (.ok (.inr (i + 1)), before ++ some p :: after) := by
  rw [chain_cons, copyTurn_some, takeWhile_intercalate hp, strchr_intercalate hp,
    bind_of_ok (storeSlot_eq hbefore), if_pos h]
  rfl

theorem copyTurn_file {slot slot₁ slot₂ : Option CString} (hp : 44 ∉ p) (hf : 44 ∉ f)
    (h : p = lit "-MD" ∨ p = lit "-MMD") :
    copyTurn dest (chain (p :: f :: pieces), i) (before ++ slot :: slot₁ :: slot₂ :: after) =
      some (.ok (.inl (chain pieces, i + 3)),
        before ++ some p :: some (lit "-MF") :: some f :: after) := by
  have hmf : storeSlot (dest + (i + 1)) (some (lit "-MF"))
      (before ++ some p :: slot₁ :: slot₂ :: after) =
        some (.ok (), before ++ some p :: some (lit "-MF") :: slot₂ :: after) := by
    have := @storeSlot_eq (before ++ [some p]) (slot₂ :: after) slot₁ (some (lit "-MF"))
      (dest + (i + 1)) (by simp; omega)
    simpa using this
  have hname : storeSlot (dest + (i + 2)) (some f)
      (before ++ some p :: some (lit "-MF") :: slot₂ :: after) =
        some (.ok (), before ++ some p :: some (lit "-MF") :: some f :: after) := by
    have := @storeSlot_eq (before ++ [some p, some (lit "-MF")]) after slot₂ (some f)
      (dest + (i + 2)) (by simp; omega)
    simpa using this
  rw [chain_cons, copyTurn_some, takeWhile_intercalate hp, strchr_intercalate hp,
    bind_of_ok (storeSlot_eq hbefore), if_pos h, chain_cons]
  dsimp only
  rw [tail_cons, takeWhile_intercalate hf, strchr_intercalate hf, bind_of_ok hmf,
    bind_of_ok hname]
  rfl

end Turns

/-- **The second walk** writes the words that the pieces stand for, and counts them. -/
theorem copyLoop_eq (hpieces : ∀ p ∈ pieces, 44 ∉ p) {dest i : ℕ}
    {before hole after : Argv} (hbefore : dest + i = before.length)
    (hhole : hole.length = (expandPieces pieces).length) {k : ℕ} (hk : pieces.length < k) :
    Prog.loop (copyTurn dest) k (chain pieces, i) (before ++ hole ++ after) =
      some (.ok (i + (expandPieces pieces).length),
        before ++ (expandPieces pieces).map some ++ after) := by
  induction pieces using expandPieces.induct generalizing i k before hole with
  | case1 =>
    obtain rfl : hole = [] := length_eq_zero_iff.mp hhole
    obtain ⟨k, rfl⟩ := Nat.exists_eq_add_of_lt hk
    exact loop_done rfl
  | case2 p =>
    obtain ⟨slot, rfl⟩ := length_eq_one_iff.mp hhole
    obtain ⟨k, rfl⟩ := Nat.exists_eq_add_of_le' (show 2 ≤ k from hk)
    have hp := hpieces p mem_cons_self
    rw [append_assoc, singleton_append]
    by_cases h : p = lit "-MD" ∨ p = lit "-MMD"
    · rw [loop_done (copyTurn_last hbefore hp h)]
      simp [expandPieces]
    · rw [loop_next (copyTurn_piece hbefore hp h)]
      exact loop_done (by simp [expandPieces, copyTurn, chain])
  | case3 p f pieces h ih =>
    obtain ⟨hp, hf, hrest⟩ : 44 ∉ p ∧ 44 ∉ f ∧ ∀ q ∈ pieces, 44 ∉ q := by simpa using hpieces
    rw [expandPieces, if_pos h] at hhole ⊢
    obtain ⟨slot, hole, rfl⟩ := exists_cons_of_length_eq_add_one hhole
    obtain ⟨slot₁, hole, rfl⟩ := exists_cons_of_length_eq_add_one (Nat.succ.inj hhole)
    obtain ⟨slot₂, hole, rfl⟩ :=
      exists_cons_of_length_eq_add_one (Nat.succ.inj (Nat.succ.inj hhole))
    obtain ⟨k, rfl⟩ := Nat.exists_eq_add_of_lt hk
    have hlen : dest + (i + 3) = (before ++ [some p, some (lit "-MF"), some f]).length := by
      simp
      omega
    have hmore : pieces.length < (p :: f :: pieces).length + k := by
      simp
      omega
    have hloop := ih hrest hlen (by simpa using hhole) hmore
    rw [append_assoc]
    refine (loop_next (copyTurn_file hbefore hp hf h)).trans ?_
    rw [show i + (p :: lit "-MF" :: f :: expandPieces pieces).length =
      i + 3 + (expandPieces pieces).length by simp only [length_cons]; omega]
    simpa using hloop
  | case4 p f pieces h ih =>
    obtain ⟨hp, hrest⟩ := forall_mem_cons.mp hpieces
    rw [expandPieces, if_neg h] at hhole ⊢
    obtain ⟨slot, hole, rfl⟩ := exists_cons_of_length_eq_add_one hhole
    obtain ⟨k, rfl⟩ := Nat.exists_eq_add_of_lt hk
    have hlen : dest + (i + 1) = (before ++ [some p]).length := by
      simp
      omega
    have hmore : (f :: pieces).length < (p :: f :: pieces).length + k := by
      simp
      omega
    have hloop := ih hrest hlen (by simpa using hhole) hmore
    rw [append_assoc]
    refine (loop_next (copyTurn_piece hbefore hp h)).trans ?_
    rw [show i + (p :: expandPieces (f :: pieces)).length =
      i + 1 + (expandPieces (f :: pieces)).length by simp only [length_cons]; omega]
    simpa using hloop

/-! ### The functions on a word -/

section Word

variable {word : CString} (hword : startsWith (lit "-Wp,") word = true)

include hword

theorem expandWord_of_startsWith : expandWord word = expandPieces ((word.drop 4).splitOn 44) :=
  if_pos hword

/-- The walks begin at the comma of `-Wp,`, and have turns for all pieces. -/
theorem chain_splitOn : some (word.drop 3) = chain ((word.drop 4).splitOn 44) ∧
    ((word.drop 4).splitOn 44).length < word.length := by
  obtain ⟨t, rfl⟩ := startsWith_iff.mp hword
  constructor
  · obtain ⟨p, pieces, hp⟩ := exists_cons_of_ne_nil (splitOn_ne_nil 44 t)
    have hjoin : [44].intercalate (p :: pieces) = t := by rw [← hp, intercalate_splitOn]
    show some (44 :: t) = chain (t.splitOn 44)
    rw [hp, chain_cons, hjoin]
  · have hlen := (splitOn_pieces 44 t).2
    show (t.splitOn 44).length < t.length + 4
    omega

theorem countExtraArgs_eq (v : Argv) :
    countExtraArgs word v = some (.ok (expandWord word).length, v) := by
  obtain ⟨hchain, hlen⟩ := chain_splitOn hword
  rw [countExtraArgs, hchain, countLoop_eq (splitOn_pieces _ _).1 0 v hlen, Nat.zero_add,
    expandWord_of_startsWith hword]

/-- **The slots are exactly filled**, with the words that the option stands for. -/
theorem copyExtraArgs_eq {dest : ℕ} {before hole after : Argv} (hbefore : dest = before.length)
    (hhole : hole.length = (expandWord word).length) :
    copyExtraArgs dest word (expandWord word).length (before ++ hole ++ after) =
      some (.ok (), before ++ (expandWord word).map some ++ after) := by
  obtain ⟨hchain, hlen⟩ := chain_splitOn hword
  rw [expandWord_of_startsWith hword] at hhole ⊢
  rw [copyExtraArgs, hchain,
    bind_of_ok (copyLoop_eq (splitOn_pieces _ _).1 (i := 0) hbefore hhole hlen), Nat.zero_add,
    if_pos rfl]
  rfl

end Word

/-! ### The whole vector -/

theorem moveSlot_eq {front back before after : Argv} {slot hole : Option CString} {k j : ℕ}
    (hj : j = front.length) (hk : k = before.length) :
    moveSlot (front ++ slot :: back) k j (before ++ hole :: after) =
      some (.ok (), before ++ slot :: after) := by
  have hslot : (front ++ slot :: back)[j]? = some slot := by simp [hj]
  rw [moveSlot, hslot]
  exact storeSlot_eq hk

/-- Slots that are moved from one vector to another. -/
theorem forEach_moveSlot {argv slots before hole after front back : Argv} {place : ℕ → ℕ}
    (hargv : argv = front ++ slots ++ back)
    (hplace : ∀ t < slots.length, place (front.length + t) = before.length + t)
    (hhole : hole.length = slots.length) :
    Prog.forEach (fun j => moveSlot argv (place j) j) (List.range' front.length slots.length)
      (before ++ hole ++ after) = some (.ok (), before ++ slots ++ after) := by
  induction slots generalizing before hole front with
  | nil =>
    obtain rfl := length_eq_zero_iff.mp hhole
    rfl
  | cons slot slots ih =>
    obtain ⟨slot', hole, rfl⟩ := exists_cons_of_length_eq_add_one hhole
    have hfirst : moveSlot argv (place front.length) front.length
        (before ++ slot' :: (hole ++ after)) =
          some (.ok (), before ++ slot :: (hole ++ after)) := by
      rw [hargv, append_assoc, cons_append]
      exact moveSlot_eq rfl (hplace 0 (Nat.succ_pos _))
    have hrest := @ih (before ++ [slot]) hole (front ++ [slot]) (by simp [hargv])
      (fun t ht => by
        have := hplace (t + 1) (Nat.succ_lt_succ ht)
        simp only [length_append, length_singleton]
        rw [show front.length + 1 + t = front.length + (t + 1) by omega, this]
        omega) (Nat.succ.inj hhole)
    rw [length_cons, range'_succ, append_assoc]
    refine (bind_of_ok hfirst).trans ?_
    simpa using hrest

theorem expandPieces_ne_nil (h : pieces ≠ []) : expandPieces pieces ≠ [] := by
  cases pieces using expandPieces.induct with
  | case1 => exact absurd rfl h
  | case2 p => exact cons_ne_nil _ _
  | case3 p f pieces hp => simp [expandPieces, if_pos hp]
  | case4 p f pieces hp => simp [expandPieces, if_neg hp]

theorem expandWord_length_pos {word : CString} (hword : startsWith (lit "-Wp,") word = true) :
    1 ≤ (expandWord word).length := by
  rw [expandWord_of_startsWith hword]
  exact length_pos_of_ne_nil (expandPieces_ne_nil (splitOn_ne_nil 44 _))

theorem getElem?_argvOf (front : List CString) (word : CString) (rest : List CString) :
    (argvOf (front ++ word :: rest))[front.length]? = some (some word) := by
  simp [argvOf]

/-- **One option is replaced** by the words that it stands for. -/
theorem replaceOption_eq {word : CString} {v : Argv} (hword : startsWith (lit "-Wp,") word = true) :
    ∃ v', replaceOption (argvOf (front ++ word :: rest)) front.length (front ++ word :: rest).length
        word v =
      some (.ok (argvOf (front ++ expandWord word ++ rest),
        front.length + ((expandWord word).length - 1),
        (front ++ word :: rest).length + ((expandWord word).length - 1)), v') := by
  have hpos := expandWord_length_pos hword
  generalize hargv : argvOf (front ++ word :: rest) = argv
  have hslots : argv = front.map some ++ some word :: (rest.map some ++ [none]) := by
    simp [← hargv, argvOf]
  generalize hnew : expandWord word = new at hpos ⊢
  -- the words in front of the option
  have hfront : Prog.forEach (fun j => moveSlot argv j j) (List.range front.length)
      (List.replicate (front.length + (new.length + (rest.length + 1))) none) =
        some (.ok (), front.map some ++ List.replicate new.length none ++
          List.replicate (rest.length + 1) none) := by
    have hmove := @forEach_moveSlot argv (front.map some) [] (List.replicate front.length none)
      (List.replicate (new.length + (rest.length + 1)) none) [] _ (fun j => j) hslots
      (fun t _ => rfl) (by simp)
    rw [range_eq_range']
    simpa [replicate_append_replicate] using hmove
  -- the words of the option
  have hcopy := @copyExtraArgs_eq word hword front.length (front.map some)
    (List.replicate new.length none) (List.replicate (rest.length + 1) none)
    (by simp) (by simp [hnew])
  rw [hnew] at hcopy
  -- the words behind it, and the end
  have hrest : Prog.forEach (fun j => moveSlot argv (j + new.length - 1) j)
      (List.range' (front.length + 1) (rest.length + 1)) (front.map some ++ new.map some ++
        List.replicate (rest.length + 1) none) = some (.ok (), argvOf (front ++ new ++ rest)) := by
    have hmove := @forEach_moveSlot argv (rest.map some ++ [none])
      (front.map some ++ new.map some) (List.replicate (rest.length + 1) none) []
      (front.map some ++ [some word]) [] (fun j => j + new.length - 1) (by simp [hslots])
      (fun t _ => by simp only [length_append, length_map, length_singleton]; omega)
      (by simp)
    simpa [argvOf] using hmove
  have hargc : (front ++ word :: rest).length = front.length + (rest.length + 1) := by simp
  have hroom : front.length + (rest.length + 1) + new.length =
    front.length + (new.length + (rest.length + 1)) := by omega
  rw [replaceOption, bind_of_ok (countExtraArgs_eq hword v), hnew, if_pos hpos,
    modify_bind, hargc, hroom, bind_of_ok hfront, bind_of_ok hcopy, Nat.add_sub_cancel_left,
    bind_of_ok hrest]
  exact ⟨_, rfl⟩

section Turns

variable {front rest : List CString} {word : CString} {v : Argv} {argc : ℕ}

theorem expandTurn_option (hword : startsWith (lit "-Wp,") word = true) :
    ∃ v', expandTurn (argvOf (front ++ word :: rest), front.length,
        (front ++ word :: rest).length) v =
      some (.ok (.inl (argvOf (front ++ expandWord word ++ rest),
        (front ++ expandWord word).length, (front ++ expandWord word ++ rest).length)), v') := by
  obtain ⟨v', hrun⟩ := @replaceOption_eq front rest word v hword
  have hpos := expandWord_length_pos hword
  have hlen : (front ++ expandWord word).length =
      front.length + ((expandWord word).length - 1) + 1 := by
    rw [length_append]
    omega
  have hargc : (front ++ expandWord word ++ rest).length =
      (front ++ word :: rest).length + ((expandWord word).length - 1) := by
    simp only [length_append, length_cons]
    omega
  refine ⟨v', ?_⟩
  simp only [expandTurn, getElem?_argvOf, hword, if_true]
  rw [bind_of_ok hrun, hlen, hargc]
  rfl

theorem expandTurn_word (hword : startsWith (lit "-Wp,") word = false) :
    expandTurn (argvOf (front ++ word :: rest), front.length, argc) v =
      some (.ok (.inl (argvOf (front ++ word :: rest), front.length + 1, argc)), v) := by
  simp only [expandTurn, getElem?_argvOf]
  rw [hword]
  rfl

theorem expandTurn_end (words : List CString) :
    expandTurn (argvOf words, words.length, argc) v = some (.ok (.inr (argvOf words)), v) := by
  have hend : (argvOf words)[words.length]? = some none := by simp [argvOf]
  simp only [expandTurn, hend]
  rfl

end Turns

theorem argvLen_argvOf (words : List CString) : argvLen (argvOf words) = words.length := by
  induction words with
  | nil => rfl
  | cons word words ih => exact congrArg (· + 1) ih

/-- **The loop**, when the words in front are done. -/
theorem expandLoop_eq {v : Argv} {k : ℕ} (hk : rest.length < k) :
    ∃ v', Prog.loop expandTurn k (argvOf (front ++ rest), front.length, (front ++ rest).length) v =
      some (.ok (argvOf (front ++ expandWords rest)), v') := by
  induction rest generalizing front v k with
  | nil =>
    obtain ⟨k, rfl⟩ := Nat.exists_eq_add_of_lt hk
    rw [append_nil, loop_done (expandTurn_end front)]
    exact ⟨v, by simp [expandWords]⟩
  | cons word rest ih =>
    obtain ⟨k, rfl⟩ := Nat.exists_eq_add_of_lt hk
    cases hword : startsWith (lit "-Wp,") word with
    | true =>
      obtain ⟨v₁, hturn⟩ := @expandTurn_option front rest word v hword
      rw [loop_next hturn]
      obtain ⟨v', hloop⟩ := @ih (front ++ expandWord word) v₁ (rest.length + 1 + k) (by omega)
      exact ⟨v', by simpa [expandWords] using hloop⟩
    | false =>
      have hself : expandWord word = [word] := by simp [expandWord, hword]
      rw [loop_next (expandTurn_word hword)]
      obtain ⟨v', hloop⟩ := @ih (front ++ [word]) v (rest.length + 1 + k) (by omega)
      exact ⟨v', by simpa [expandWords, hself] using hloop⟩

/-- **The function gives the words that the command stands for.** -/
theorem dccExpandPreprocessorOptions_eq (words : List CString) (v : Argv) :
    ∃ v', dccExpandPreprocessorOptions (argvOf words) v =
      some (.ok (argvOf (expandWords words)), v') := by
  have hlen : words.length < (argvOf words).length := by simp [argvOf]
  rw [dccExpandPreprocessorOptions, argvLen_argvOf]
  exact @expandLoop_eq [] words v _ hlen

/-! ### What is left -/

theorem not_mem_of_mem_expandPieces (hpieces : ∀ p ∈ pieces, 44 ∉ p) :
    ∀ w ∈ expandPieces pieces, 44 ∉ w := by
  have hmf : (44 : UInt8) ∉ lit "-MF" := by decide
  induction pieces using expandPieces.induct with
  | case1 => exact forall_mem_nil _
  | case2 p => exact hpieces
  | case3 p f pieces h ih =>
    simp only [forall_mem_cons] at hpieces
    rw [expandPieces, if_pos h]
    simp only [forall_mem_cons]
    exact ⟨hpieces.1, hmf, hpieces.2.1, ih hpieces.2.2⟩
  | case4 p f pieces h ih =>
    rw [forall_mem_cons] at hpieces
    rw [expandPieces, if_neg h, forall_mem_cons]
    exact ⟨hpieces.1, ih hpieces.2⟩

/-- No word that is left is an option for the preprocessor. -/
theorem startsWith_of_mem_expandWords :
    ∀ w ∈ expandWords words, startsWith (lit "-Wp,") w = false := by
  intro w hw
  obtain ⟨word, -, hw⟩ := mem_flatMap.mp hw
  cases hword : startsWith (lit "-Wp,") word with
  | true =>
    rw [expandWord_of_startsWith hword] at hw
    have hfree : 44 ∉ w := not_mem_of_mem_expandPieces (splitOn_pieces _ _).1 w hw
    have hno : startsWith (lit "-Wp" ++ [44]) w = false := not_startsWith_comma hfree
    exact hno
  | false =>
    obtain rfl : w = word := by simpa [expandWord, hword] using hw
    exact hword

theorem expandWords_of_forall
    (h : ∀ w ∈ words, startsWith (lit "-Wp,") w = false) : expandWords words = words := by
  induction words with
  | nil => rfl
  | cons word words ih =>
    obtain ⟨hword, hrest⟩ := forall_mem_cons.mp h
    have hself : expandWord word = [word] := by simp [expandWord, hword]
    rw [expandWords, flatMap_cons, hself]
    exact congrArg (word :: ·) (ih hrest)

/-- **Options for the preprocessor are expanded exactly**: every vector becomes that of
the words it stands for, for every option as many slots are counted as are filled, none
of the options is left, and doing it again changes nothing. -/
theorem dccExpandPreprocessorOptions_expands (words : List CString) :
    (∀ v, ∃ v', dccExpandPreprocessorOptions (argvOf words) v =
      some (.ok (argvOf (expandWords words)), v')) ∧
    (∀ word ∈ words, startsWith (lit "-Wp,") word = true → ∃ n, ∃ written : List CString,
      written.length = n ∧ (∀ v, countExtraArgs word v = some (.ok n, v)) ∧
      ∀ before hole after : Argv, hole.length = n →
        copyExtraArgs before.length word n (before ++ hole ++ after) =
          some (.ok (), before ++ written.map some ++ after)) ∧
    (∀ w ∈ expandWords words, startsWith (lit "-Wp,") w = false) ∧
    ∀ v, ∃ v', dccExpandPreprocessorOptions (argvOf (expandWords words)) v =
      some (.ok (argvOf (expandWords words)), v') := by
  refine ⟨dccExpandPreprocessorOptions_eq words, ?_, startsWith_of_mem_expandWords, fun v => ?_⟩
  · intro word _ hword
    exact ⟨_, expandWord word, rfl, countExtraArgs_eq hword,
      fun before hole after hhole => copyExtraArgs_eq hword rfl hhole⟩
  · have hrun := dccExpandPreprocessorOptions_eq (expandWords words) v
    rwa [expandWords_of_forall startsWith_of_mem_expandWords] at hrun

example : expandWords [lit "cc", lit "-Wp,-MD,a.d,-DX,,-MMD", lit "a.c"] =
    [lit "cc", lit "-MD", lit "-MF", lit "a.d", lit "-DX", [], lit "-MMD", lit "a.c"] := by decide

end Distcc
