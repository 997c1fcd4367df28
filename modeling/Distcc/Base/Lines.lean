import Distcc.Base.CString

/-!
# Pieces and lines

A string is cut into pieces at every occurrence of a byte, by `List.splitOn`. The pieces
are free of it (`splitOn_pieces`), and as many of them as there are behind some
occurrence are the pieces of what is behind it.

A file is cut into lines at the newlines. A program that reads it by `fgets` gets each
line with the newline at its end (`rawFrom`), as long as the lines fit the buffer
(`fgetsFrom_eq_rawFrom`); what does not fit it takes for the next line.
-/

namespace Distcc

open List

/-! ### Pieces -/

/-- The pieces between two occurrences of a byte are free of it, and there are not too
many. -/
theorem splitOn_pieces (c : UInt8) (s : CString) :
    (∀ p ∈ s.splitOn c, c ∉ p) ∧ (s.splitOn c).length ≤ s.length + 1 := by
  induction s with
  | nil => simp
  | cons b s ih =>
    obtain ⟨hfree, hlen⟩ := ih
    rw [splitOn_cons_eq_if_modifyHead]
    split
    · simpa using ⟨hfree, hlen⟩
    · case isFalse hb =>
      obtain ⟨p, pieces, hp⟩ := exists_cons_of_ne_nil (splitOn_ne_nil c s)
      rw [hp] at hfree hlen ⊢
      obtain ⟨hp, hpieces⟩ := forall_mem_cons.mp hfree
      have hb' : c ≠ b := fun h => hb (by simp [h])
      rw [modifyHead_cons]
      refine ⟨forall_mem_cons.mpr ⟨not_mem_cons_of_ne_of_not_mem hb' hp, hpieces⟩, ?_⟩
      simp only [length_cons] at hlen ⊢
      omega

/-! ### Lines -/

/-- The lines of a file, after a part of one. -/
def linesFrom : CString → CString → List CString
  | [], line => if line = [] then [] else [line]
  | b :: s, line => if b = 10 then line :: linesFrom s [] else linesFrom s (line ++ [b])

/-- The lines of a file. -/
def fileLines (content : CString) : List CString := linesFrom content []

/-- The lines of a file, with the newlines at their ends. -/
def rawFrom : CString → CString → List CString
  | [], line => if line = [] then [] else [line]
  | b :: s, line => if b = 10 then (line ++ [b]) :: rawFrom s [] else rawFrom s (line ++ [b])

/-- `getline`: the next line with its newline, and what is left of the file. -/
def getline (file : CString) : Option (CString × CString) :=
  if file = [] then none
  else
    match file.dropWhile (· ≠ 10) with
    | [] => some (file, [])
    | b :: rest => some (file.takeWhile (· ≠ 10) ++ [b], rest)

/-- What `fgets` gives, again and again: up to a newline, the end of the file, or the
end of the buffer but for the NUL. -/
def fgetsFrom (size : ℕ) : CString → CString → List CString
  | [], buf => if buf = [] then [] else [buf]
  | b :: s, buf =>
    if b = 10 ∨ buf.length + 2 = size then (buf ++ [b]) :: fgetsFrom size s []
    else fgetsFrom size s (buf ++ [b])

/-- `fgets`, with room for so many bytes: what is read, what is left of the file, and
whether the end of the file was met. A file that is read up to its last byte did not meet
its end yet. -/
def fgets : ℕ → CString → CString × CString × Bool
  | 0, s => ([], s, false)
  | _ + 1, [] => ([], [], true)
  | room + 1, b :: s =>
    if b = 10 then ([b], s, false)
    else
      let r := fgets room s
      (b :: r.1, r.2)

/-- The line without a newline at the end. -/
def stripNewline (line : CString) : CString :=
  if line.getLast? = some 10 then line.dropLast else line

theorem stripNewline_append (line : CString) : stripNewline (line ++ [10]) = line := by
  simp [stripNewline]

theorem stripNewline_eq_self {line : CString} (h : 10 ∉ line) : stripNewline line = line :=
  if_neg fun hlast => h (mem_of_getLast? hlast)

theorem length_le_stripNewline (line : CString) : line.length ≤ (stripNewline line).length + 1 := by
  unfold stripNewline
  split
  · rw [length_dropLast]
    omega
  · omega

section Lines

variable {line : CString} (s : CString)

theorem linesFrom_eq_map (hline : 10 ∉ line) :
    linesFrom s line = (rawFrom s line).map stripNewline := by
  induction s generalizing line with
  | nil =>
    unfold linesFrom rawFrom
    split
    · rfl
    · rw [map_singleton, stripNewline_eq_self hline]
  | cons b s ih =>
    unfold linesFrom rawFrom
    by_cases hb : b = 10
    · subst hb
      rw [if_pos rfl, if_pos rfl, map_cons, stripNewline_append, ih not_mem_nil]
    · rw [if_neg hb, if_neg hb]
      exact ih (by simpa [Ne.symm hb] using hline)

/-- What was read of a line is in front of what is read next. -/
theorem rawFrom_eq_of_dropWhile {s rest : CString} (h : s.dropWhile (· ≠ 10) = 10 :: rest) :
    rawFrom s line = (line ++ s.takeWhile (· ≠ 10) ++ [10]) :: rawFrom rest [] := by
  induction s generalizing line with
  | nil => simp at h
  | cons b s ih =>
    by_cases hb : b = 10
    · subst hb
      obtain rfl : s = rest := by simpa using h
      simp [rawFrom]
    · have hs : s.dropWhile (· ≠ 10) = 10 :: rest := by simpa [hb] using h
      rw [rawFrom, if_neg hb, ih hs]
      simp [hb]

theorem rawFrom_eq_of_dropWhile_nil {s : CString} (h : s.dropWhile (· ≠ 10) = [])
    (hne : line ++ s ≠ []) : rawFrom s line = [line ++ s] := by
  induction s generalizing line with
  | nil => simpa [rawFrom] using hne
  | cons b s ih =>
    have hb : b ≠ 10 := by
      rintro rfl
      simp at h
    have hs : s.dropWhile (· ≠ 10) = [] := by simpa [hb] using h
    rw [rawFrom, if_neg hb, ih hs (by simp)]
    simp

/-- **The lines that `getline` reads.** -/
theorem getline_cases (file : CString) :
    (getline file = none ∧ rawFrom file [] = []) ∨ ∃ l rest, getline file = some (l, rest) ∧
      rawFrom file [] = l :: rawFrom rest [] ∧ rest.length < file.length := by
  by_cases hnil : file = []
  · exact .inl (by simp [getline, rawFrom, hnil])
  right
  cases hdrop : file.dropWhile (· ≠ 10) with
  | nil =>
    refine ⟨file, [], by rw [getline, if_neg hnil, hdrop], ?_, length_pos_iff.mpr hnil⟩
    exact rawFrom_eq_of_dropWhile_nil hdrop hnil
  | cons b rest =>
    have hb : b = 10 := by
      have hhead := head?_dropWhile_not (· ≠ 10) file
      rw [hdrop, head?_cons] at hhead
      simpa using hhead
    subst hb
    have hline : getline file = some (file.takeWhile (· ≠ 10) ++ [10], rest) := by
      rw [getline, if_neg hnil, hdrop]
    refine ⟨_, rest, hline, rawFrom_eq_of_dropWhile hdrop, ?_⟩
    have hlen := (dropWhile_suffix (l := file) (· ≠ 10)).length_le
    rw [hdrop, length_cons] at hlen
    omega

/-- The only newline in a line is that at its end. -/
theorem rawFrom_shape (hline : 10 ∉ line) :
    ∀ l ∈ rawFrom s line, ∃ t, 10 ∉ t ∧ (l = t ∨ l = t ++ [10]) := by
  induction s generalizing line with
  | nil =>
    unfold rawFrom
    split
    · exact forall_mem_nil _
    · exact forall_mem_singleton.mpr ⟨line, hline, .inl rfl⟩
  | cons b s ih =>
    unfold rawFrom
    by_cases hb : b = 10
    · rw [if_pos hb, hb]
      exact forall_mem_cons.mpr ⟨⟨line, hline, .inr rfl⟩, ih not_mem_nil⟩
    · rw [if_neg hb]
      exact ih (by simpa [Ne.symm hb] using hline)

theorem mem_of_mem_rawFrom {l : CString} (hl : l ∈ rawFrom s []) {b : UInt8}
    (hb : b ∈ l) : b ∈ s := by
  suffices h : ∀ line, ∀ l ∈ rawFrom s line, ∀ b ∈ l, b ∈ line ∨ b ∈ s from
    (h [] l hl b hb).resolve_left not_mem_nil
  clear hl hb
  induction s with
  | nil =>
    intro line l hl b hb
    unfold rawFrom at hl
    split at hl
    · cases hl
    · exact .inl (mem_singleton.mp hl ▸ hb)
  | cons c s ih =>
    intro line l hl b hb
    have hpart : b ∈ line ++ [c] → b ∈ line ∨ b ∈ c :: s := by
      simp only [mem_append, mem_cons, not_mem_nil, or_false]
      grind
    unfold rawFrom at hl
    split at hl
    · obtain rfl | hl := mem_cons.mp hl
      · exact hpart hb
      · exact (ih [] l hl b hb).elim nofun fun h => .inr (mem_cons_of_mem _ h)
    · exact (ih _ l hl b hb).elim hpart fun h => .inr (mem_cons_of_mem _ h)

/-- The next byte is part of a line, and so is what was read of that line before. -/
theorem exists_mem_rawFrom (b : UInt8) (s line : CString) :
    ∃ l ∈ rawFrom (b :: s) line, line.length + 1 ≤ l.length := by
  induction s generalizing b line with
  | nil => exact ⟨line ++ [b], by simp [rawFrom], by simp⟩
  | cons c s ih =>
    rw [rawFrom]
    split
    · exact ⟨line ++ [b], mem_cons_self, by simp⟩
    · obtain ⟨l, hl, hlen⟩ := ih c (line ++ [b])
      rw [length_append] at hlen
      exact ⟨l, hl, by omega⟩

/-- **While the lines fit the buffer**, `fgets` reads them one by one. -/
theorem fgetsFrom_eq_rawFrom {size : ℕ}
    (hfits : ∀ l ∈ rawFrom s line, l.length < size) : fgetsFrom size s line = rawFrom s line := by
  induction s generalizing line with
  | nil => rfl
  | cons b s ih =>
    unfold fgetsFrom
    unfold rawFrom at hfits ⊢
    by_cases hb : b = 10
    · rw [if_pos hb] at hfits ⊢
      rw [if_pos (.inl hb), ih fun l hl => hfits l (.tail _ hl)]
    · rw [if_neg hb] at hfits ⊢
      by_cases hfull : line.length + 2 = size
      · -- the buffer is full, so nothing follows
        cases s with
        | nil => simp [hfull, fgetsFrom, rawFrom]
        | cons c s =>
          obtain ⟨l, hl, hlen⟩ := exists_mem_rawFrom c s (line ++ [b])
          have hroom := hfits l hl
          rw [length_append, length_singleton] at hlen
          omega
      · rw [if_neg (not_or.mpr ⟨hb, hfull⟩), ih hfits]

/-! ### One call of `fgets` -/

section Fgets

variable {room : ℕ} {t : CString}

theorem fgets_newline (ht : 10 ∉ t) (hroom : t.length < room) (s : CString) :
    fgets room (t ++ 10 :: s) = (t ++ [10], s, false) := by
  induction t generalizing room with
  | nil =>
    obtain ⟨room, rfl⟩ := Nat.exists_eq_add_one.mpr hroom
    rfl
  | cons b t ih =>
    obtain ⟨room, rfl⟩ := Nat.exists_eq_add_one.mpr (Nat.zero_lt_of_lt hroom)
    rw [mem_cons, not_or] at ht
    rw [cons_append, fgets, if_neg (Ne.symm ht.1), ih ht.2 (Nat.lt_of_succ_lt_succ hroom)]
    rfl

/-- The end of the file is met if there is room for another byte. -/
theorem fgets_end (ht : 10 ∉ t) (hroom : t.length < room) : fgets room t = (t, [], true) := by
  induction t generalizing room with
  | nil =>
    obtain ⟨room, rfl⟩ := Nat.exists_eq_add_one.mpr hroom
    rfl
  | cons b t ih =>
    obtain ⟨room, rfl⟩ := Nat.exists_eq_add_one.mpr (Nat.zero_lt_of_lt hroom)
    rw [mem_cons, not_or] at ht
    rw [fgets, if_neg (Ne.symm ht.1), ih ht.2 (Nat.lt_of_succ_lt_succ hroom)]

theorem fgets_full (ht : 10 ∉ t) (hroom : room ≤ t.length) (s : CString) :
    fgets room (t ++ s) = (t.take room, t.drop room ++ s, false) := by
  induction room generalizing t with
  | zero => rw [fgets, take_zero, drop_zero]
  | succ room ih =>
    obtain ⟨b, t, rfl⟩ := exists_cons_of_length_pos (Nat.zero_lt_of_lt hroom)
    rw [mem_cons, not_or] at ht
    rw [cons_append, fgets, if_neg (Ne.symm ht.1), ih ht.2 (Nat.le_of_succ_le_succ hroom)]
    rfl

theorem rawFrom_newline (ht : 10 ∉ t) (s : CString) :
    rawFrom (t ++ 10 :: s) line = (line ++ t ++ [10]) :: rawFrom s [] := by
  have hfree : ∀ b ∈ t, decide (b ≠ 10) = true := fun b hb =>
    decide_eq_true fun h : b = 10 => ht (h ▸ hb)
  have hdrop : (t ++ 10 :: s).dropWhile (· ≠ 10) = 10 :: s := by
    rw [dropWhile_append_of_pos hfree]
    rfl
  rw [rawFrom_eq_of_dropWhile hdrop, takeWhile_append_of_pos hfree]
  simp

theorem rawFrom_end (ht : 10 ∉ t) (hne : t ≠ []) : rawFrom t [] = [t] :=
  rawFrom_eq_of_dropWhile_nil (dropWhile_eq_nil_iff.mpr fun b hb => by
    simpa using fun h : b = 10 => ht (h ▸ hb)) hne

end Fgets

end Lines

end Distcc
