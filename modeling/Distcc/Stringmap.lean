import Distcc.Base.Lines
import Distcc.Base.Prog
import Mathlib.Data.List.Induction

/-!
# The list of commands a server runs

Model of `src/stringmap.c`. The file that `DISTCC_CMDLIST` names is a list of commands,
one on a line. A command that a client asks for stands for the first of them that ends
in the same words, a word being what stands between two slashes.

The file is read by `fgets` into a buffer of `2 * PATH_MAX` bytes, and what does not fit
is taken for the next line; a line is also read as a C string. So what is in the map
are the lines of the file as long as they are C strings shorter than the buffer
(`loadValues_eq_fileLines`). Whatever is looked up, what is found is in the map
(`stringmapLookup_mem`).

The walk back from the end of a string starts, for an empty one, before its beginning.
What a reader finds there is a parameter. In `stringmapFind`, which is a lookup in
the map of a file with every access checked, such a walk is a fault.

The walk does not look at the first byte of a string. So if there are no more words than
asked for, a slash there is kept, and the string differs from those that have other words
in front of the same last ones (`finalWords_eq`). That the first line with the same
last words is found depends on this alone (`stringmapFind_iff`).
-/

namespace Distcc

open CString List

/-! ### The functions -/

/-- `2 * PATH_MAX` -/
def bufSize : ℕ := 8192

/-- The loop that looks for the significant part of a string, from `pos` down and after
`w` words. It does not look at the first byte. -/
def wordStart (numFinalWordsToMatch : ℤ) (s : CString) : ℕ → ℤ → ℕ
  | 0, _ => 0
  | pos + 1, w =>
    if s[pos + 1]? = some '/'.toUInt8 then
      if w + 1 ≥ numFinalWordsToMatch then pos + 2
      else wordStart numFinalWordsToMatch s pos (w + 1)
    else wordStart numFinalWordsToMatch s pos w

/-- The last words of a string. For an empty one, `stray` is what is found a byte before
it. -/
def finalWords (stray : CString) (numFinalWordsToMatch : ℤ) (s : CString) : CString :=
  if s = [] then stray else s.drop (wordStart numFinalWordsToMatch s (s.length - 1) 0)

/-- `stringmap_t`: the pairs of a key and a value. -/
structure Stringmap where
  /-- How many words of a string count. -/
  numFinalWordsToMatch : ℤ
  /-- The keys and the values. -/
  map : List (CString × CString)
  deriving DecidableEq, Repr

/-- The values in the map of a file: each buffer as a string, without a newline at the end. -/
def loadValues (content : CString) : List CString :=
  (fgetsFrom bufSize content []).map fun buf => stripNewline (ofBuffer buf)

/-- `stringmap_load`, of a file that can be opened. -/
def stringmapLoad (stray content : CString) (numFinalWordsToMatch : ℤ) : Stringmap where
  numFinalWordsToMatch := numFinalWordsToMatch
  map := (loadValues content).map fun value =>
    (finalWords stray numFinalWordsToMatch value, value)

/-- `stringmap_lookup` -/
def stringmapLookup (stray : CString) (map : Stringmap) (string : CString) : Option CString :=
  (map.map.find? fun entry =>
    entry.1 = finalWords stray map.numFinalWordsToMatch string).map Prod.snd

/-! ### What is in a map -/

/-- Every value of the map is one of these. -/
def Stringmap.Within (map : Stringmap) (values : List CString) : Prop :=
  ∀ entry ∈ map.map, entry.2 ∈ values

theorem stringmapLoad_within (stray content : CString) (n : ℤ) :
    (stringmapLoad stray content n).Within (loadValues content) := by
  intro entry hentry
  obtain ⟨value, hvalue, rfl⟩ := mem_map.mp hentry
  exact hvalue

/-- **What is found is in the map.** -/
theorem stringmapLookup_mem {stray string value : CString} {map : Stringmap}
    {values : List CString} (hmap : map.Within values)
    (h : stringmapLookup stray map string = some value) : value ∈ values := by
  obtain ⟨entry, hfind, rfl⟩ := Option.map_eq_some_iff.mp h
  exact hmap entry (mem_of_find?_eq_some hfind)

section Lines

variable {line content : CString}

theorem newline_not_mem_ofBuffer (h : 10 ∉ line) : 10 ∉ ofBuffer line := fun hmem =>
  h (takeWhile_subset _ hmem)

/-- Of a line, it is the string without the newline that is kept. -/
theorem stripNewline_ofBuffer (h : 10 ∉ line) :
    stripNewline (ofBuffer line) = ofBuffer line ∧
      stripNewline (ofBuffer (line ++ [10])) = ofBuffer line := by
  constructor
  · exact stripNewline_eq_self (newline_not_mem_ofBuffer h)
  · by_cases hnul : line.NulFree
    · have hall : (line ++ [10]).NulFree := by
        simpa [NulFree, or_imp, forall_and] using hnul
      rw [ofBuffer_eq_self hall, ofBuffer_eq_self hnul, stripNewline_append]
    · have hcut : (line.takeWhile (· ≠ 0)).length ≠ line.length := fun hlen =>
        hnul fun b hb => of_decide_eq_true (takeWhile_eq_self_iff.mp
          ((List.takeWhile_prefix _).eq_of_length hlen) b hb)
      have hsame : ofBuffer (line ++ [10]) = ofBuffer line := by
        rw [ofBuffer, takeWhile_append, if_neg hcut, ofBuffer]
      rw [hsame, stripNewline_eq_self (newline_not_mem_ofBuffer h)]

/-- **The map has the lines of the file**, as far as they are C strings, if they fit the
buffer. -/
theorem loadValues_eq_map (hfits : ∀ l ∈ rawFrom content [], l.length < bufSize) :
    loadValues content = (fileLines content).map ofBuffer := by
  rw [loadValues, fgetsFrom_eq_rawFrom content hfits, fileLines,
    linesFrom_eq_map content not_mem_nil, map_map]
  refine map_congr_left fun l hl => ?_
  obtain ⟨t, ht, rfl | rfl⟩ := rawFrom_shape content not_mem_nil l hl
  · exact (stripNewline_ofBuffer ht).1.trans (congrArg ofBuffer (stripNewline_eq_self ht).symm)
  · exact (stripNewline_ofBuffer ht).2.trans (congrArg ofBuffer (stripNewline_append t).symm)

/-- **The map has the lines of the file**, if they are C strings that fit the buffer. -/
theorem loadValues_eq_fileLines
    (hfits : ∀ l ∈ fileLines content, l.NulFree ∧ l.length + 1 < bufSize) :
    loadValues content = fileLines content := by
  have hraw : ∀ l ∈ rawFrom content [], l.length < bufSize := by
    intro l hl
    have hmem : stripNewline l ∈ fileLines content := by
      rw [fileLines, linesFrom_eq_map content not_mem_nil]
      exact mem_map_of_mem hl
    have hroom := (hfits _ hmem).2
    have hstrip := length_le_stripNewline l
    omega
  rw [loadValues_eq_map hraw, map_congr_left fun l hl => ofBuffer_eq_self (hfits l hl).1]
  exact map_id' _

end Lines

example : stringmapLookup [] (stringmapLoad [] (lit "/usr/bin/cc\n/opt/gcc/bin/gcc\n") 2)
    (lit "/home/bin/gcc") = some (lit "/opt/gcc/bin/gcc") := by decide

/-! ### Words -/

/-- The words of a string: what stands between two slashes. In front of a slash at the
beginning there is none. -/
def slashWords (s : CString) : List CString :=
  if s.head? = some 47 then s.tail.splitOn 47 else s.splitOn 47

/-- The last `n` words of a string, or all of them if there are less. -/
def lastWords (n : ℕ) (s : CString) : List CString :=
  (slashWords s).drop ((slashWords s).length - n)

/-- A slash at the beginning is significant if the string has no more than `n` words: the
walk back from the end has come to the first byte then, which it does not look at. -/
def Rooted (n : ℕ) (s : CString) : Prop := s.head? = some 47 ∧ (slashWords s).length ≤ n
deriving Decidable

/-- The words of the significant part of a string. -/
def keyWords (n : ℕ) (s : CString) : List CString :=
  if Rooted n s then [] :: lastWords n s else lastWords n s

theorem slashWords_ne_nil (s : CString) : slashWords s ≠ [] := by
  unfold slashWords
  split <;> exact splitOn_ne_nil _ _

theorem not_mem_of_mem_slashWords {s w : CString} (h : w ∈ slashWords s) : 47 ∉ w := by
  unfold slashWords at h
  split at h <;> exact (splitOn_pieces _ _).1 w h

/-- **The walk back from the end**: when `v` is left behind with its `w + 1` pieces, what
is found in the end are the last `n` pieces behind the first byte, or everything. -/
theorem drop_wordStart {c : UInt8} {n w : ℕ} {u v : CString} (hw : w < n)
    (hv : (v.splitOn 47).length = w + 1) :
    (c :: (u ++ v)).drop (wordStart n (c :: (u ++ v)) u.length w) =
      if n < ((u ++ v).splitOn 47).length then
        [47].intercalate (((u ++ v).splitOn 47).drop (((u ++ v).splitOn 47).length - n))
      else c :: (u ++ v) := by
  induction u using List.reverseRecOn generalizing v w with
  | nil =>
    rw [nil_append, hv, if_neg (by omega)]
    rfl
  | append_singleton u b ih =>
    have hsplit : u ++ [b] ++ v = u ++ b :: v := by simp
    have hbyte : (c :: (u ++ b :: v))[u.length + 1]? = some b := by simp
    rw [hsplit, length_append, length_singleton, wordStart, hbyte]
    by_cases hb : b = 47
    · subst hb
      have hpieces : ((47 :: v).splitOn 47).length = w + 1 + 1 := by
        rw [splitOn_cons_eq_if_modifyHead]
        simp [hv]
      rw [if_pos (by decide)]
      by_cases hlast : w + 1 = n
      · -- the last piece that counts
        have hall : (u ++ 47 :: v).splitOn 47 = u.splitOn 47 ++ v.splitOn 47 :=
          splitOn_append_cons_self _ _
        have hu : 0 < (u.splitOn 47).length := length_pos_of_ne_nil (splitOn_ne_nil _ _)
        have hdrop : (c :: (u ++ 47 :: v)).drop (u.length + 2) = v := by
          rw [drop_succ_cons]
          simp
        rw [if_pos (by omega), hdrop, hall, length_append, hv, hlast, if_pos (by omega),
          Nat.add_sub_cancel, drop_left, intercalate_splitOn]
      · have hmore : ¬((w : ℤ) + 1 ≥ n) := by omega
        have hnext := @ih (w + 1) (47 :: v) (by omega) hpieces
        rw [if_neg hmore]
        rwa [Int.natCast_succ] at hnext
    · have hpieces : ((b :: v).splitOn 47).length = w + 1 := by
        rw [splitOn_cons_eq_if_modifyHead]
        simp [hv, hb]
      have hother : ¬some b = some '/'.toUInt8 := fun h => hb (Option.some.inj h)
      rw [if_neg hother]
      exact ih hw hpieces

variable {n : ℕ}

/-- **The significant part of a string** are its last words, with the slash at its
beginning if that is kept. -/
theorem finalWords_eq (hn : 1 ≤ n) {s : CString} (hs : s ≠ []) (stray : CString) :
    finalWords stray n s = [47].intercalate (keyWords n s) := by
  obtain ⟨c, t, rfl⟩ := exists_cons_of_ne_nil hs
  have hwalk := @drop_wordStart c n 0 t [] hn rfl
  rw [append_nil] at hwalk
  rw [finalWords, if_neg hs]
  refine hwalk.trans ?_
  have hjoin : ∀ u : CString, [47].intercalate (u.splitOn 47) = u := fun u =>
    intercalate_splitOn 47
  by_cases hc : c = 47
  · -- the first byte is a slash, and not part of the words
    subst hc
    have hwords : slashWords (47 :: t) = t.splitOn 47 := if_pos rfl
    by_cases hlen : n < (t.splitOn 47).length
    · have hroot : ¬Rooted n (47 :: t) := fun h => absurd h.2 (by rw [hwords]; omega)
      rw [if_pos hlen, keyWords, if_neg hroot, lastWords, hwords]
    · have hroot : Rooted n (47 :: t) := ⟨rfl, by rw [hwords]; omega⟩
      obtain ⟨p, pieces, hp⟩ := exists_cons_of_ne_nil (splitOn_ne_nil 47 t)
      rw [if_neg hlen, keyWords, if_pos hroot, lastWords, hwords, Nat.sub_eq_zero_of_le (by omega),
        drop_zero, hp, intercalate_cons_cons, ← hp, hjoin]
      rfl
  · -- it is part of the first word
    have hhead : ¬(c :: t).head? = some 47 := fun h => hc (Option.some.inj h)
    have hroot : ¬Rooted n (c :: t) := fun h => hhead h.1
    have hwords : slashWords (c :: t) = (t.splitOn 47).modifyHead (List.cons c) := by
      rw [slashWords, if_neg hhead, splitOn_cons_eq_if_modifyHead]
      simp [hc]
    rw [keyWords, if_neg hroot, lastWords]
    split
    · case isTrue hlen =>
      obtain ⟨p, pieces, hp⟩ := exists_cons_of_ne_nil (splitOn_ne_nil 47 t)
      rw [hp] at hlen hwords ⊢
      obtain ⟨k, hk⟩ := Nat.exists_eq_add_of_lt hlen
      have hdrop : (p :: pieces).length - n = k + 1 := by omega
      rw [hwords, modifyHead_cons, show ((c :: p) :: pieces).length - n = k + 1 from hdrop,
        hdrop, drop_succ_cons, drop_succ_cons]
    · case isFalse hlen =>
      have hall : (slashWords (c :: t)).length - n = 0 := by
        rw [hwords, length_modifyHead]
        omega
      rw [hall, drop_zero, slashWords, if_neg hhead, hjoin]

theorem not_mem_of_mem_keyWords {s w : CString} (h : w ∈ keyWords n s) : 47 ∉ w := by
  have hlast : ∀ w ∈ lastWords n s, 47 ∉ w := fun w hw =>
    not_mem_of_mem_slashWords (mem_of_mem_drop hw)
  unfold keyWords at h
  split at h
  · obtain rfl | h := mem_cons.mp h
    · exact not_mem_nil
    · exact hlast w h
  · exact hlast w h

theorem lastWords_ne_nil (hn : 1 ≤ n) (s : CString) : lastWords n s ≠ [] := by
  have hpos := length_pos_of_ne_nil (slashWords_ne_nil s)
  rw [lastWords, Ne, drop_eq_nil_iff]
  omega

theorem keyWords_ne_nil (hn : 1 ≤ n) (s : CString) : keyWords n s ≠ [] := by
  unfold keyWords
  split
  · exact cons_ne_nil _ _
  · exact lastWords_ne_nil hn s

/-- The significant parts are the same if their words are. -/
theorem intercalate_keyWords_inj (hn : 1 ≤ n) {a b : CString} :
    [47].intercalate (keyWords n a) = [47].intercalate (keyWords n b) ↔
      keyWords n a = keyWords n b := by
  constructor
  · intro h
    have hsplit := congrArg (List.splitOn 47) h
    rwa [splitOn_intercalate 47 (fun w hw => not_mem_of_mem_keyWords hw) (keyWords_ne_nil hn a),
      splitOn_intercalate 47 (fun w hw => not_mem_of_mem_keyWords hw) (keyWords_ne_nil hn b)]
      at hsplit
  · exact congrArg _

/-! ### Lookups -/

/-- The significant part of a string. The walk back from the end of an empty one ends
before its beginning. -/
def significant (numFinalWordsToMatch : ℤ) (s : CString) : Except Fault CString :=
  if s = [] then .error .bounds
  else .ok (s.drop (wordStart numFinalWordsToMatch s (s.length - 1) 0))

/-- `stringmap_load` of a file, and `stringmap_lookup` in the map, with every access
checked. -/
def stringmapFind (content : CString) (numFinalWordsToMatch : ℤ) (string : CString) :
    Except Fault (Option CString) := do
  let map ← (loadValues content).mapM fun value => do
    let key ← significant numFinalWordsToMatch value
    pure (key, value)
  if map = [] then pure none
  else
    let key ← significant numFinalWordsToMatch string
    pure ((map.find? fun entry => entry.1 = key).map Prod.snd)

section Lookup

variable {n : ℤ} {values : List CString}

theorem significant_eq {s : CString} (hs : s ≠ []) (stray : CString) :
    significant n s = .ok (finalWords stray n s) := by
  simp [significant, finalWords, hs]

theorem mapM_significant (h : ∀ value ∈ values, value ≠ []) (stray : CString) :
    (values.mapM fun value => do
      let key ← significant n value
      pure (key, value)) = .ok (values.map fun value => (finalWords stray n value, value)) := by
  induction values with
  | nil => rfl
  | cons value values ih =>
    obtain ⟨hvalue, hrest⟩ := forall_mem_cons.mp h
    rw [mapM_cons, significant_eq hvalue stray, ih hrest]
    rfl

theorem mapM_significant_error (h : [] ∈ values) :
    (values.mapM fun value => do
      let key ← significant n value
      pure (key, value)) = .error .bounds := by
  induction values with
  | nil => cases h
  | cons value values ih =>
    rw [mapM_cons]
    by_cases hvalue : value = []
    · rw [significant, if_pos hvalue]
      rfl
    · rw [significant, if_neg hvalue, ih ((mem_cons.mp h).resolve_left (Ne.symm hvalue))]
      rfl

section Checked

variable {content string : CString} (hvalues : ∀ value ∈ loadValues content, value ≠ [])

include hvalues

theorem stringmapFind_eq_ok (hstring : loadValues content ≠ [] → string ≠ []) (stray : CString) :
    stringmapFind content n string =
      .ok (stringmapLookup stray (stringmapLoad stray content n) string) := by
  rw [stringmapFind, mapM_significant hvalues stray, Except.ok_bind]
  split
  · case isTrue hnil =>
    simp [stringmapLookup, stringmapLoad, map_eq_nil_iff.mp hnil, pure, Except.pure]
  · case isFalse hne =>
    rw [significant_eq (hstring fun hnil => hne (map_eq_nil_iff.mpr hnil)) stray]
    rfl

theorem stringmapFind_eq_error (hne : loadValues content ≠ []) :
    stringmapFind content n [] = .error .bounds := by
  rw [stringmapFind, mapM_significant hvalues [], Except.ok_bind,
    if_neg fun hnil => hne (map_eq_nil_iff.mp hnil)]
  rfl

end Checked

/-- **A lookup is in bounds** if no empty string is walked along, and then it does not
matter what is found before one. -/
theorem stringmapFind_eq_ok_iff {content string : CString} {r : Option CString} :
    stringmapFind content n string = .ok r ↔ (∀ value ∈ loadValues content, value ≠ []) ∧
      (loadValues content ≠ [] → string ≠ []) ∧
      ∀ stray, stringmapLookup stray (stringmapLoad stray content n) string = r := by
  by_cases hvalues : [] ∈ loadValues content
  · rw [stringmapFind, mapM_significant_error hvalues]
    exact iff_of_false nofun fun h => h.1 [] hvalues rfl
  have hvalues : ∀ value ∈ loadValues content, value ≠ [] := fun value hmem hnil =>
    hvalues (hnil ▸ hmem)
  by_cases hstring : loadValues content ≠ [] → string ≠ []
  · have hrun := stringmapFind_eq_ok (n := n) hvalues hstring
    constructor
    · intro h
      exact ⟨hvalues, hstring, fun stray => Except.ok.inj ((hrun stray).symm.trans h)⟩
    · rintro ⟨-, -, h⟩
      rw [hrun [], h]
  · obtain ⟨hne, rfl⟩ : loadValues content ≠ [] ∧ string = [] := by simpa using hstring
    rw [stringmapFind_eq_error hvalues hne]
    exact iff_of_false nofun fun h => h.2.1 hne rfl

end Lookup

/-- The lines of a file, as C strings. -/
def mapLines (content : CString) : List CString := (fileLines content).map ofBuffer

/-- The slash at the beginning does not make a difference: strings with the same last
words keep it both or not at all, and it is not mistaken for an empty word. -/
def Alike (n : ℕ) (a b : CString) : Prop :=
  (lastWords n a = lastWords n b → (Rooted n a ↔ Rooted n b)) ∧
  (Rooted n a → ¬Rooted n b → lastWords n b ≠ [] :: lastWords n a) ∧
  (Rooted n b → ¬Rooted n a → lastWords n a ≠ [] :: lastWords n b)

theorem alike_iff {a b : CString} :
    Alike n a b ↔ (keyWords n a = keyWords n b ↔ lastWords n a = lastWords n b) := by
  have hcons : ∀ l : List CString, [] :: l ≠ l := fun l => cons_ne_self [] l
  unfold Alike keyWords
  by_cases ha : Rooted n a <;> by_cases hb : Rooted n b
  · simp [ha, hb]
  · simp only [ha, hb, if_true, if_false]
    grind
  · simp only [ha, hb, if_true, if_false]
    grind
  · simp [ha, hb]

theorem stringmapLookup_eq_find? {content string : CString} (hn : 1 ≤ n)
    (hvalues : ∀ value ∈ loadValues content, value ≠ []) (hstring : string ≠ []) (stray : CString) :
    stringmapLookup stray (stringmapLoad stray content n) string =
      (loadValues content).find? fun line => keyWords n line = keyWords n string := by
  rw [stringmapLookup, stringmapLoad, find?_map, Option.map_map]
  refine Option.map_id_apply.trans (find?_eq_find?_iff.mpr fun before line after hl _ => ?_)
  have hline : line ≠ [] := hvalues line (by simp [hl])
  rw [Function.comp_apply, decide_eq_decide, finalWords_eq hn hline, finalWords_eq hn hstring,
    intercalate_keyWords_inj hn]

/-- **A command stands for the first of the list that ends in the same words** exactly if
no empty string is walked along and the slashes at the beginnings make no difference, up
to the first such command. -/
theorem stringmapFind_iff {content string : CString} {n : ℕ} (hn : 1 ≤ n)
    (hfits : ∀ l ∈ rawFrom content [], l.length < bufSize) :
    stringmapFind content n string = .ok ((mapLines content).find? fun line =>
        lastWords n line = lastWords n string) ↔
      (∀ line ∈ mapLines content, line ≠ []) ∧ (mapLines content ≠ [] → string ≠ []) ∧
      ∀ before line after, mapLines content = before ++ line :: after →
        (∀ l ∈ before, lastWords n l ≠ lastWords n string) → Alike n line string := by
  have hlines : loadValues content = mapLines content := loadValues_eq_map hfits
  rw [stringmapFind_eq_ok_iff, hlines]
  refine and_congr_right fun hvalues => and_congr_right fun hstring => ?_
  have hagree : (∀ stray, stringmapLookup stray (stringmapLoad stray content n) string =
      (mapLines content).find? fun line => lastWords n line = lastWords n string) ↔
      AgreeUpTo (fun line => decide (keyWords n line = keyWords n string))
        (fun line => decide (lastWords n line = lastWords n string)) (mapLines content) := by
    rw [← find?_eq_find?_iff, ← hlines]
    by_cases hnil : loadValues content = []
    · simp [stringmapLookup, stringmapLoad, hnil]
    · have hlookup := stringmapLookup_eq_find? hn (hlines ▸ hvalues) (hstring (hlines ▸ hnil))
      exact ⟨fun h => (hlookup []).symm.trans (h []), fun h stray => (hlookup stray).trans h⟩
  rw [hagree]
  simp only [AgreeUpTo, alike_iff, decide_eq_decide, decide_eq_false_iff_not, ne_eq]

theorem stringmapFind_iff_gcc :
    stringmapFind (lit "/usr/bin/cc\n/opt/gcc/bin/gcc") (2 : ℕ) (lit "/home/bin/gcc") =
      .ok ((mapLines (lit "/usr/bin/cc\n/opt/gcc/bin/gcc")).find? fun line =>
        lastWords 2 line = lastWords 2 (lit "/home/bin/gcc")) := by
  have halike : ∀ line ∈ mapLines (lit "/usr/bin/cc\n/opt/gcc/bin/gcc"),
      Alike 2 line (lit "/home/bin/gcc") := by
    unfold Alike
    decide
  refine (stringmapFind_iff (by decide) (by decide)).mpr ⟨by decide, by decide, ?_⟩
  intro before line after hlines _
  exact halike line (hlines ▸ mem_append_cons_self)

/-- A command that stands directly below the root is not found by a longer path to it. -/
theorem stringmapFind_misses_rooted :
    stringmapFind (lit "/bin/gcc\n") (2 : ℕ) (lit "/usr/bin/gcc") = .ok none ∧
      ((mapLines (lit "/bin/gcc\n")).find? fun line =>
        lastWords 2 line = lastWords 2 (lit "/usr/bin/gcc")) = some (lit "/bin/gcc") := by
  decide

end Distcc
