import Mathlib.Data.List.Perm.Basic
import Mathlib.Data.List.Sort
import Mathlib.Data.Set.List
import Distcc.Base.Chain
import Distcc.Hosts.Parse

/-!
# The host list

Model of `dcc_parse_hosts` and `dcc_randomize_host_list` in `src/hosts.c`. The text is cut
into words, comments being left out (`hostWords`). Some words are about the list as
a whole, and for each of the others an entry is put behind the last one of a linked list.
At the end the entries may be put into another order.

The entries are in memory, under addresses, and point to one another. What can be said of
the memory at every step of the loop is `HostList.Holds`: from the head on, the
entries that were read are met, in the order they were read in, and then the null pointer.

The program is taken to be built without Avahi.
-/

namespace Distcc

open CString List Function

/-! ### Words -/

/-- What ends a word. -/
def wordEnd : CString := lit " #\t\n\x0c\r"

/-- The end of a line ends a comment. -/
def isEol (b : UInt8) : Bool := b = '\n'.toUInt8 || b = '\r'.toUInt8

/-- The words that the loop of `dcc_parse_hosts` comes upon, in at most so many turns. -/
def wordsLoop : ℕ → CString → List HostWord
  | 0, _ => []
  | turns + 1, s =>
    match s with
    | [] => []
    | b :: s =>
      if b = '#'.toUInt8 then wordsLoop turns (s.dropWhile fun c => !isEol c)
      else if isSpace b then wordsLoop turns s
      else
        ⟨(b :: s).takeWhile (· ∉ wordEnd), (b :: s).dropWhile (· ∉ wordEnd)⟩ ::
          wordsLoop turns ((b :: s).dropWhile (· ∉ wordEnd))

/-- The words of a host list. A turn of the loop reads a byte at least. -/
def hostWords (text : CString) : List HostWord := wordsLoop text.length text

section Words

variable {s : CString} {b : UInt8}

/-- A byte that starts a word is part of it. -/
theorem not_mem_wordEnd (hhash : b ≠ 35) (hspace : isSpace b = false) : b ∉ wordEnd := by
  intro hmem
  have hall : ∀ c ∈ wordEnd, c = 35 ∨ isSpace c = true := by decide
  obtain heq | hsp := hall b hmem
  · exact hhash heq
  · exact Bool.false_ne_true (hspace.symm.trans hsp)

/-- More turns than there are bytes make no difference. -/
theorem wordsLoop_of_le {turns turns' : ℕ} (h : s.length ≤ turns) (h' : s.length ≤ turns') :
    wordsLoop turns s = wordsLoop turns' s := by
  induction turns generalizing s turns' with
  | zero =>
    obtain rfl := eq_nil_of_length_eq_zero (Nat.le_zero.mp h)
    cases turns' <;> rfl
  | succ turns ih =>
    cases s with
    | nil => cases turns' <;> rfl
    | cons b s =>
      obtain ⟨turns', rfl⟩ := Nat.exists_eq_add_of_le' (Nat.one_le_of_lt h')
      simp only [length_cons, Nat.add_le_add_iff_right] at h h'
      have hdrop (q : UInt8 → Bool) : wordsLoop turns (s.dropWhile q) =
          wordsLoop turns' (s.dropWhile q) :=
        ih ((length_dropWhile_le q s).trans h) ((length_dropWhile_le q s).trans h')
      rw [wordsLoop, wordsLoop]
      split
      · exact hdrop _
      · case isFalse hhash =>
        split
        · exact ih h h'
        · case isFalse hspace =>
          rw [dropWhile_free_cons (not_mem_wordEnd hhash (Bool.eq_false_iff.mpr hspace)), hdrop]

@[simp] theorem hostWords_nil : hostWords [] = [] := rfl

theorem hostWords_comment (s : CString) :
    hostWords (35 :: s) = hostWords (s.dropWhile fun c => !isEol c) :=
  wordsLoop_of_le (length_dropWhile_le _ s) le_rfl

theorem hostWords_space (s : CString) (hspace : isSpace b = true) :
    hostWords (b :: s) = hostWords s := by
  have hhash : b ≠ '#'.toUInt8 := by
    rintro rfl
    exact absurd hspace (by decide)
  rw [hostWords, length_cons, wordsLoop, if_neg hhash, if_pos hspace, hostWords]

theorem hostWords_word (hhash : b ≠ 35) (hspace : isSpace b = false) :
    hostWords (b :: s) =
      ⟨(b :: s).takeWhile (· ∉ wordEnd), (b :: s).dropWhile (· ∉ wordEnd)⟩ ::
        hostWords ((b :: s).dropWhile (· ∉ wordEnd)) := by
  have hhash' : ¬b = '#'.toUInt8 := hhash
  rw [hostWords, length_cons, wordsLoop, if_neg hhash', if_neg (Bool.eq_false_iff.mp hspace),
    dropWhile_free_cons (not_mem_wordEnd hhash hspace)]
  exact congrArg _ (wordsLoop_of_le (length_dropWhile_le _ s) le_rfl)

/-- How a word is cut out: up to the next byte that ends one. -/
structure HostWord.Cut (word : HostWord) : Prop where
  ne_nil : word.text ≠ []
  inside : ∀ b ∈ word.text, b ∉ wordEnd
  ends : ∀ b ∈ word.rest.head?, b ∈ wordEnd

theorem cut_span (hhash : b ≠ 35) (hspace : isSpace b = false) :
    HostWord.Cut ⟨(b :: s).takeWhile (· ∉ wordEnd), (b :: s).dropWhile (· ∉ wordEnd)⟩ where
  ne_nil := by
    change (b :: s).takeWhile (· ∉ wordEnd) ≠ []
    rw [takeWhile_free_cons (not_mem_wordEnd hhash hspace)]
    exact cons_ne_nil _ _
  inside _ hc := by simpa using mem_takeWhile_imp hc
  ends _ hc := mem_of_mem_head?_dropWhile hc

/-- **The words of a list** are cut out of it. -/
theorem hostWords_cut {word : HostWord} (h : word ∈ hostWords s) :
    word.Cut ∧ word.cursor <:+ s := by
  have hloop (turns : ℕ) (t : CString) (ht : word ∈ wordsLoop turns t) :
      word.Cut ∧ word.cursor <:+ t := by
    induction turns generalizing t with
    | zero => cases ht
    | succ turns ih =>
      cases t with
      | nil => cases ht
      | cons b t =>
        rw [wordsLoop] at ht
        split at ht
        · obtain ⟨hcut, hsuffix⟩ := ih _ ht
          exact ⟨hcut, (hsuffix.trans (dropWhile_suffix _)).trans (suffix_cons b t)⟩
        · case isFalse hhash =>
          split at ht
          · obtain ⟨hcut, hsuffix⟩ := ih _ ht
            exact ⟨hcut, hsuffix.trans (suffix_cons b t)⟩
          · case isFalse hspace =>
            obtain rfl | ht := mem_cons.mp ht
            · refine ⟨cut_span hhash (Bool.eq_false_iff.mpr hspace), ?_⟩
              rw [HostWord.cursor, takeWhile_append_dropWhile]
            · obtain ⟨hcut, hsuffix⟩ := ih _ ht
              exact ⟨hcut, hsuffix.trans (dropWhile_suffix _)⟩
  exact hloop s.length s h

/-- What the text from a word on starts with, the word starts with. -/
theorem HostWord.Cut.startsWith_cursor {word : HostWord} (h : word.Cut) (head : CString)
    (hhead : ∀ b ∈ head, b ∉ wordEnd) :
    startsWith head word.cursor = startsWith head word.text := by
  rw [Bool.eq_iff_iff, startsWith_iff, startsWith_iff]
  constructor
  · rintro ⟨t, ht⟩
    obtain ⟨u, hu, hrest⟩ | ⟨u, hu, -⟩ := append_eq_append_iff.mp ht
    · cases u with
      | nil => exact ⟨[], by rw [hu, append_nil, append_nil]⟩
      | cons b u =>
        -- The head would go on behind the word, with a byte that ends words.
        have hb : b ∈ wordEnd := h.ends b (by rw [hrest]; rfl)
        exact absurd hb (hhead b (by rw [hu]; simp))
    · exact ⟨u, hu⟩
  · rintro ⟨t, ht⟩
    exact ⟨t ++ word.rest, by rw [HostWord.cursor, ht, append_assoc]⟩

end Words

/-! ### Entries in memory -/

/-- The memory of the list, and the pointers to it. -/
structure HostList where
  /-- The entries that were allocated. -/
  nodes : ℕ → Option HostEntry := fun _ => none
  /-- `next` of the entries. -/
  next : ℕ → Option ℕ := fun _ => none
  /-- The first address that is not in use. -/
  fresh : ℕ := 0
  /-- `*ret_list` -/
  head : Option ℕ := none
  /-- `*ret_prev` -/
  prev : Option ℕ := none
  /-- `*ret_nhosts` -/
  nhosts : ℕ := 0

/-- An entry is allocated, linked into the list and counted. -/
def HostList.add (l : HostList) (entry : HostEntry) : HostList where
  nodes := Function.update l.nodes l.fresh (some entry)
  next :=
    match l.prev with
    | some p => Function.update (Function.update l.next p (some l.fresh)) l.fresh none
    | none => Function.update l.next l.fresh none
  fresh := l.fresh + 1
  head := match l.prev with
    | some _ => l.head
    | none => some l.fresh
  prev := some l.fresh
  nhosts := l.nhosts + 1

/-- What the parser is given by the C library. -/
structure HostsEnv where
  /-- What `rand` returns, call by call. -/
  rand : ℕ → ℤ
  /-- `qsort`, of pairs of an address and a number, by `dcc_compare_container`. -/
  qsort : List (ℕ × ℤ) → List (ℕ × ℤ)
  qsort_perm : ∀ c, (qsort c).Perm c

/-- `dcc_randomize_host_list`. If the list were shorter than it is said to be, the null
pointer would be followed. -/
def dccRandomizeHostList (env : HostsEnv) (l : HostList) : Option HostList :=
  match follow l.next l.nhosts l.head with
  | none => none
  | some hosts =>
    let c := (env.qsort (hosts.zipIdx.map fun (host, i) => (host, env.rand i))).map Prod.fst
    some { l with next := relink l.next c, head := c.head? }

/-! ### The loop -/

/-- What the loop of `dcc_parse_hosts` changes. -/
structure HostsState where
  /-- The list. -/
  list : HostList := {}
  /-- `flag_randomize` -/
  randomize : Bool := false
  /-- `n_slots` of `dcc_hostdef_local` -/
  localSlots : ℤ := 4
  /-- `n_slots` of `dcc_hostdef_local_cpp` -/
  localSlotsCpp : ℤ := 8

/-- The slots that a keyword sets, with those there are, if the word starts with it and no
bad multiplier follows. -/
def keywordSlots (keyword : CString) (word : HostWord) (nSlots : ℤ) : Option ℤ :=
  if startsWith keyword word.cursor then
    match dccParseMultiplier (word.cursor.drop keyword.length) nSlots with
    | .ok (n, _) => some n
    | .error _ => none
  else none

/-- A word of the list, in the loop of `dcc_parse_hosts`. A keyword with a bad multiplier is
tried as the next keyword, and then as a host. -/
def parseWord (st : HostsState) (word : HostWord) : Except ExitCode HostsState :=
  if startsWith (lit "--randomize") word.cursor then .ok { st with randomize := true }
  else match keywordSlots (lit "--localslots_cpp") word st.localSlotsCpp with
    | some n => .ok { st with localSlotsCpp := n }
    | none =>
      match keywordSlots (lit "--localslots") word st.localSlots with
      | some n => .ok { st with localSlots := n }
      | none =>
        match parseHost word with
        | .ok entry => .ok { st with list := st.list.add entry }
        | .error ret => .error ret

/-- `dcc_parse_hosts`, from an empty list; there is no result where the null pointer would
be followed. -/
def dccParseHosts (env : HostsEnv) (text : CString) : Option (Except ExitCode HostsState) :=
  match (hostWords text).foldlM parseWord {} with
  | .error ret => some (.error ret)
  | .ok st =>
    if st.list.nhosts = 0 then some (.error .badHostspec)
    else if st.randomize then
      match dccRandomizeHostList env st.list with
      | none => none
      | some list => some (.ok { st with list })
    else some (.ok st)

/-- The numbers of a pair are compared. -/
def byNumber (i j : ℕ × ℤ) : Prop := i.2 ≤ j.2
deriving Decidable

/-- A machine whose numbers put everything in reverse. -/
def HostsEnv.reversing : HostsEnv where
  rand i := -i
  qsort := List.insertionSort byNumber
  qsort_perm := perm_insertionSort byNumber

/-- Does the list parse, with this result? A test, to be evaluated. -/
def parsesTo (env : HostsEnv) (text : CString) (p : HostsState → Bool) : Bool :=
  match dccParseHosts env text with
  | some (.ok st) => p st
  | _ => false

theorem exists_of_parsesTo {env : HostsEnv} {text : CString} {p : HostsState → Bool}
    (h : parsesTo env text p = true) :
    ∃ st, dccParseHosts env text = some (.ok st) ∧ p st = true := by
  unfold parsesTo at h
  split at h
  · case h_1 st hst => exact ⟨st, hst, h⟩
  · cases h

/-! ### What is in memory -/

section Memory

variable {l : HostList} {entries : List HostEntry}

/-- From the head on, these entries are met, and then the null pointer. -/
def HostList.Holds (l : HostList) (entries : List HostEntry) : Prop :=
  ∃ hosts, Chain l.next l.head hosts ∧ hosts.map l.nodes = entries.map some

/-- The list while it is built: `prev` points to its last entry, and the entries are
counted. -/
def HostList.Built (l : HostList) (entries : List HostEntry) : Prop :=
  ∃ hosts, Chain l.next l.head hosts ∧ hosts.map l.nodes = entries.map some ∧
    l.prev = hosts.getLast? ∧ l.nhosts = hosts.length ∧ ∀ host ∈ hosts, host < l.fresh

theorem HostList.built_empty : HostList.Built {} [] :=
  ⟨[], rfl, rfl, rfl, rfl, fun _ h => nomatch h⟩

theorem HostList.Built.holds (h : l.Built entries) : l.Holds entries := by
  obtain ⟨hosts, hchain, hnodes, -⟩ := h
  exact ⟨hosts, hchain, hnodes⟩

/-- A memory holds one list. -/
theorem HostList.Holds.unique {l : HostList} {xs ys : List HostEntry} (hx : l.Holds xs)
    (hy : l.Holds ys) : xs = ys := by
  obtain ⟨hosts, hchain, hnodes⟩ := hx
  obtain ⟨hosts', hchain', hnodes'⟩ := hy
  obtain rfl := hchain.unique hchain'
  exact map_injective_iff.mpr (Option.some_injective _) (hnodes.symm.trans hnodes')

theorem HostList.Built.nhosts_eq (h : l.Built entries) : l.nhosts = entries.length := by
  obtain ⟨hosts, -, hnodes, -, hcount, -⟩ := h
  have hlen := congrArg List.length hnodes
  rw [length_map, length_map] at hlen
  exact hcount.trans hlen

/-- **An entry is put behind the last one.** -/
theorem HostList.Built.add (h : l.Built entries) (entry : HostEntry) :
    (l.add entry).Built (entries ++ [entry]) := by
  obtain ⟨hosts, hchain, hnodes, hprev, hcount, hfresh⟩ := h
  have hkept : ∀ host ∈ hosts, (l.add entry).nodes host = l.nodes host := by
    intro host hhost
    exact update_of_ne (hfresh host hhost).ne _ _
  refine ⟨hosts ++ [l.fresh], ?_, ?_, ?_, ?_, ?_⟩
  · rcases eq_nil_or_concat hosts with rfl | ⟨init, last, rfl⟩
    · have hnone : l.prev = none := hprev
      simp only [HostList.add, hnone, nil_append]
      exact ⟨rfl, update_self _ _ _⟩
    · rw [concat_eq_append] at *
      have hlast : l.prev = some last := hprev.trans getLast?_concat
      simp only [HostList.add, hlast]
      have hne : last ≠ l.fresh := (hfresh last (by simp)).ne
      have hinit : last ∉ init := by
        intro hmem
        exact (nodup_append.mp hchain.nodup).2.2 last hmem last (by simp) rfl
      rw [append_assoc]
      refine hchain.snoc ?_ (update_self _ _ _) fun host hhost => ?_
      · rw [update_of_ne hne, update_self]
      · have hhost' : host ≠ last := fun heq => hinit (heq ▸ hhost)
        have hfresh' : host ≠ l.fresh := (hfresh host (mem_append_left _ hhost)).ne
        rw [update_of_ne hfresh', update_of_ne hhost']
  · rw [map_append, map_append, map_congr_left hkept, hnodes]
    simp [HostList.add]
  · simp [HostList.add]
  · simp [HostList.add, hcount]
  · intro host hhost
    rcases mem_append.mp hhost with hhost | hhost
    · exact Nat.lt_succ_of_lt (hfresh host hhost)
    · obtain rfl := mem_singleton.mp hhost
      exact Nat.lt_succ_self _

/-- A list of some things, in another order. -/
theorem exists_perm_of_map_some {α : Type} {xs : List (Option α)} {as : List α}
    (h : xs.Perm (as.map some)) : ∃ bs : List α, xs = bs.map some ∧ bs.Perm as := by
  have hxs : xs ∈ Set.range (map some) := by
    rw [Set.range_list_map]
    intro x hx
    obtain ⟨a, -, rfl⟩ := mem_map.mp (h.mem_iff.mp hx)
    exact ⟨a, rfl⟩
  obtain ⟨bs, rfl⟩ := hxs
  exact ⟨bs, rfl, (map_perm_map_iff (Option.some_injective α)).mp h⟩

/-- **The order is changed, and nothing else**: the null pointer is not followed, and no
entry is lost or met twice. -/
theorem HostList.Built.randomize (env : HostsEnv) (h : l.Built entries) :
    ∃ l' order, dccRandomizeHostList env l = some l' ∧ l'.Holds order ∧ order.Perm entries ∧
      l'.nhosts = l.nhosts := by
  obtain ⟨hosts, hchain, hnodes, -, hcount, -⟩ := h
  have hfollow : follow l.next l.nhosts l.head = some hosts := hcount ▸ hchain.follow
  let c := (env.qsort (hosts.zipIdx.map fun (host, i) => (host, env.rand i))).map Prod.fst
  have hperm : c.Perm hosts := by
    have hfst : (hosts.zipIdx.map fun (host, i) => (host, env.rand i)).map Prod.fst = hosts := by
      rw [map_map]
      exact zipIdx_map_fst 0 hosts
    exact hfst ▸ (env.qsort_perm _).map Prod.fst
  obtain ⟨order, horder, hentries⟩ := exists_perm_of_map_some (hnodes ▸ hperm.map l.nodes)
  refine ⟨{ l with next := relink l.next c, head := c.head? }, order, ?_, ?_, hentries, rfl⟩
  · rw [dccRandomizeHostList, hfollow]
  · exact ⟨c, chain_relink l.next (hperm.nodup_iff.mpr hchain.nodup), horder⟩

end Memory

/-! ### What the loop does -/

section Loop

variable {env : HostsEnv} {text : CString} {st st' : HostsState} {word : HostWord}

/-- The word changes a setting, and is not tried as a host. -/
def HostWord.isKeyword (word : HostWord) : Bool :=
  startsWith (lit "--randomize") word.cursor ||
    (keywordSlots (lit "--localslots_cpp") word 0).isSome ||
    (keywordSlots (lit "--localslots") word 0).isSome

/-- The words that are tried as hosts. -/
def triedWords (text : CString) : List HostWord :=
  (hostWords text).filter fun word => !word.isKeyword

/-- Does a word ask for another order? -/
def asksRandomize (text : CString) : Bool :=
  (hostWords text).any fun word => startsWith (lit "--randomize") word.cursor

/-- A keyword is not taken if the word does not start with it, or goes on with 0 slots. -/
theorem keywordSlots_eq_none_iff {keyword : CString} {nSlots : ℤ} :
    keywordSlots keyword word nSlots = none ↔
      ∀ t, word.cursor = keyword ++ t → ZeroMultiplier t := by
  unfold keywordSlots
  split
  · case isTrue hstart =>
    obtain ⟨t, ht⟩ := startsWith_iff.mp hstart
    have hdrop : word.cursor.drop keyword.length = t := by rw [ht, drop_left]
    rw [hdrop]
    constructor
    · intro hnone t' ht'
      obtain rfl := append_cancel_left (ht.symm.trans ht')
      split at hnone
      · cases hnone
      · case h_2 ret herror => exact (dccParseMultiplier_eq_error_iff.mp herror).2
    · intro hzero
      rw [dccParseMultiplier_eq_error_iff.mpr ⟨rfl, hzero t ht⟩]
  · case isFalse hstart =>
    refine iff_of_true rfl fun t ht => absurd (startsWith_iff.mpr ⟨t, ht⟩) hstart

/-- Whether a keyword is taken does not depend on the slots there are. -/
theorem keywordSlots_isSome (keyword : CString) (word : HostWord) (nSlots : ℤ) :
    (keywordSlots keyword word nSlots).isSome = (keywordSlots keyword word 0).isSome := by
  rw [Bool.eq_iff_iff, ← not_iff_not, Option.not_isSome_iff_eq_none, Option.not_isSome_iff_eq_none,
    keywordSlots_eq_none_iff, keywordSlots_eq_none_iff]

/-- A word that is no keyword is read as a host. -/
theorem parseWord_of_not_keyword (st : HostsState) (h : word.isKeyword = false) :
    parseWord st word =
      (parseHost word).map fun entry => { st with list := st.list.add entry } := by
  have hcpp := keywordSlots_isSome (lit "--localslots_cpp") word st.localSlotsCpp
  have hloc := keywordSlots_isSome (lit "--localslots") word st.localSlots
  rw [HostWord.isKeyword, ← hcpp, ← hloc, Bool.or_eq_false_iff, Bool.or_eq_false_iff,
    Option.isSome_eq_false_iff, Option.isSome_eq_false_iff, Option.isNone_iff_eq_none,
    Option.isNone_iff_eq_none] at h
  obtain ⟨⟨hrandom, hcpp⟩, hloc⟩ := h
  rw [parseWord, hrandom, if_neg Bool.false_ne_true, hcpp, hloc]
  cases parseHost word <;> rfl

/-- **What a word does**: it is a keyword, or an entry is added for it. -/
theorem parseWord_cases (h : parseWord st word = .ok st') :
    (word.isKeyword = true ∧ st'.list = st.list ∧
        st'.randomize = (st.randomize || startsWith (lit "--randomize") word.cursor)) ∨
      (word.isKeyword = false ∧ startsWith (lit "--randomize") word.cursor = false ∧
        ∃ entry, parseHost word = .ok entry ∧ st' = { st with list := st.list.add entry }) := by
  cases hkey : word.isKeyword with
  | false =>
    rw [parseWord_of_not_keyword st hkey] at h
    refine Or.inr ⟨rfl, ?_, ?_⟩
    · rw [HostWord.isKeyword, Bool.or_eq_false_iff, Bool.or_eq_false_iff] at hkey
      exact hkey.1.1
    · cases hentry : parseHost word with
      | error ret =>
        rw [hentry] at h
        cases h
      | ok entry =>
        rw [hentry] at h
        exact ⟨entry, rfl, (Except.ok.inj h).symm⟩
  | true =>
    refine Or.inl ⟨rfl, ?_⟩
    unfold parseWord at h
    split at h
    · case isTrue hrandom =>
      obtain rfl := Except.ok.inj h
      simp [hrandom]
    · case isFalse hrandom =>
      rw [Bool.not_eq_true] at hrandom
      split at h
      · obtain rfl := Except.ok.inj h
        simp [hrandom]
      · case h_2 hcpp =>
        split at h
        · obtain rfl := Except.ok.inj h
          simp [hrandom]
        · case h_2 hloc =>
          have hcpp' := keywordSlots_isSome (lit "--localslots_cpp") word st.localSlotsCpp
          have hloc' := keywordSlots_isSome (lit "--localslots") word st.localSlots
          rw [HostWord.isKeyword, ← hcpp', ← hloc', hrandom, hcpp, hloc] at hkey
          cases hkey

/-- **The loop**: for the words that are tried as hosts there are entries, in order. -/
theorem foldlM_parseWord {words : List HostWord} {entries : List HostEntry}
    (h : words.foldlM parseWord st = .ok st') (hbuilt : st.list.Built entries) :
    ∃ more, List.Forall₂ (fun word entry => parseHost word = .ok entry)
        (words.filter fun word => !word.isKeyword) more ∧
      st'.list.Built (entries ++ more) ∧
      st'.randomize = (st.randomize || words.any fun word =>
        startsWith (lit "--randomize") word.cursor) := by
  induction words generalizing st entries with
  | nil =>
    obtain rfl := Except.ok.inj h
    exact ⟨[], .nil, by rwa [append_nil], by simp⟩
  | cons word words ih =>
    rw [foldlM_cons] at h
    obtain ⟨st₁, hword, hrest⟩ := Except.bind_eq_ok_iff.mp h
    obtain ⟨hkey, hlist, hrandom⟩ | ⟨hkey, hrandom, entry, hentry, rfl⟩ := parseWord_cases hword
    · obtain ⟨more, hmore, hbuilt', hflag⟩ := ih hrest (hlist ▸ hbuilt)
      refine ⟨more, by rwa [filter_cons_of_neg (by simp [hkey])], hbuilt', ?_⟩
      rw [hflag, hrandom, any_cons, Bool.or_assoc]
    · obtain ⟨more, hmore, hbuilt', hflag⟩ := ih hrest (hbuilt.add entry)
      refine ⟨entry :: more, ?_, ?_, ?_⟩
      · rw [filter_cons_of_pos (by simp [hkey])]
        exact .cons hentry hmore
      · rwa [append_assoc] at hbuilt'
      · rw [hflag, any_cons, hrandom, Bool.false_or]

/-- **The list that is returned**: there is an entry for each word that was tried as a
host, in the order of the words unless another order was asked for. Besides the list, what is
returned is what the loop over the words ends with. -/
theorem dccParseHosts_ok (h : dccParseHosts env text = some (.ok st)) :
    ∃ entries order,
      List.Forall₂ (fun word entry => parseHost word = .ok entry) (triedWords text) entries ∧
      order.Perm entries ∧ (asksRandomize text = false → order = entries) ∧
      st.list.Holds order ∧ st.list.nhosts = entries.length ∧
      ∃ list, (hostWords text).foldlM parseWord {} = .ok { st with list } := by
  unfold dccParseHosts at h
  split at h
  · cases h
  · case h_2 st₁ hfold =>
    obtain ⟨entries, hentries, hbuilt, hflag⟩ := foldlM_parseWord hfold HostList.built_empty
    rw [nil_append] at hbuilt
    split at h
    · cases h
    · split at h
      · case isTrue hrandom =>
        obtain ⟨l', order, hrun, hholds, hperm, hcount⟩ := hbuilt.randomize env
        rw [hrun] at h
        obtain rfl := Except.ok.inj (Option.some.inj h)
        refine ⟨entries, order, hentries, hperm, fun hno => ?_, hholds, ?_, st₁.list, hfold⟩
        · have hyes : asksRandomize text = true := hflag.symm.trans hrandom
          exact absurd (hno.symm.trans hyes) (by decide)
        · exact hcount.trans hbuilt.nhosts_eq
      · obtain rfl := Except.ok.inj (Option.some.inj h)
        exact ⟨entries, entries, hentries, .refl _, fun _ => rfl, hbuilt.holds, hbuilt.nhosts_eq,
          st₁.list, hfold⟩

end Loop

end Distcc
