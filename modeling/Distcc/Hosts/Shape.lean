import Distcc.Hosts.Scan

/-!
# The shape of the host list

When `dcc_parse_hosts` succeeds, what it returns is a list that ends and has no cycle, and
as many entries as are counted; no entry is lost when the order is changed.

One thing may be wrong with it. The words that start with `--localslots` should not have
an entry. Where 0 slots are asked for, such a word is not taken for what it is, and is
tried as a host: `--localslots=0` is then the name of one. This is the only way to a
wrong entry (`dccParseHosts_shape_iff`).
-/

namespace Distcc

open CString List

/-- The word is not a keyword. -/
def HostWord.namesHost (word : HostWord) : Bool :=
  !startsWith (lit "--randomize") word.text && !startsWith (lit "--localslots") word.text

/-- The words of a list that are hosts. -/
def hostTokens (text : CString) : List HostWord := (hostWords text).filter HostWord.namesHost

/-- `--localslots`, with what `atoi` takes for 0 slots. -/
def HostWord.ZeroSlots (word : HostWord) : Prop :=
  ∃ t, word.cursor = lit "--localslots" ++ t ∧ ZeroMultiplier t

/-- **A list with an entry for each of these words**, and no others. It ends in a null
pointer and has no cycle, its entries are counted, and they are in the order of the words
unless another order was asked for. -/
def ShapedBy (text : CString) (list : HostList) (words : List HostWord) : Prop :=
  ∃ (hosts : List ℕ) (entries order : List HostEntry),
    Chain list.next list.head hosts ∧ hosts.Nodup ∧ hosts.length = list.nhosts ∧
    hosts.map list.nodes = order.map some ∧ order.Perm entries ∧
    (asksRandomize text = false → order = entries) ∧
    List.Forall₂ (fun word entry => parseHost word = .ok entry) words entries

section Shape

variable {env : HostsEnv} {text : CString} {st : HostsState} {word : HostWord}

/-- The list that is returned has the shape of the words that were tried as hosts. -/
theorem shapedBy_triedWords (h : dccParseHosts env text = some (.ok st)) :
    ShapedBy text st.list (triedWords text) := by
  obtain ⟨entries, order, hentries, hperm, horder, ⟨hosts, hchain, hnodes⟩, hcount, -⟩ :=
    dccParseHosts_ok h
  refine ⟨hosts, entries, order, hchain, hchain.nodup, ?_, hnodes, hperm, horder, hentries⟩
  have hlen := congrArg List.length hnodes
  rw [length_map, length_map] at hlen
  rw [hlen, hperm.length_eq, hcount]

/-- The words that are not taken for keywords: hosts, and `--localslots` with 0 slots. -/
theorem isKeyword_eq_false_iff (hcut : word.Cut) :
    word.isKeyword = false ↔ word.namesHost = true ∨ word.ZeroSlots := by
  have hrandom := hcut.startsWith_cursor (lit "--randomize") (by decide)
  have hlocal := hcut.startsWith_cursor (lit "--localslots") (by decide)
  simp only [HostWord.isKeyword, HostWord.namesHost, ← hrandom, ← hlocal, Bool.or_eq_false_iff,
    Option.isSome_eq_false_iff, Option.isNone_iff_eq_none, keywordSlots_eq_none_iff,
    Bool.and_eq_true, Bool.not_eq_true']
  constructor
  · rintro ⟨⟨hno, -⟩, hzero⟩
    by_cases hstart : startsWith (lit "--localslots") word.cursor = true
    · obtain ⟨t, ht⟩ := startsWith_iff.mp hstart
      exact Or.inr ⟨t, ht, hzero t ht⟩
    · exact Or.inl ⟨hno, Bool.eq_false_iff.mpr hstart⟩
  · rintro (⟨hno, hstart⟩ | ⟨t, ht, b, s, rfl, hmark, hatoi⟩)
    · have hnone (t : CString) : word.cursor ≠ lit "--localslots" ++ t := by
        intro ht
        exact absurd (startsWith_iff.mpr ⟨t, ht⟩) (Bool.eq_false_iff.mp hstart)
      refine ⟨⟨hno, fun t ht => ?_⟩, fun t ht => absurd ht (hnone t)⟩
      exact absurd ht (hnone (lit "_cpp" ++ t))
    · refine ⟨⟨by rw [ht]; rfl, fun t' ht' => ?_⟩, fun t' ht' => ?_⟩
      -- The mark of a multiplier is not the underscore of the longer keyword.
      · have heq : b :: s = lit "_cpp" ++ t' := append_cancel_left (ht.symm.trans ht')
        obtain rfl := (List.cons.inj heq).1
        exact absurd hmark (by decide)
      · obtain rfl := append_cancel_left (ht.symm.trans ht')
        exact ⟨b, s, rfl, hmark, hatoi⟩

/-- **When the list is as it should be**: exactly if no `--localslots` asks for 0 slots. -/
theorem dccParseHosts_shape_iff (h : dccParseHosts env text = some (.ok st)) :
    ShapedBy text st.list (hostTokens text) ↔ ∀ word ∈ hostWords text, ¬word.ZeroSlots := by
  have hsplit : hostTokens text = (triedWords text).filter HostWord.namesHost := by
    rw [hostTokens, triedWords, filter_filter]
    refine filter_congr fun word hword => ?_
    cases hhost : word.namesHost with
    | false => rfl
    | true =>
      rw [(isKeyword_eq_false_iff (hostWords_cut hword).1).mpr (Or.inl hhost)]
      rfl
  constructor
  · rintro ⟨hosts, entries, order, -, -, hcount, hnodes, hperm, -, hentries⟩ word hword hzero
    -- There are as many entries as words that were tried: so all of them are hosts.
    have hlen : (hostTokens text).length = (triedWords text).length := by
      obtain ⟨tried, _, htried, -, -, -, hcount', -⟩ := dccParseHosts_ok h
      have hmap := congrArg List.length hnodes
      rw [length_map, length_map] at hmap
      rw [hentries.length_eq, htried.length_eq, ← hperm.length_eq, ← hmap, hcount, hcount']
    rw [hsplit, length_filter_eq_length_iff] at hlen
    have hcut := (hostWords_cut hword).1
    have hkey : word.isKeyword = false := (isKeyword_eq_false_iff hcut).mpr (Or.inr hzero)
    have hhost := hlen word (mem_filter.mpr ⟨hword, by rw [hkey]; rfl⟩)
    obtain ⟨t, ht, -⟩ := hzero
    have hstart : startsWith (lit "--localslots") word.text = true := by
      rw [← hcut.startsWith_cursor _ (by decide)]
      exact startsWith_iff.mpr ⟨t, ht⟩
    rw [HostWord.namesHost, hstart, Bool.not_true, Bool.and_false] at hhost
    cases hhost
  · intro hnone
    have hall : ∀ word ∈ triedWords text, word.namesHost = true := by
      intro word hword
      obtain ⟨hword, hkey⟩ := mem_filter.mp hword
      have hhost := (isKeyword_eq_false_iff (hostWords_cut hword).1).mp (by simpa using hkey)
      exact hhost.resolve_right (hnone word hword)
    rw [hsplit, filter_eq_self.mpr hall]
    exact shapedBy_triedWords h

end Shape

/-! ### Two lists -/

/-- Two hosts, in reverse. -/
theorem dccParseHosts_shape_reversed :
    ∃ st, dccParseHosts .reversing (lit "a --randomize b") = some (.ok st) ∧
      st.list.head = some 1 ∧
      ShapedBy (lit "a --randomize b") st.list (hostTokens (lit "a --randomize b")) := by
  have hparses : parsesTo .reversing (lit "a --randomize b")
      (fun st => st.list.head = some 1) = true := by
    decide +kernel
  obtain ⟨st, hst, hhead⟩ := exists_of_parsesTo hparses
  refine ⟨st, hst, of_decide_eq_true hhead, (dccParseHosts_shape_iff hst).mpr ?_⟩
  have hnone : ∀ word ∈ hostWords (lit "a --randomize b"),
      startsWith (lit "--localslots") word.cursor = false := by
    decide +kernel
  rintro word hword ⟨t, ht, -⟩
  exact absurd (startsWith_iff.mpr ⟨t, ht⟩) (Bool.eq_false_iff.mp (hnone word hword))

/-- **A keyword is taken for a host**: there are no hosts in the text, and one in the list. -/
theorem dccParseHosts_shape_localslots :
    ∃ st, dccParseHosts .reversing (lit "--localslots=0") = some (.ok st) ∧
      st.list.nhosts = 1 ∧ hostTokens (lit "--localslots=0") = [] ∧
      ¬ShapedBy (lit "--localslots=0") st.list (hostTokens (lit "--localslots=0")) := by
  have hparses : parsesTo .reversing (lit "--localslots=0") (fun st => st.list.nhosts = 1) =
      true := by
    decide +kernel
  have hnone : hostTokens (lit "--localslots=0") = [] := by decide +kernel
  obtain ⟨st, hst, hcount⟩ := exists_of_parsesTo hparses
  replace hcount : st.list.nhosts = 1 := of_decide_eq_true hcount
  refine ⟨st, hst, hcount, hnone, ?_⟩
  rintro ⟨hosts, entries, order, -, -, hlen, hnodes, hperm, -, hentries⟩
  rw [hnone, List.forall₂_nil_left_iff] at hentries
  subst hentries
  obtain rfl := hperm.eq_nil
  obtain rfl := map_eq_nil_iff.mp hnodes
  exact absurd (hlen.trans hcount) (by decide)

end Distcc
