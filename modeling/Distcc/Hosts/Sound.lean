import Distcc.Hosts.Grammar

/-!
# What is taken for a host

The parser of `src/hosts.c` reads more than the grammar has. A word is cut out of the list
at one place, and read at others, by functions that do not know where it ends: they stop
at the first byte they have no use for, whether or not it is in the word, and nobody looks
at what is left.

So a list is read soundly only under conditions. Each of its words must be written by the
grammar, and must not run into a comment with a field that a `#` does not end: exactly
then each entry comes from one word, and all of it (`dccParseHosts_sound_iff`).
-/

namespace Distcc

open CString List

/-! ### Words and entries -/

/-- The word is as long as can be: before and behind it there is nothing, or a byte that
ends words. -/
def IsRun (text : CString) (word : HostWord) : Prop :=
  word.Cut ∧ ∃ before, text = before ++ word.cursor ∧ ∀ b ∈ before.getLast?, b ∈ wordEnd

/-- The entry is what the whole word stands for. -/
def ReadWhole (word : HostWord) (entry : HostEntry) : Prop :=
  ∃ d : HostDef, d.WellFormed ∧ d.text = word.text ∧ entry = d.entry

/-- **A list that was read soundly**: its entries come from maximal runs, all of which were
read by the grammar, and they have no field from elsewhere. -/
def SoundlyParsed (text : CString) (list : HostList) : Prop :=
  ∃ entries order, list.Holds order ∧ order.Perm entries ∧
    List.Forall₂ (fun word entry => IsRun text word ∧ ReadWhole word entry) (triedWords text)
      entries

/-- A word that is a run and is written by the grammar. A comment may follow directly only
if the word does not end in a name or a command. -/
def WellWritten (text : CString) (word : HostWord) : Prop :=
  IsRun text word ∧ ∃ d : HostDef, d.WellFormed ∧ d.text = word.text ∧
    (word.rest.head? = some '#'.toUInt8 → ¬d.EndsOpen)

section Sound

variable {env : HostsEnv} {text rest : CString} {st : HostsState} {word : HostWord}
  {entry : HostEntry} {d : HostDef}

/-- In the entry of a definition there is no `#`. -/
theorem HostDef.WellFormed.no_hash (h : d.WellFormed) :
    '#'.toUInt8 ∉ d.entry.hostname ∧ ∀ c ∈ d.entry.sshCommand, '#'.toUInt8 ∉ c := by
  cases d with
  | localhost slots =>
    have hname : '#'.toUInt8 ∉ lit "localhost" := by decide
    exact ⟨hname, fun _ h => nomatch h⟩
  | ssh user host slots command opts =>
    refine ⟨h.2.1.not_mem (by decide), fun c hc hhash => ?_⟩
    exact ((h.2.2.2.1 c hc).2 _ hhash).2 (by decide)
  | tcp oldStyle host port slots opts => exact ⟨h.1.not_mem (by decide), fun _ h => nomatch h⟩

/-- A part that a `#` does not end runs into the comment. -/
theorem dccDupPart_hash {sep s t : CString} (hs : ∀ b ∈ s, b ∉ sep) (hsep : '#'.toUInt8 ∉ sep)
    (ht : t.head? = some '#'.toUInt8) :
    ∃ part u, dccDupPart (s ++ t) sep = (some part, u) ∧ '#'.toUInt8 ∈ part := by
  cases t with
  | nil => cases ht
  | cons b t =>
    obtain rfl : b = '#'.toUInt8 := Option.some.inj ht
    have hfree : ∀ b ∈ s, decide (b ∉ sep) = true := fun b hb => decide_eq_true (hs b hb)
    have htake : (s ++ '#'.toUInt8 :: t).takeWhile (· ∉ sep) =
        s ++ '#'.toUInt8 :: t.takeWhile (· ∉ sep) := by
      rw [takeWhile_append_of_pos hfree, takeWhile_free_cons hsep]
    refine ⟨s ++ '#'.toUInt8 :: t.takeWhile (· ∉ sep), (s ++ '#'.toUInt8 :: t).dropWhile (· ∉ sep),
      ?_, mem_append_right s mem_cons_self⟩
    simp only [dccDupPart, htake]
    rw [if_neg (by simp)]

/-- **A word that runs into a comment**: the entry has a part of it. -/
theorem hash_of_endsOpen (hd : d.WellFormed) (hopen : d.EndsOpen)
    (hrest : StartsIn wordEnd rest) (hhash : rest.head? = some '#'.toUInt8)
    (h : parseHost ⟨d.text, rest⟩ = .ok entry) :
    '#'.toUInt8 ∈ entry.hostname ∨ ∃ c ∈ entry.sshCommand, '#'.toUInt8 ∈ c := by
  have hcut := hd.cut hrest
  cases d with
  | localhost slots => exact hopen.elim
  | ssh user host slots command opts =>
    obtain ⟨huser, hhost, hslots, hcommand, -, hstart⟩ := hd
    obtain ⟨rfl, hopen⟩ := hopen
    have hat : '@'.toUInt8 ∈ (HostDef.ssh user host slots command []).text :=
      mem_append_right _ mem_cons_self
    rw [parseHost, isLocalhost_of_startsPlainly hcut hstart, if_neg Bool.false_ne_true,
      if_pos hat] at h
    obtain ⟨s, t, hname, hmult, hcmd⟩ := dccParseSshHost_ok h
    have hcursor : HostWord.cursor ⟨(HostDef.ssh user host slots command []).text, rest⟩ =
        user.getD [] ++ '@'.toUInt8 :: (host ++ (markedText '/'.toUInt8 slots ++
          (markedText ':'.toUInt8 command ++ rest))) := by
      simp only [HostWord.cursor, HostDef.text, optionsText, append_assoc, cons_append,
        flatMap_nil, nil_append]
    rw [hcursor] at hname
    cases command with
    | some c =>
      -- The command runs into the comment.
      have hafter : StartsIn slotsNext (markedText ':'.toUInt8 (some c) ++ rest) := by
        rintro b ⟨⟩
        exact mem_cons_self
      have hstop : StartsIn nameEnd
          (markedText '/'.toUInt8 slots ++ (markedText ':'.toUInt8 (some c) ++ rest)) := by
        refine (startsIn_marked hafter).without_hash (by decide) fun hhead => ?_
        exact absurd (head_of_marked (by decide) (head_of_marked (by decide) hhead).2).1
          (Option.some_ne_none c)
      rw [sshName_fields huser hhost hstop] at hname
      obtain ⟨-, -, rfl⟩ : user = entry.user ∧ host = entry.hostname ∧ _ = s := by
        simpa using hname
      rw [dccParseMultiplier_marked 4 hslots hafter] at hmult
      obtain ⟨-, rfl⟩ : _ = entry.nSlots ∧ _ = t := by simpa using hmult
      have hc := hcommand c rfl
      obtain ⟨part, u, hpart, hmem⟩ := dccDupPart_hash hc.free_commandEnd (by decide) hhash
      refine Or.inr ⟨part, ?_, hmem⟩
      rw [hcmd]
      change (sshCommand (':'.toUInt8 :: (c ++ rest))).1 = some part
      rw [sshCommand, if_pos rfl, hpart]
    | none =>
      -- The name runs into the comment.
      obtain rfl : slots = none := hopen.resolve_left (by simp)
      change sshName (user.getD [] ++ '@'.toUInt8 :: (host ++ rest)) = _ at hname
      obtain ⟨part, u, hpart, hmem⟩ := dccDupPart_hash hhost.free_nameEnd (by decide) hhash
      rw [sshName_user huser, hpart] at hname
      obtain ⟨-, rfl, -⟩ : user = entry.user ∧ part = entry.hostname ∧ u = s := by
        simpa using hname
      exact Or.inl hmem
  | tcp oldStyle host port slots opts =>
    obtain ⟨hhost, hport, hslots, -, hstart⟩ := hd
    obtain ⟨rfl, rfl, rfl⟩ := hopen
    have htext : (HostDef.tcp oldStyle host none none []).text = host := by
      cases oldStyle <;> exact append_nil host
    rw [parseHost, isLocalhost_of_startsPlainly hcut hstart, if_neg Bool.false_ne_true,
      if_neg (at_not_mem_tcp hhost hport hslots), HostWord.cursor, htext] at h
    obtain ⟨s, n, t, u, v, hname, -⟩ := dccParseTcpHost_ok h
    obtain ⟨part, w, hpart, hmem⟩ := dccDupPart_hash hhost.free_nameEnd (by decide) hhash
    rw [tcpName_plain hhost, hpart] at hname
    obtain ⟨rfl, -⟩ : part = entry.hostname ∧ w = s := by simpa using hname
    exact Or.inl hmem

/-- Soundly read, a word that was tried gives what a definition stands for. -/
theorem SoundlyParsed.of_parseHost (hsound : SoundlyParsed text st.list)
    (h : dccParseHosts env text = some (.ok st)) (hword : word ∈ triedWords text)
    (hentry : parseHost word = .ok entry) :
    ∃ d : HostDef, d.WellFormed ∧ entry = d.entry := by
  obtain ⟨entries, order, hholds, hperm, hread⟩ := hsound
  obtain ⟨tried, order', htried, hperm', -, hholds', -⟩ := dccParseHosts_ok h
  obtain rfl := hholds.unique hholds'
  have hmem : entry ∈ tried := by
    obtain ⟨entry', hentry', hparse⟩ := forall₂_exists_right htried hword
    obtain rfl : entry = entry' := Except.ok.inj (hentry.symm.trans hparse)
    exact hentry'
  obtain ⟨word', -, -, d, hd, -, rfl⟩ :=
    forall₂_exists_left hread (hperm.mem_iff.mp (hperm'.mem_iff.mpr hmem))
  exact ⟨d, hd, rfl⟩

/-- **When a list is read soundly**: exactly if its words are written by the grammar and do
not run into comments. -/
theorem dccParseHosts_sound_iff (h : dccParseHosts env text = some (.ok st)) :
    SoundlyParsed text st.list ↔ ∀ word ∈ triedWords text, WellWritten text word := by
  constructor
  · intro hsound word hword
    obtain ⟨entries, order, hholds, hperm, hread⟩ := id hsound
    obtain ⟨_, -, hrun, d, hd, hdtext, -⟩ := forall₂_exists_right hread hword
    refine ⟨hrun, d, hd, hdtext, fun hhash hopen => ?_⟩
    obtain ⟨tried, _, htried, -⟩ := dccParseHosts_ok h
    obtain ⟨entry, -, hentry⟩ := forall₂_exists_right htried hword
    obtain ⟨d', hd', rfl⟩ := hsound.of_parseHost h hword hentry
    obtain ⟨wtext, wrest⟩ := word
    obtain rfl : d.text = wtext := hdtext
    obtain ⟨hname, hcommand⟩ := hd'.no_hash
    obtain hmem | ⟨c, hc, hmem⟩ := hash_of_endsOpen hd hopen hrun.1.ends hhash hentry
    · exact hname hmem
    · exact hcommand c hc hmem
  · intro hwritten
    obtain ⟨tried, order, htried, hperm, -, hholds, -⟩ := dccParseHosts_ok h
    refine ⟨tried, order, hholds, hperm, ?_⟩
    obtain ⟨hlen, hparses⟩ := List.forall₂_iff_zip.mp htried
    refine List.forall₂_iff_zip.mpr ⟨hlen, fun {word entry} hmem => ?_⟩
    have hparse := hparses hmem
    obtain ⟨hrun, d, hd, hdtext, hopen⟩ := hwritten word (of_mem_zip hmem).1
    refine ⟨hrun, d, hd, hdtext, ?_⟩
    obtain ⟨wtext, wrest⟩ := word
    obtain rfl : d.text = wtext := hdtext
    obtain hok | ⟨-, herror⟩ := parseHost_text hd ⟨hrun.1.ends, hopen⟩
    · exact Except.ok.inj (hparse.symm.trans hok)
    · cases hparse.symm.trans herror

end Sound

/-! ### Two lists -/

/-- Two hosts, with a comment directly behind the slots of the second one. -/
theorem dccParseHosts_sound_commented :
    ∃ st, dccParseHosts .reversing (lit "h/3 localhost/2#c") = some (.ok st) ∧
      SoundlyParsed (lit "h/3 localhost/2#c") st.list := by
  have hparses : parsesTo .reversing (lit "h/3 localhost/2#c") (fun _ => true) = true := by
    decide +kernel
  obtain ⟨st, hst, -⟩ := exists_of_parsesTo hparses
  refine ⟨st, hst, (dccParseHosts_sound_iff hst).mpr ?_⟩
  have hwords : triedWords (lit "h/3 localhost/2#c") =
      [⟨lit "h/3", lit " localhost/2#c"⟩, ⟨lit "localhost/2", lit "#c"⟩] := by decide +kernel
  rw [hwords, forall_mem_cons, forall_mem_singleton]
  constructor
  · refine ⟨⟨⟨by decide, by decide, by decide⟩, [], by decide, by decide⟩, ?_⟩
    exact ⟨.tcp true (lit "h") none (some (lit "3")) [], by decide, by decide, fun h => nomatch h⟩
  · refine ⟨⟨⟨by decide, by decide, by decide⟩, lit "h/3 ", by decide, by decide⟩, ?_⟩
    exact ⟨.localhost (some (lit "2")), by decide, by decide, fun _ h => h⟩

/-- **A comment is read as part of a name**: the host of `a#c` is called so. -/
theorem dccParseHosts_reads_comment :
    ∃ st, dccParseHosts .reversing (lit "a#c") = some (.ok st) ∧
      ¬SoundlyParsed (lit "a#c") st.list := by
  have hparses : parsesTo .reversing (lit "a#c") (fun _ => true) = true := by decide +kernel
  obtain ⟨st, hst, -⟩ := exists_of_parsesTo hparses
  refine ⟨st, hst, fun hsound => ?_⟩
  have hword : (⟨lit "a", lit "#c"⟩ : HostWord) ∈ triedWords (lit "a#c") := by decide +kernel
  have hentry : parseHost ⟨lit "a", lit "#c"⟩ = .ok
      { mode := .tcp, hostname := lit "a#c", port := 3632, nSlots := 4, hostdefString := lit "a",
        cppWhere := some .onClient } := by
    decide +kernel
  obtain ⟨d, hd, heq⟩ := hsound.of_parseHost hst hword hentry
  have hname : lit "a#c" = d.entry.hostname := congrArg HostEntry.hostname heq
  exact hd.no_hash.1 (hname ▸ by decide)

end Distcc
