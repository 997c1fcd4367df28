import Distcc.Hosts.Grammar

/-!
# How many slots a host has

A number of slots is written behind a `/` or a `=`, after the name of a host or its port,
and after the keywords `--localslots` and `--localslots_cpp`. It should be a positive
number, and `dcc_parse_multiplier` makes sure that it is not what `atoi` takes for 0.
That is not the same: `atoi` reads signs, it skips white space, it has nothing against
what stands behind the digits and wraps around at 32 bits. Nor is a multiplier looked for
everywhere, and where it is bad, the word that has it may still be read as something else.

All is well if every multiplier that is written is a numeral whose lower 32 bits are a
positive `int` (`IsSlotCount`), and if no word lets the parser read on behind its end
(`HostWord.Closed`). This is enough (`dccParseHosts_slots`), but not necessary, for the parser
does not count every multiplier: of `h/4294967295/3` it takes the last one, and `a=4294967295`
is the name of a host.

The proofs follow the parser with the part of the word in hand that has the multipliers:
wherever it looks for one, it stands in that part, or right behind it (`StandsIn`).
-/

namespace Distcc

open CString List

/-! ### Multipliers that are written -/

/-- What stands behind the marks, up to where the next field begins. -/
def slotTexts : CString → List CString
  | [] => []
  | b :: s =>
    if isSlotMark b then s.takeWhile (· ∉ lit "/=:,") :: slotTexts s else slotTexts s

/-- Does the word have a user and a host, with an `@` between them? -/
def HostWord.isSsh (word : HostWord) : Bool :=
  '@'.toUInt8 ∈ word.text && !startsWith (lit "--localslots") word.text &&
    !startsWith (lit "localhost/") word.text

/-- The part of a word that may have multipliers: all of it, but for the user and the command
of an ssh host, where a `/` or a `=` is one byte among others. -/
def HostWord.slotArea (word : HostWord) : CString :=
  if startsWith (lit "--randomize") word.text then []
  else if word.isSsh then (word.text.dropWhile (· ∉ lit "@")).takeWhile (· ∉ lit ":")
  else word.text

/-- **The multipliers of a word.** -/
def HostWord.multipliers (word : HostWord) : List CString := slotTexts word.slotArea

/-- A positive decimal integer. -/
def IsPositive (s : CString) : Prop := s.IsNumeral ∧ 1 ≤ ofNatDecimal s
deriving Decidable

example : HostWord.multipliers ⟨lit "u@h/3:/bin/sh,lzo", []⟩ = [lit "3"] := by decide

/-- **The slots are validated**: every host, and the two local entries, have one at least,
and no multiplier that is written is anything but a positive number. -/
def SlotsValidated (text : CString) (st : HostsState) : Prop :=
  (∃ entries, st.list.Holds entries ∧ ∀ entry ∈ entries, 1 ≤ entry.nSlots) ∧
    1 ≤ st.localSlots ∧ 1 ≤ st.localSlotsCpp ∧
    ∀ word ∈ hostWords text, ∀ n ∈ word.multipliers, IsPositive n

/-- What `atoi` makes of a numeral, before the sign of an `int` is looked at: `strtol` stops at
the greatest `long`, and the lower half of that is taken. -/
def slotsRead (n : CString) : ℕ := min (ofNatDecimal n) (2 ^ 63 - 1) % 2 ^ 32

/-- **A numeral that is read as a positive number of slots.** -/
def IsSlotCount (n : CString) : Prop := n.IsNumeral ∧ 1 ≤ slotsRead n ∧ slotsRead n < 2 ^ 31
deriving Decidable

/-- A byte with which a port may begin: `strtol` skips white space and signs. -/
def leads (b : UInt8) : Bool := !isSpace b && b ≠ '-'.toUInt8 && b ≠ '+'.toUInt8

/-- **Nothing is read behind the word.** Where a colon ends the word, or there is only white
space behind it, `strtol` goes on to the next word, and a name goes on in a comment that
follows it directly. -/
def HostWord.Closed (word : HostWord) : Prop :=
  (∀ v ∈ word.slotArea.tails, v.head? = some ':'.toUInt8 → (v.drop 1).head?.any leads = true) ∧
    word.rest.head? ≠ some '#'.toUInt8
deriving Decidable

section Numbers

variable {n next : CString}

theorem IsSlotCount.isPositive (h : IsSlotCount n) : IsPositive n := by
  obtain ⟨hnum, hpos, -⟩ := h
  refine ⟨hnum, ?_⟩
  by_contra hzero
  rw [slotsRead, show ofNatDecimal n = 0 by omega] at hpos
  exact absurd hpos (by decide)

/-- **When a numeral counts.** -/
theorem one_le_atoi_iff (hnum : n.IsNumeral) (hnext : next.NoDigit) :
    1 ≤ atoi (n ++ next) ↔ IsSlotCount n := by
  have hcast : (min (ofNatDecimal n : ℤ) (2 ^ 63 - 1)) % 2 ^ 32 = slotsRead n := by
    rw [slotsRead]
    omega
  rw [atoi, strtol_numeral hnum hnext, IsSlotCount, Int.bmod_def]
  simp only [hnum, true_and]
  split <;> omega

end Numbers

/-! ### Multipliers that are read -/

/-- **Where the parser stands**: in the part of a word that has the multipliers, or at what
comes behind that part. -/
def StandsIn (area next s : CString) : Prop := ∃ z, z <:+ area ∧ s = z ++ next

theorem mem_slotTexts {x y : CString} {b : UInt8} (hb : isSlotMark b = true) :
    y.takeWhile (· ∉ lit "/=:,") ∈ slotTexts (x ++ b :: y) := by
  induction x with
  | nil =>
    rw [nil_append, slotTexts, if_pos hb]
    exact mem_cons_self
  | cons a x ih =>
    rw [cons_append, slotTexts]
    split
    · exact mem_cons_of_mem _ ih
    · exact ih

section Standing

variable {area next s t : CString} {m n : ℤ} {p : UInt8 → Bool}

/-- A byte that does not come behind the part stands in it. -/
theorem StandsIn.cons {b : UInt8} (h : StandsIn area next (b :: s)) (hb : b ∉ next.head?) :
    ∃ z, b :: z <:+ area ∧ s = z ++ next := by
  obtain ⟨z, hz, heq⟩ := h
  cases z with
  | nil => exact absurd (by rw [← nil_append next, ← heq]; rfl) hb
  | cons a z =>
    obtain ⟨rfl, rfl⟩ := List.cons.inj heq
    exact ⟨z, hz, rfl⟩

theorem StandsIn.dropWhile (h : StandsIn area next s) (hp : ∀ b ∈ next.head?, ¬ p b) :
    StandsIn area next (s.dropWhile p) := by
  obtain ⟨z, hz, rfl⟩ := h
  have hstop : next.dropWhile p = next := by
    cases next with
    | nil => rfl
    | cons b next => exact dropWhile_cons_of_neg (hp b rfl)
  refine ⟨z.dropWhile p, (dropWhile_suffix p).trans hz, ?_⟩
  rw [dropWhile_append, hstop]
  split
  · case isTrue hnil => rw [List.isEmpty_iff.mp hnil, nil_append]
  · rfl

/-- What may come behind the part with the multipliers. -/
def slotStops : CString := lit ": \t\n\x0c\r"

section Counting

variable (hnext : StartsIn slotStops next) (hcounts : ∀ n ∈ slotTexts area, IsSlotCount n)
include hnext hcounts

/-- **What is read behind a mark counts.** -/
theorem StandsIn.one_le_atoi {b : UInt8} (h : StandsIn area next (b :: s))
    (hb : isSlotMark b = true) : 1 ≤ atoi s ∧ StandsIn area next s := by
  have hstops : ∀ b ∈ slotStops, isSlotMark b = false ∧ isDigit b = false := by decide
  have hends : ∀ b ∈ lit "/=:,", isDigit b = false := by decide
  have hb' : b ∉ next.head? := by
    intro hmem
    rw [(hstops b (hnext b hmem)).1] at hb
    cases hb
  obtain ⟨z, hz, rfl⟩ := h.cons hb'
  refine ⟨?_, z, (suffix_cons b z).trans hz, rfl⟩
  obtain ⟨x, rfl⟩ := hz
  have hcount := hcounts _ (mem_slotTexts hb)
  have hsplit : z ++ next =
      z.takeWhile (· ∉ lit "/=:,") ++ (z.dropWhile (· ∉ lit "/=:,") ++ next) := by
    rw [← append_assoc, takeWhile_append_dropWhile]
  rw [hsplit]
  refine (one_le_atoi_iff hcount.1 fun c hc => ?_).mpr hcount
  cases hrest : z.dropWhile (· ∉ lit "/=:,") with
  | nil =>
    rw [hrest, nil_append] at hc
    exact (hstops c (hnext c hc)).2
  | cons c' u =>
    rw [hrest] at hc
    exact hends c (mem_of_mem_head?_dropWhile (s := z) (by rw [hrest]; exact hc))

/-- A multiplier is read. -/
theorem StandsIn.multiplier (h : StandsIn area next s)
    (hslots : dccParseMultiplier s m = .ok (n, t)) (hm : 1 ≤ m) : 1 ≤ n ∧ StandsIn area next t := by
  have hstops : ∀ b ∈ slotStops, ¬ isDigit b = true := by decide
  unfold dccParseMultiplier at hslots
  split at hslots
  · obtain ⟨rfl, rfl⟩ := Prod.mk.inj (Except.ok.inj hslots)
    exact ⟨hm, h⟩
  · split at hslots
    · case isTrue hmark =>
      obtain ⟨hone, hs⟩ := h.one_le_atoi hnext hcounts hmark
      split at hslots
      · cases hslots
      · obtain ⟨rfl, rfl⟩ := Prod.mk.inj (Except.ok.inj hslots)
        exact ⟨hone, hs.dropWhile fun b hb => hstops b (hnext b hb)⟩
    · obtain ⟨rfl, rfl⟩ := Prod.mk.inj (Except.ok.inj hslots)
      exact ⟨hm, h⟩

end Counting

/-- **A port is read.** -/
theorem StandsIn.port {port : ℤ} (h : StandsIn area next s) (hnext : StartsIn whiteBytes next)
    (hcolons : ∀ v ∈ area.tails, v.head? = some ':'.toUInt8 → (v.drop 1).head?.any leads = true)
    (hport : tcpPort s = .ok (port, t)) : StandsIn area next t := by
  have hstops : ∀ b ∈ whiteBytes, b ≠ 58 ∧ ¬ isDigit b = true := by decide
  by_cases hcolon : s.head? = some ':'.toUInt8
  · obtain ⟨u, rfl⟩ := head?_eq_some_iff.mp hcolon
    rw [tcpPort, if_pos rfl] at hport
    split at hport
    · obtain ⟨-, rfl⟩ := Prod.mk.inj (Except.ok.inj hport)
      obtain ⟨z, hz, rfl⟩ := h.cons fun hb => (hstops _ (hnext _ hb)).1 rfl
      have hleads := hcolons _ ((mem_tails _ _).mpr hz) rfl
      cases z with
      | nil => cases hleads
      | cons b z =>
        have hb : isSpace b = false ∧ b ≠ '-'.toUInt8 ∧ b ≠ '+'.toUInt8 := by
          simpa [leads, and_assoc] using hleads
        rw [cons_append, strtol_snd hb, ← cons_append]
        exact StandsIn.dropWhile ⟨_, (suffix_cons _ _).trans hz, rfl⟩
          fun b hb => (hstops b (hnext b hb)).2
    · cases hport
  · have hsame : tcpPort s = .ok (3632, s) := by
      cases s with
      | nil => rfl
      | cons b s => exact if_neg fun hb : b = ':'.toUInt8 => hcolon (congrArg some hb)
    obtain ⟨-, rfl⟩ := Prod.mk.inj (Except.ok.inj (hsame.symm.trans hport))
    exact h

end Standing

/-! ### Words -/

section Slots

variable {env : HostsEnv} {text : CString} {st st' : HostsState} {word : HostWord}
  {entry : HostEntry}

section Host

variable (hcut : word.Cut) (hclosed : word.Closed)
  (hrandom : startsWith (lit "--randomize") word.text = false)
  (hcounts : ∀ n ∈ word.multipliers, IsSlotCount n)

include hcut hclosed in
/-- What comes behind a word that is closed. -/
theorem startsIn_rest : StartsIn whiteBytes word.rest := by
  have hall : ∀ b ∈ wordEnd, b = 35 ∨ b ∈ whiteBytes := by decide
  intro b hb
  refine (hall b (hcut.ends b hb)).resolve_left fun hhash => hclosed.2 ?_
  rw [Option.mem_def.mp hb, hhash]
  rfl

include hrandom in
/-- In a word that is no ssh host, multipliers may stand everywhere. -/
theorem standsIn_suffix (hssh : word.isSsh = false) {v : CString} (hv : v <:+ word.text) :
    StandsIn word.slotArea word.rest (v ++ word.rest) := by
  rw [HostWord.slotArea, hrandom, hssh, if_neg Bool.false_ne_true, if_neg Bool.false_ne_true]
  exact ⟨v, hv, rfl⟩

section

include hcut hclosed hrandom hcounts

/-- **The slots behind a keyword.** -/
theorem keywordSlots_pos {keyword : CString} {m n : ℤ} (hkey : ∀ b ∈ keyword, b ∉ wordEnd)
    (hlocal : ∀ v, word.text = keyword ++ v → startsWith (lit "--localslots") word.text = true)
    (hm : 1 ≤ m) (h : keywordSlots keyword word m = some n) : 1 ≤ n := by
  unfold keywordSlots at h
  split at h
  · case isTrue hstart =>
    rw [hcut.startsWith_cursor _ hkey] at hstart
    obtain ⟨v, hv⟩ := startsWith_iff.mp hstart
    have hssh : word.isSsh = false := by
      rw [HostWord.isSsh, hlocal v hv, Bool.not_true, Bool.and_false, Bool.false_and]
    rw [HostWord.cursor, hv, append_assoc, drop_left] at h
    split at h
    · case h_1 n' t hslots =>
      obtain rfl := Option.some.inj h
      exact ((standsIn_suffix hrandom hssh ⟨keyword, hv.symm⟩).multiplier
        ((startsIn_rest hcut hclosed).mono (by decide)) hcounts hslots hm).1
    · cases h
  · cases h

/-- The slots of a local host. -/
theorem dccParseLocalhost_slots (hlocal : word.isLocalhost = true)
    (h : dccParseLocalhost word.cursor word.text = .ok entry) : 1 ≤ entry.nSlots := by
  obtain ⟨s, hslots⟩ := dccParseLocalhost_ok h
  rw [HostWord.isLocalhost, hcut.startsWith_cursor _ (by decide), Bool.and_eq_true] at hlocal
  obtain ⟨hstart, hnext⟩ := hlocal
  obtain ⟨v, hv⟩ := startsWith_iff.mp hstart
  have hcursor : word.cursor = lit "localhost" ++ (v ++ word.rest) := by
    rw [HostWord.cursor, hv, append_assoc]
  have hssh : word.isSsh = false := by
    cases v with
    | nil =>
      rw [HostWord.isSsh, hv]
      rfl
    | cons b v =>
      have hb : b = '/'.toUInt8 := by
        rw [hv, hcursor] at hnext
        simpa [lit] using hnext
      have hslash : startsWith (lit "localhost/") word.text = true :=
        startsWith_iff.mpr ⟨v, by rw [hv, hb]; rfl⟩
      rw [HostWord.isSsh, hslash, Bool.not_true, Bool.and_false]
  rw [hcursor] at hslots
  exact ((standsIn_suffix hrandom hssh ⟨_, hv.symm⟩).multiplier
    ((startsIn_rest hcut hclosed).mono (by decide)) hcounts hslots (by decide)).1

/-- The slots of an ssh host. -/
theorem dccParseSshHost_slots (hat : '@'.toUInt8 ∈ word.text)
    (h : dccParseSshHost word.cursor word.text = .ok entry) : 1 ≤ entry.nSlots := by
  obtain ⟨s, t, hname, hslots, -⟩ := dccParseSshHost_ok h
  obtain ⟨user, v, htext, huser⟩ := eq_append_cons_of_mem hat
  have hcursor : word.cursor = user ++ '@'.toUInt8 :: (v ++ word.rest) := by
    rw [HostWord.cursor, htext, append_assoc]
    rfl
  have hfree : ∀ b ∈ user, b ∉ lit "@" := by
    rintro b hb hmem
    obtain rfl : b = '@'.toUInt8 := mem_singleton.mp hmem
    exact huser hb
  -- the name is looked for behind the user
  have hdrop : ∀ u : CString, (user ++ '@'.toUInt8 :: u).dropWhile (· ∉ lit "@") =
      '@'.toUInt8 :: u := fun u => (span_free hfree (by rintro b ⟨⟩; decide)).2
  have hs : s = (v ++ word.rest).dropWhile (· ∉ nameEnd) := by
    rw [hcursor] at hname
    simp only [sshName, dccDupPart, hdrop, if_pos] at hname
    split at hname
    · cases hname
    · case h_2 heq =>
      obtain ⟨-, rfl⟩ := Prod.mk.inj heq
      obtain ⟨-, hpair⟩ := Prod.mk.inj (Except.ok.inj hname)
      exact (Prod.mk.inj hpair).2.symm
  have hrest := startsIn_rest hcut hclosed
  obtain ⟨next, hnext, hstands⟩ :
      ∃ next, StartsIn slotStops next ∧ StandsIn word.slotArea next (v ++ word.rest) := by
    cases hssh : word.isSsh with
    | false =>
      refine ⟨_, hrest.mono (by decide), standsIn_suffix hrandom hssh ⟨user ++ lit "@", ?_⟩⟩
      rw [htext, append_assoc]
      rfl
    | true =>
      -- a command, if there is one, ends the part with the multipliers
      refine ⟨v.dropWhile (· ∉ lit ":") ++ word.rest, fun b hb => ?_, v.takeWhile (· ∉ lit ":"),
        ?_, ?_⟩
      · cases hcommand : v.dropWhile (· ∉ lit ":") with
        | nil =>
          rw [hcommand, nil_append] at hb
          exact hrest.mono (by decide) b hb
        | cons a u =>
          rw [hcommand] at hb
          have hcolon := mem_of_mem_head?_dropWhile (s := v) (by rw [hcommand]; exact hb)
          exact mem_of_mem_head? (by rw [mem_singleton.mp hcolon]; rfl)
      · rw [HostWord.slotArea, hrandom, hssh, htext, hdrop, if_neg Bool.false_ne_true, if_pos rfl,
          takeWhile_free_cons (by decide)]
        exact suffix_cons _ _
      · rw [← append_assoc, takeWhile_append_dropWhile]
  have hends : ∀ b ∈ slotStops, b ∈ nameEnd := by decide
  have hs' := hs ▸ hstands.dropWhile (p := (· ∉ nameEnd)) fun b hb => by
    simpa using hends b (hnext b hb)
  exact (hs'.multiplier hnext hcounts hslots (by decide)).1

/-- The slots of a tcp host. -/
theorem dccParseTcpHost_slots (hat : '@'.toUInt8 ∉ word.text)
    (h : dccParseTcpHost word.cursor word.text = .ok entry) : 1 ≤ entry.nSlots := by
  obtain ⟨s, n, t, u, w, hname, hfirst, hport, hsecond⟩ := dccParseTcpHost_ok h
  have hssh : word.isSsh = false := by simp [HostWord.isSsh, hat]
  have hcursor := standsIn_suffix hrandom hssh suffix_rfl
  have hrest := startsIn_rest hcut hclosed
  have hs : StandsIn word.slotArea word.rest s := by
    have hends : ∀ b ∈ whiteBytes, b ∈ nameEnd ∧ b ∈ bracketEnd ∧ b ≠ 93 := by decide
    rw [tcpName] at hname
    split at hname
    · have hstands := hcursor.dropWhile (p := (· ∉ bracketEnd)) fun b hb => by
        simpa using (hends b (hrest b hb)).2.1
      simp only [dccDupPart] at hname
      split at hname
      · case h_1 heq =>
        obtain ⟨-, hdrop⟩ := Prod.mk.inj heq
        split at hname
        · case isTrue hb =>
          obtain ⟨-, rfl⟩ := Prod.mk.inj (Except.ok.inj hname)
          obtain ⟨z, hz, hs⟩ := (hdrop ▸ hstands).cons fun hmem =>
            (hends _ (hrest _ hmem)).2.2 hb
          exact ⟨z, (suffix_cons _ z).trans hz, hs⟩
        · cases hname
      · cases hname
    · simp only [dccDupPart] at hname
      split at hname
      · cases hname
      · case h_2 heq =>
        obtain ⟨-, rfl⟩ := Prod.mk.inj heq
        obtain ⟨-, rfl⟩ := Prod.mk.inj (Except.ok.inj hname)
        exact hcursor.dropWhile fun b hb => by simpa using (hends b (hrest b hb)).1
  have hnext : StartsIn slotStops word.rest := hrest.mono (by decide)
  obtain ⟨hn, ht⟩ := hs.multiplier hnext hcounts hfirst (by decide)
  exact ((ht.port hrest hclosed.1 hport).multiplier hnext hcounts hsecond hn).1

/-- **A host has a slot at least.** -/
theorem parseHost_slots (h : parseHost word = .ok entry) : 1 ≤ entry.nSlots := by
  unfold parseHost at h
  split at h
  · case isTrue hlocal => exact dccParseLocalhost_slots hcut hclosed hrandom hcounts hlocal h
  · split at h
    · case isTrue hat => exact dccParseSshHost_slots hcut hclosed hrandom hcounts hat h
    · case isFalse hat => exact dccParseTcpHost_slots hcut hclosed hrandom hcounts hat h

end

include hcut hclosed hcounts

/-- The slots of the local entries, after a word. -/
theorem parseWord_localSlots (h : parseWord st word = .ok st')
    (hst : 1 ≤ st.localSlots ∧ 1 ≤ st.localSlotsCpp) :
    1 ≤ st'.localSlots ∧ 1 ≤ st'.localSlotsCpp := by
  unfold parseWord at h
  split at h
  · obtain rfl := Except.ok.inj h
    exact hst
  · case isFalse hrandom =>
    rw [hcut.startsWith_cursor _ (by decide), Bool.not_eq_true] at hrandom
    split at h
    · case h_1 n hn =>
      obtain rfl := Except.ok.inj h
      exact ⟨hst.1, keywordSlots_pos hcut hclosed hrandom hcounts (by decide)
        (fun v hv => startsWith_iff.mpr ⟨lit "_cpp" ++ v, hv⟩) hst.2 hn⟩
    · split at h
      · case h_1 n hn =>
        obtain rfl := Except.ok.inj h
        exact ⟨keywordSlots_pos hcut hclosed hrandom hcounts (by decide)
          (fun v hv => startsWith_iff.mpr ⟨v, hv⟩) hst.1 hn, hst.2⟩
      · split at h
        · obtain rfl := Except.ok.inj h
          exact hst
        · cases h

end Host

/-- The same after all words. -/
theorem foldlM_localSlots {words : List HostWord} (h : words.foldlM parseWord st = .ok st')
    (hwords : ∀ word ∈ words, word.Cut ∧ word.Closed ∧ ∀ n ∈ word.multipliers, IsSlotCount n)
    (hst : 1 ≤ st.localSlots ∧ 1 ≤ st.localSlotsCpp) :
    1 ≤ st'.localSlots ∧ 1 ≤ st'.localSlotsCpp := by
  induction words generalizing st with
  | nil =>
    obtain rfl := Except.ok.inj h
    exact hst
  | cons word words ih =>
    rw [List.foldlM_cons] at h
    obtain ⟨st₁, hword, hrest⟩ := Except.bind_eq_ok_iff.mp h
    obtain ⟨hcut, hclosed, hcounts⟩ := hwords word mem_cons_self
    exact ih hrest (fun w hw => hwords w (mem_cons_of_mem _ hw))
      (parseWord_localSlots hcut hclosed hcounts hword hst)

end Slots

/-! ### Two lists -/

end Distcc
