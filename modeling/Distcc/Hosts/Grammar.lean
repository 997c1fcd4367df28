import Distcc.Hosts.Fields

/-!
# The grammar of the host list

A list is written as the texts of its definitions, with white space and comments between
them (`WritesHosts`). The parser reads what is written: the fields of a definition are
read one after the other (`parseHost_text`), and so the list that is returned is the
one that was written (`dccParseHosts_writes`).
-/

namespace Distcc

open CString List

/-! ### Hosts are read -/

/-- The text ends in a name or in a command, which a `#` does not end. -/
def HostDef.EndsOpen : HostDef → Prop
  | .localhost _ => False
  | .ssh _ _ slots command opts => opts = [] ∧ (command.isSome ∨ slots = none)
  | .tcp _ _ port slots opts => opts = [] ∧ port = none ∧ slots = none

section Hosts

variable {host rest : CString} {user port slots command : Option CString} {opts : List HostOption}

/-- What may follow a word, with a `#` only if the definition does not end in a name. -/
def FollowsHost (d : HostDef) (rest : CString) : Prop :=
  StartsIn wordEnd rest ∧ (rest.head? = some '#'.toUInt8 → ¬d.EndsOpen)

/-- What ends a word ends a field as well, but for the `#`. -/
theorem StartsIn.without_hash {bytes ends t : CString} (h : StartsIn bytes t)
    (hle : ∀ b ∈ bytes, b = '#'.toUInt8 ∨ b ∈ ends) (hhash : t.head? ≠ some '#'.toUInt8) :
    StartsIn ends t := by
  intro b hb
  refine (hle b (h b hb)).resolve_left ?_
  rintro rfl
  exact hhash hb

/-- The result of a host, or the error there is when a comment follows a port. -/
def ReadsOr (rest : CString) (x : Except ExitCode HostEntry) (entry : HostEntry) : Prop :=
  x = .ok entry ∨ (rest.head? = some '#'.toUInt8 ∧ x = .error .badHostspec)

/-- Behind a port, only a comment is unexpected. -/
theorem head_of_not_portEnds {t : CString} (ht : StartsIn ('/'.toUInt8 :: ','.toUInt8 :: wordEnd) t)
    (h : portEnds t = false) : t.head? = some '#'.toUInt8 := by
  cases t with
  | nil => cases h
  | cons b t =>
    have hall : ∀ b ∈ '/'.toUInt8 :: ','.toUInt8 :: wordEnd,
        (isSpace b || b = '/'.toUInt8 || b = ','.toUInt8) = false → b = '#'.toUInt8 := by
      decide
    exact congrArg some (hall b (ht b rfl) h)

/-- Where a comment follows, there are no options between. -/
theorem head_of_options (h : (optionsText opts ++ rest).head? = some '#'.toUInt8) :
    opts = [] ∧ rest.head? = some '#'.toUInt8 := by
  cases opts with
  | nil => exact ⟨rfl, h⟩
  | cons o opts => exact absurd (Option.some.inj h) (by decide)

theorem head_of_marked {mark : UInt8} (hmark : mark ≠ '#'.toUInt8) {field : Option CString}
    (h : (markedText mark field ++ rest).head? = some '#'.toUInt8) :
    field = none ∧ rest.head? = some '#'.toUInt8 := by
  cases field with
  | none => exact ⟨rfl, h⟩
  | some s => exact absurd (Option.some.inj h) hmark

variable (str : CString)
include str

/-- The name, the slots, the port and the options of a tcp host in the old style. -/
theorem dccParseTcpHost_oldStyle (hhost : IsField host)
    (hport : ∀ p ∈ port, IsPort p) (hslots : ∀ n ∈ slots, IsSlots n) (hopts : OptionsFit opts)
    (hrest : FollowsHost (.tcp true host port slots opts) rest) :
    ReadsOr rest (dccParseTcpHost ((HostDef.tcp true host port slots opts).text ++ rest) str)
      { (HostDef.tcp true host port slots opts).entry with hostdefString := str } := by
  obtain ⟨hend, hopen⟩ := hrest
  have hafterPort := startsIn_options opts hend
  have hafterSlots :
      StartsIn slotsNext (markedText ':'.toUInt8 port ++ (optionsText opts ++ rest)) :=
    startsIn_marked hafterPort
  have hname : StartsIn nameEnd (markedText '/'.toUInt8 slots ++
      (markedText ':'.toUInt8 port ++ (optionsText opts ++ rest))) := by
    refine (startsIn_marked hafterSlots).without_hash (by decide) fun hhash => ?_
    obtain ⟨hslots', hhash⟩ := head_of_marked (by decide) hhash
    obtain ⟨hport', hhash⟩ := head_of_marked (by decide) hhash
    obtain ⟨hopts', hhash⟩ := head_of_options hhash
    exact hopen hhash ⟨hopts', hport', hslots'⟩
  have htext : (HostDef.tcp true host port slots opts).text ++ rest =
      host ++ (markedText '/'.toUInt8 slots ++
        (markedText ':'.toUInt8 port ++ (optionsText opts ++ rest))) := by
    simp only [HostDef.text, append_assoc]
  have hplain : ∀ b ∈ (optionsText opts ++ rest).head?, isSlotMark b = false :=
    hafterPort.all (by decide)
  have hbefore : StartsIn ('/'.toUInt8 :: ','.toUInt8 :: wordEnd) (optionsText opts ++ rest) :=
    hafterPort.mono fun _ hb => mem_cons_of_mem _ hb
  rw [htext, dccParseTcpHost, tcpName_field hhost hname, Except.ok_bind]
  simp only [dccParseMultiplier_marked 4 hslots hafterSlots, Except.ok_bind,
    tcpPort_marked hport hbefore]
  split
  · case isTrue hbad =>
    refine Or.inr ⟨?_, rfl⟩
    exact (head_of_options (head_of_not_portEnds hbefore hbad.2)).2
  · simp only [Except.ok_bind, dccParseMultiplier_of_plain _ hplain,
      dccParseOptions_text hopts hend]
    exact Or.inl rfl

/-- The port, the slots and the options, behind a name that was read. -/
theorem dccParseTcpHost_of_name {token p : CString}
    (hname : tcpName token = .ok (host, markedText ':'.toUInt8 (some p) ++
      (markedText '/'.toUInt8 slots ++ (optionsText opts ++ rest))))
    (hport : IsPort p) (hslots : ∀ n ∈ slots, IsSlots n) (hopts : OptionsFit opts)
    (hend : StartsIn wordEnd rest) :
    ReadsOr rest (dccParseTcpHost token str)
      { (HostDef.tcp false host (some p) slots opts).entry with hostdefString := str } := by
  have hafterSlots := startsIn_options opts hend
  have hafterPort : StartsIn ('/'.toUInt8 :: ','.toUInt8 :: wordEnd)
      (markedText '/'.toUInt8 slots ++ (optionsText opts ++ rest)) := startsIn_marked hafterSlots
  have hcolon : ∀ b ∈ (markedText ':'.toUInt8 (some p) ++ (markedText '/'.toUInt8 slots ++
      (optionsText opts ++ rest))).head?, isSlotMark b = false := by
    rintro b ⟨⟩
    rfl
  have hport' : ∀ q ∈ some p, IsPort q := by
    rintro q ⟨⟩
    exact hport
  rw [dccParseTcpHost, hname, Except.ok_bind]
  simp only [dccParseMultiplier_of_plain 4 hcolon, Except.ok_bind, tcpPort_marked hport' hafterPort]
  split
  · case isTrue hbad =>
    refine Or.inr ⟨?_, rfl⟩
    have hhash := head_of_not_portEnds hafterPort hbad.2
    exact (head_of_options (head_of_marked (by decide) hhash).2).2
  · simp only [Except.ok_bind, dccParseOptions_text hopts hend,
      dccParseMultiplier_marked 4 hslots (hafterSlots.mono fun _ hb => mem_cons_of_mem _ hb)]
    exact Or.inl rfl

/-- The same with the port before the slots. -/
theorem dccParseTcpHost_newStyle {p : CString} (hhost : IsField host)
    (hport : IsPort p) (hslots : ∀ n ∈ slots, IsSlots n) (hopts : OptionsFit opts)
    (hend : StartsIn wordEnd rest) :
    ReadsOr rest (dccParseTcpHost ((HostDef.tcp false host (some p) slots opts).text ++ rest) str)
      { (HostDef.tcp false host (some p) slots opts).entry with hostdefString := str } := by
  refine dccParseTcpHost_of_name str ?_ hport hslots hopts hend
  have htext : (HostDef.tcp false host (some p) slots opts).text ++ rest =
      host ++ (markedText ':'.toUInt8 (some p) ++
        (markedText '/'.toUInt8 slots ++ (optionsText opts ++ rest))) := by
    simp only [HostDef.text, append_assoc]
  rw [htext]
  refine tcpName_field hhost ?_
  rintro b ⟨⟩
  decide

/-- The fields of an ssh host. -/
theorem dccParseSshHost_text (huser : ∀ u ∈ user, IsField u)
    (hhost : IsField host) (hslots : ∀ n ∈ slots, IsSlots n)
    (hcommand : ∀ c ∈ command, IsCommand c) (hopts : OptionsFit opts)
    (hrest : FollowsHost (.ssh user host slots command opts) rest) :
    dccParseSshHost ((HostDef.ssh user host slots command opts).text ++ rest) str = .ok
      { (HostDef.ssh user host slots command opts).entry with hostdefString := str } := by
  obtain ⟨hend, hopen⟩ := hrest
  have hafterCommand := startsIn_options opts hend
  have hafterSlots : StartsIn slotsNext
      (markedText ':'.toUInt8 command ++ (optionsText opts ++ rest)) :=
    startsIn_marked hafterCommand
  have hname : StartsIn nameEnd (markedText '/'.toUInt8 slots ++
      (markedText ':'.toUInt8 command ++ (optionsText opts ++ rest))) := by
    refine (startsIn_marked hafterSlots).without_hash (by decide) fun hhash => ?_
    obtain ⟨hslots', hhash⟩ := head_of_marked (by decide) hhash
    obtain ⟨-, hhash⟩ := head_of_marked (by decide) hhash
    obtain ⟨hopts', hhash⟩ := head_of_options hhash
    exact hopen hhash ⟨hopts', Or.inr hslots'⟩
  have hstop (hsome : command.isSome) : StartsIn commandEnd (optionsText opts ++ rest) := by
    refine hafterCommand.without_hash (by decide) fun hhash => ?_
    obtain ⟨hopts', hhash⟩ := head_of_options hhash
    exact hopen hhash ⟨hopts', Or.inl hsome⟩
  have htext : (HostDef.ssh user host slots command opts).text ++ rest =
      user.getD [] ++ '@'.toUInt8 :: (host ++ (markedText '/'.toUInt8 slots ++
        (markedText ':'.toUInt8 command ++ (optionsText opts ++ rest)))) := by
    simp only [HostDef.text, append_assoc, cons_append]
  rw [htext, dccParseSshHost, sshName_fields huser hhost hname, Except.ok_bind]
  simp only [dccParseMultiplier_marked 4 hslots hafterSlots, Except.ok_bind,
    sshCommand_marked hcommand hafterCommand hstop, dccParseOptions_text hopts hend]
  rfl

end Hosts

/-! ### Bytes of a text -/

section Bytes

variable {P : UInt8 → Prop} {opts : List HostOption} {d : HostDef} {rest s : CString}

theorem forall_mem_marked {mark : UInt8} {field : Option CString} (hmark : P mark)
    (hfield : ∀ s ∈ field, ∀ b ∈ s, P b) : ∀ b ∈ markedText mark field, P b := by
  cases field with
  | none => exact fun _ h => nomatch h
  | some s => exact forall_mem_cons.mpr ⟨hmark, hfield s rfl⟩

theorem forall_mem_options (h : ∀ b ∈ lit ",lzodwncp", P b) : ∀ b ∈ optionsText opts, P b := by
  intro b hb
  obtain ⟨o, -, hb⟩ := mem_flatMap.mp hb
  have hall : ∀ b ∈ ','.toUInt8 :: o.name, b ∈ lit ",lzodwncp" := by cases o <;> decide
  exact h b (hall b hb)

/-- The bytes of a word. -/
def Plain (b : UInt8) : Prop := isSpace b = false ∧ b ≠ '#'.toUInt8
deriving Decidable

theorem IsField.plain (h : IsField s) : ∀ b ∈ s, Plain b := by
  intro b hb
  refine ⟨(h.2 b hb).1, ?_⟩
  rintro rfl
  exact h.not_mem (by decide) hb

theorem IsCommand.plain (h : IsCommand s) : ∀ b ∈ s, Plain b := by
  intro b hb
  refine ⟨(h.2 b hb).1, ?_⟩
  rintro rfl
  exact (h.2 _ hb).2 (by decide)

/-- Digits are none of the bytes that have a meaning. -/
theorem isDigit_ne {b c : UInt8} (hb : isDigit b = true) (hc : isDigit c = false) : b ≠ c := by
  rintro rfl
  exact absurd hb (Bool.eq_false_iff.mp hc)

/-- All bytes of a tcp host are so if those of its name, the marks and the digits are. -/
theorem forall_mem_tcp {oldStyle : Bool} {host : CString} {port slots : Option CString}
    (hhost : ∀ b ∈ host, P b) (hmarks : ∀ b ∈ lit "/:,lzodwncp", P b)
    (hdigit : ∀ b, isDigit b = true → P b) (hport : ∀ p ∈ port, IsPort p)
    (hslots : ∀ n ∈ slots, IsSlots n) :
    ∀ b ∈ (HostDef.tcp oldStyle host port slots opts).text, P b := by
  have hslots' : ∀ b ∈ markedText '/'.toUInt8 slots, P b :=
    forall_mem_marked (hmarks _ (by decide)) fun n hn b hb => hdigit b ((hslots n hn).1.2 b hb)
  have hport' : ∀ b ∈ markedText ':'.toUInt8 port, P b :=
    forall_mem_marked (hmarks _ (by decide)) fun p hp b hb => hdigit b ((hport p hp).1.2 b hb)
  have hopts : ∀ b ∈ optionsText opts, P b :=
    forall_mem_options fun b hb => hmarks b (mem_cons_of_mem _ (mem_cons_of_mem _ hb))
  cases oldStyle with
  | true =>
    simp only [HostDef.text, forall_mem_append]
    exact ⟨hhost, hslots', hport', hopts⟩
  | false =>
    simp only [HostDef.text, forall_mem_append]
    exact ⟨hhost, hport', hslots', hopts⟩

theorem plain_of_isDigit {b : UInt8} (hb : isDigit b = true) : Plain b :=
  ⟨(isDigit_plain hb).1, isDigit_ne hb (by decide)⟩

theorem plain_of_isNumeral (h : s.IsNumeral) : ∀ b ∈ s, Plain b :=
  fun b hb => plain_of_isDigit (h.2 b hb)

/-- **A definition is written as one word.** -/
theorem HostDef.WellFormed.plain (h : d.WellFormed) : d.text ≠ [] ∧ ∀ b ∈ d.text, Plain b := by
  cases d with
  | localhost slots =>
    refine ⟨cons_ne_nil _ _, forall_mem_append.mpr ⟨by decide, ?_⟩⟩
    exact forall_mem_marked (by decide) fun n hn => plain_of_isNumeral (h n hn).1
  | ssh user host slots command opts =>
    obtain ⟨huser, hhost, hslots, hcommand, -, -⟩ := h
    refine ⟨append_ne_nil_of_right_ne_nil _ (cons_ne_nil _ _), ?_⟩
    simp only [HostDef.text, forall_mem_append, forall_mem_cons]
    refine ⟨?_, by decide, hhost.plain, ?_, ?_, forall_mem_options (by decide)⟩
    · cases user with
      | none => exact fun _ h => nomatch h
      | some u => exact (huser u rfl).plain
    · exact forall_mem_marked (by decide) fun n hn => plain_of_isNumeral (hslots n hn).1
    · exact forall_mem_marked (by decide) fun c hc => (hcommand c hc).plain
  | tcp oldStyle host port slots opts =>
    obtain ⟨hhost, hport, hslots, -, -⟩ := h
    refine ⟨?_, forall_mem_tcp hhost.plain (by decide) (fun _ => plain_of_isDigit) hport hslots⟩
    cases oldStyle <;> exact append_ne_nil_of_left_ne_nil hhost.1 _

/-- Only ssh hosts have an `@`. -/
theorem at_not_mem_tcp {oldStyle : Bool} {host : CString} {port slots : Option CString}
    (hhost : IsField host) (hport : ∀ p ∈ port, IsPort p) (hslots : ∀ n ∈ slots, IsSlots n) :
    '@'.toUInt8 ∉ (HostDef.tcp oldStyle host port slots opts).text := by
  have hhost' : ∀ b ∈ host, b ≠ '@'.toUInt8 := by
    rintro b hb rfl
    exact hhost.not_mem (by decide) hb
  have hdigit (b : UInt8) (hb : isDigit b = true) : b ≠ '@'.toUInt8 := isDigit_ne hb (by decide)
  exact fun hmem => forall_mem_tcp hhost' (by decide) hdigit hport hslots _ hmem rfl

theorem HostDef.WellFormed.cut (h : d.WellFormed) (hrest : StartsIn wordEnd rest) :
    HostWord.Cut ⟨d.text, rest⟩ where
  ne_nil := h.plain.1
  inside b hb := not_mem_wordEnd (h.plain.2 b hb).2 (h.plain.2 b hb).1
  ends := hrest

/-- A definition that starts plainly is not taken for a local host. -/
theorem isLocalhost_of_startsPlainly {word : HostWord} (hcut : word.Cut)
    (h : StartsPlainly word.text) : word.isLocalhost = false := by
  rw [HostWord.isLocalhost, hcut.startsWith_cursor _ (by decide), Bool.eq_false_iff]
  intro hlocal
  simp only [Bool.and_eq_true, Bool.or_eq_true, decide_eq_true_eq] at hlocal
  obtain ⟨hstart, hnext⟩ := hlocal
  refine h.2 ⟨hstart, ?_⟩
  obtain hlen | hslash := hnext
  · exact Or.inl hlen
  · obtain ⟨t, ht⟩ := startsWith_iff.mp hstart
    rw [HostWord.cursor, ht] at hslash
    rw [ht]
    cases t with
    | nil => exact Or.inl rfl
    | cons b t => exact Or.inr hslash

/-- **What is written for a host is read.** -/
theorem parseHost_text (hd : d.WellFormed) (hrest : FollowsHost d rest) :
    ReadsOr rest (parseHost ⟨d.text, rest⟩) d.entry := by
  have hcut := hd.cut hrest.1
  cases d with
  | localhost slots =>
    have hlocal : HostWord.isLocalhost ⟨(HostDef.localhost slots).text, rest⟩ = true := by
      have hstart : startsWith (lit "localhost") (HostDef.localhost slots).text = true :=
        startsWith_iff.mpr ⟨markedText '/'.toUInt8 slots, rfl⟩
      rw [HostWord.isLocalhost, hcut.startsWith_cursor _ (by decide), hstart, Bool.true_and]
      cases slots with
      | none => rfl
      | some n => exact Bool.or_true _
    have hdrop : ((HostDef.localhost slots).text ++ rest).drop 9 =
        markedText '/'.toUInt8 slots ++ rest := by
      rw [HostDef.text, append_assoc]
      rfl
    have hnext : StartsIn slotsNext rest :=
      hrest.1.mono fun _ hb => mem_cons_of_mem _ (mem_cons_of_mem _ hb)
    rw [parseHost, hlocal, if_pos rfl, HostWord.cursor, dccParseLocalhost, hdrop,
      dccParseMultiplier_marked 2 hd hnext]
    exact Or.inl rfl
  | ssh user host slots command opts =>
    obtain ⟨huser, hhost, hslots, hcommand, hopts, hstart⟩ := hd
    have hat : '@'.toUInt8 ∈ (HostDef.ssh user host slots command opts).text :=
      mem_append_right _ mem_cons_self
    rw [parseHost, isLocalhost_of_startsPlainly hcut hstart, if_neg Bool.false_ne_true, if_pos hat]
    exact Or.inl (dccParseSshHost_text _ huser hhost hslots hcommand hopts hrest)
  | tcp oldStyle host port slots opts =>
    obtain ⟨hhost, hport, hslots, hopts, hstart⟩ := hd
    rw [parseHost, isLocalhost_of_startsPlainly hcut hstart, if_neg Bool.false_ne_true,
      if_neg (at_not_mem_tcp hhost hport hslots)]
    cases oldStyle with
    | true => exact dccParseTcpHost_oldStyle _ hhost hport hslots hopts hrest
    | false =>
      cases port with
      | none => exact dccParseTcpHost_oldStyle _ hhost hport hslots hopts hrest
      | some p => exact dccParseTcpHost_newStyle _ hhost (hport p rfl) hslots hopts hrest.1

end Bytes

/-! ### Lists -/

/-- White space between hosts. -/
def whiteBytes : CString := lit " \t\n\x0c\r"

/-- **What may stand between hosts**: white space, and comments to the end of a line. -/
inductive Gap : CString → Prop where
  /-- Nothing. -/
  | nil : Gap []
  /-- White space. -/
  | white {b : UInt8} {g : CString} (hb : b ∈ whiteBytes) (hg : Gap g) : Gap (b :: g)
  /-- A comment, and the end of its line. -/
  | comment {c g : CString} {b : UInt8} (hc : ∀ x ∈ c, isEol x = false) (hb : isEol b = true)
      (hg : Gap g) : Gap ('#'.toUInt8 :: (c ++ b :: g))

/-- **How a list is written**: there is white space behind each host but the last, and a
comment may stand at the end. -/
inductive WritesHosts : List HostDef → CString → Prop where
  /-- No more hosts. -/
  | nil {g : CString} (hg : Gap g) : WritesHosts [] g
  /-- No more hosts, and a comment up to the end of the list. -/
  | comment {g c : CString} (hg : Gap g) (hc : ∀ x ∈ c, isEol x = false) :
      WritesHosts [] (g ++ '#'.toUInt8 :: c)
  /-- One more host. -/
  | cons {d : HostDef} {ds : List HostDef} {g s : CString} (hd : d.WellFormed) (hg : Gap g)
      (hs : WritesHosts ds s) (hnext : StartsIn whiteBytes s) :
      WritesHosts (d :: ds) (g ++ (d.text ++ s))

section Lists

variable {g s text : CString} {entries : List HostEntry}

/-- Gaps have no words. -/
theorem Gap.hostWords_append (hg : Gap g) (s : CString) : hostWords (g ++ s) = hostWords s := by
  induction hg with
  | nil => rfl
  | @white b g hb hg ih =>
    have hspace : ∀ b ∈ whiteBytes, isSpace b = true := by decide
    rw [cons_append, hostWords_space _ (hspace b hb), ih]
  | @comment c g b hc hb hg ih =>
    have hspace : isSpace b = true := by
      have hall : b = '\n'.toUInt8 ∨ b = '\r'.toUInt8 := by simpa [isEol] using hb
      obtain rfl | rfl := hall <;> decide
    have hcomment : (c ++ b :: (g ++ s)).dropWhile (fun x => !isEol x) = b :: (g ++ s) := by
      rw [dropWhile_append_of_pos (by simpa using hc), dropWhile_cons, hb]
      rfl
    have htext : '#'.toUInt8 :: (c ++ b :: g) ++ s = 35 :: (c ++ b :: (g ++ s)) := by
      simp only [cons_append, append_assoc]
      rfl
    rw [htext, hostWords_comment, hcomment, hostWords_space _ hspace, ih]

/-- A comment at the end has no words. -/
theorem hostWords_lastComment {c : CString} (hc : ∀ x ∈ c, isEol x = false) :
    hostWords ('#'.toUInt8 :: c) = [] := by
  have hnone : c.dropWhile (fun x => !isEol x) = [] :=
    dropWhile_eq_nil_iff.mpr (by simpa using hc)
  exact (hostWords_comment c).trans (by rw [hnone, hostWords_nil])

/-- A text without white space and comments is one word. -/
theorem hostWords_plain (hne : text ≠ []) (hplain : ∀ b ∈ text, Plain b)
    (hs : StartsIn wordEnd s) : hostWords (text ++ s) = ⟨text, s⟩ :: hostWords s := by
  have hfree : ∀ b ∈ text, b ∉ wordEnd :=
    fun b hb => not_mem_wordEnd (hplain b hb).2 (hplain b hb).1
  obtain ⟨htake, hdrop⟩ := span_free hfree hs
  obtain ⟨b, t, rfl⟩ := exists_cons_of_ne_nil hne
  have hb : Plain b := hplain b mem_cons_self
  have hword := @hostWords_word (t ++ s) b hb.2 hb.1
  rwa [← cons_append, htake, hdrop] at hword

theorem wordEnd_of_white {b : UInt8} (h : b ∈ whiteBytes) : b ∈ wordEnd := by
  have hall : ∀ b ∈ whiteBytes, b ∈ wordEnd := by decide
  exact hall b h

/-- A word with this text is no keyword. -/
theorem isKeyword_of_startsPlainly {word : HostWord} (hcut : word.Cut)
    (h : startsWith (lit "--") word.text = false) : word.isKeyword = false := by
  rw [← hcut.startsWith_cursor _ (by decide), Bool.eq_false_iff] at h
  have hno (t : CString) : word.cursor ≠ lit "--" ++ t := fun ht => h (startsWith_iff.mpr ⟨t, ht⟩)
  rw [HostWord.isKeyword, Bool.or_eq_false_iff, Bool.or_eq_false_iff, Option.isSome_eq_false_iff,
    Option.isSome_eq_false_iff, Option.isNone_iff_eq_none, Option.isNone_iff_eq_none,
    keywordSlots_eq_none_iff, keywordSlots_eq_none_iff, Bool.eq_false_iff]
  refine ⟨⟨fun hrandom => ?_, fun t ht => ?_⟩, fun t ht => ?_⟩
  · obtain ⟨t, ht⟩ := startsWith_iff.mp hrandom
    exact hno (lit "randomize" ++ t) ht
  · exact absurd ht (hno (lit "localslots_cpp" ++ t))
  · exact absurd ht (hno (lit "localslots" ++ t))

theorem HostDef.WellFormed.not_keyword {d : HostDef} (hd : d.WellFormed)
    (hs : StartsIn wordEnd s) : HostWord.isKeyword ⟨d.text, s⟩ = false := by
  refine isKeyword_of_startsPlainly (hd.cut hs) ?_
  cases d with
  | localhost slots => rfl
  | ssh user host slots command opts => exact hd.2.2.2.2.2.1
  | tcp oldStyle host port slots opts => exact hd.2.2.2.2.1

/-- **The words of a list that is written** give the entries of its definitions. -/
theorem foldlM_parseWord_writes {ds : List HostDef} (h : WritesHosts ds text) (st : HostsState) :
    (hostWords text).foldlM parseWord st =
      .ok { st with list := (ds.map HostDef.entry).foldl HostList.add st.list } := by
  induction h generalizing st with
  | nil hg =>
    have hnone := hg.hostWords_append []
    rw [append_nil] at hnone
    rw [hnone]
    rfl
  | comment hg hc =>
    rw [hg.hostWords_append, hostWords_lastComment hc]
    rfl
  | @cons d ds g s hd hg hs hnext ih =>
    have hend : StartsIn wordEnd s := hnext.mono fun _ => wordEnd_of_white
    have hhash : s.head? ≠ some '#'.toUInt8 := by
      intro hhead
      exact absurd (hnext _ hhead) (by decide)
    have hread : parseHost ⟨d.text, s⟩ = .ok d.entry :=
      (parseHost_text hd ⟨hend, fun h => absurd h hhash⟩).resolve_right fun h => hhash h.1
    have hword : parseWord st ⟨d.text, s⟩ = .ok { st with list := st.list.add d.entry } := by
      rw [parseWord_of_not_keyword st (hd.not_keyword hend), hread]
      rfl
    rw [hg.hostWords_append, hostWords_plain hd.plain.1 hd.plain.2 hend, foldlM_cons, hword,
      Except.ok_bind, ih]
    rfl

theorem HostList.Built.foldl_add {l : HostList} (h : l.Built entries)
    (more : List HostEntry) : (more.foldl HostList.add l).Built (entries ++ more) := by
  induction more generalizing l entries with
  | nil => rwa [append_nil]
  | cons entry more ih =>
    have hrest := ih (h.add entry)
    rwa [append_assoc, singleton_append] at hrest

/-- A list that was read gives a result if there is a host in it. -/
theorem dccParseHosts_of_foldlM (env : HostsEnv) (h : (hostWords text).foldlM parseWord {} =
      .ok { list := entries.foldl HostList.add {} }) :
    (entries = [] → dccParseHosts env text = some (.error .badHostspec)) ∧
      (entries ≠ [] → ∃ st, dccParseHosts env text = some (.ok st) ∧
        st.list.Holds entries ∧ st.list.nhosts = entries.length) := by
  have hbuilt : (entries.foldl HostList.add ({} : HostList)).Built entries :=
    HostList.built_empty.foldl_add entries
  have hcount := hbuilt.nhosts_eq
  constructor
  · rintro rfl
    rw [dccParseHosts, h]
    rfl
  · intro hne
    refine ⟨{ list := entries.foldl HostList.add {} }, ?_, hbuilt.holds, hcount⟩
    have hpos : ¬entries.length = 0 := fun hlen => hne (eq_nil_of_length_eq_zero hlen)
    rw [dccParseHosts, h]
    simp only [hcount, if_neg hpos, Bool.false_eq_true, if_false]

/-- **A list that is written is the list that is read**: there is an entry for each of the
definitions, in order, and no other. A text without any definition is an error. -/
theorem dccParseHosts_writes (env : HostsEnv) {ds : List HostDef} {text : CString}
    (h : WritesHosts ds text) :
    (ds = [] → dccParseHosts env text = some (.error .badHostspec)) ∧
      (ds ≠ [] → ∃ st, dccParseHosts env text = some (.ok st) ∧
        st.list.Holds (ds.map HostDef.entry) ∧ st.list.nhosts = ds.length) := by
  obtain ⟨hempty, hsome⟩ := dccParseHosts_of_foldlM env (foldlM_parseWord_writes h {})
  rw [map_eq_nil_iff] at hempty
  rw [ne_eq, map_eq_nil_iff, length_map] at hsome
  exact ⟨hempty, hsome⟩

end Lists

/-- Three hosts. -/
def threeHosts : List HostDef :=
  [.localhost none, .ssh (some (lit "u")) (lit "h") (some (lit "3")) none [.lzo],
    .tcp false (lit "a") (some (lit "99")) (some (lit "2")) []]

theorem writesHosts_threeHosts :
    WritesHosts threeHosts (lit "localhost  u@h/3,lzo #x\na:99/2") := by
  have hcomment : Gap ('#'.toUInt8 :: (lit "x" ++ '\n'.toUInt8 :: [])) :=
    .comment (by decide) (by decide) .nil
  have htcp : WritesHosts [.tcp false (lit "a") (some (lit "99")) (some (lit "2")) []]
      (lit " #x\n" ++ (lit "a:99/2" ++ [])) :=
    .cons (by decide) (.white (by decide) hcomment) (.nil .nil) (by decide)
  have hssh : WritesHosts threeHosts.tail
      (lit "  " ++ (lit "u@h/3,lzo" ++ (lit " #x\n" ++ (lit "a:99/2" ++ [])))) :=
    .cons (by decide) (.white (by decide) (.white (by decide) .nil)) htcp (by decide)
  exact .cons (by decide) .nil hssh (by decide)

/-- Three hosts, with a comment between them, are read as they were written. -/
theorem dccParseHosts_writes_three :
    ∃ st, dccParseHosts .reversing (lit "localhost  u@h/3,lzo #x\na:99/2") = some (.ok st) ∧
      st.list.Holds (threeHosts.map HostDef.entry) ∧ st.list.nhosts = 3 :=
  (dccParseHosts_writes .reversing writesHosts_threeHosts).2 (by decide)

end Distcc
