import Distcc.Hosts.Grammar

/-!
# The lines of the zeroconf file

A daemon that listens to Avahi writes a file of hosts, one line for each (`write_hosts` in
`src/zeroconf.c`), and the client gives the file to the parser of host lists
(`dcc_parse_hosts` in `src/hosts.c`).

An IPv4 address is written as it is. It is a name that the parser knows how to read, and so
are the port and the slots behind it. An IPv6 address is written in brackets, since there are
colons in it. The parser looks for the closing bracket and goes on behind it, but what it
takes for the name starts with the opening one (`lineRead_inet6`). So what is
read is what was written exactly if there are hosts and none of them has an IPv6 address
(`hostsText_roundTrips_iff`).
-/

namespace Distcc.Zeroconf

open CString List

/-! ### What is written -/

/-- `AvahiAddress` -/
inductive AvahiAddress
  | inet (a b c d : UInt8)
  | inet6 (bytes : Fin 16 → UInt8)
  deriving DecidableEq

/-- `AVAHI_ADDRESS_STR_MAX` -/
def avahiAddressStrMax : ℕ := 40

/-- A byte of a printed IPv6 address. -/
def IsInet6Byte (b : UInt8) : Prop := (hexValue b).isSome ∨ b = ':'.toUInt8 ∨ b = '.'.toUInt8
deriving Decidable

/-- The functions of Avahi that the daemon uses. -/
structure Avahi where
  /-- `avahi_address_snprint`. An IPv4 address is printed as numbers with dots, and an IPv6
  address in hexadecimal digits. -/
  print : AvahiAddress → CString
  print_ne_nil : ∀ address, print address ≠ []
  print_inet : ∀ a b c d, ∀ x ∈ print (.inet a b c d), isDigit x = true ∨ x = '.'.toUInt8
  print_inet6 : ∀ bytes, ∀ x ∈ print (.inet6 bytes), IsInet6Byte x
  print_length : ∀ address, (print address).length < avahiAddressStrMax
  /-- `avahi_domain_equal` -/
  domainEqual : CString → CString → Bool
  domainEqual_refl : ∀ s, domainEqual s s = true
  domainEqual_symm : ∀ s t, domainEqual s t = true → domainEqual t s = true
  domainEqual_trans : ∀ s t u, domainEqual s t = true → domainEqual t u = true →
    domainEqual s u = true

/-- What is known about a host that is resolved. -/
structure Resolution where
  address : AvahiAddress
  port : UInt16
  /-- `n_cpus` -/
  nCpus : ℤ
  deriving DecidableEq

/-- `snprintf`, into a buffer of so many bytes. -/
def snprintf (size : ℕ) (text : CString) : CString := text.take (size - 1)

/-- The text of a host, without the newline. -/
def Resolution.text (avahi : Avahi) (nSlots : ℤ) (r : Resolution) : CString :=
  match r.address with
  | .inet6 _ =>
    '['.toUInt8 :: (avahi.print r.address ++ ']'.toUInt8 :: ':'.toUInt8 ::
      (natDecimal r.port.toNat ++ '/'.toUInt8 :: decimal (nSlots * r.nCpus)))
  | .inet .. =>
    avahi.print r.address ++ ':'.toUInt8 ::
      (natDecimal r.port.toNat ++ '/'.toUInt8 :: decimal (nSlots * r.nCpus))

/-- The line that `write_hosts` writes for a host. -/
def hostLine (avahi : Avahi) (nSlots : ℤ) (r : Resolution) : CString :=
  snprintf 256 (r.text avahi nSlots ++ ['\n'.toUInt8])

/-- What `write_hosts` writes for hosts that are resolved. -/
def hostsText (avahi : Avahi) (nSlots : ℤ) (rs : List Resolution) : CString :=
  rs.flatMap (hostLine avahi nSlots)

/-! ### What is asked for -/

/-- The host that is to be read for a line. -/
structure Reads (avahi : Avahi) (nSlots : ℤ) (r : Resolution) (entry : HostEntry) : Prop where
  mode : entry.mode = .tcp
  hostname : entry.hostname = avahi.print r.address
  port : entry.port = r.port.toNat
  nSlots : entry.nSlots = nSlots * r.nCpus

/-- **What is written is read**: the file is parsed, and there is a host for each line. -/
def RoundTrips (avahi : Avahi) (env : HostsEnv) (nSlots : ℤ) (rs : List Resolution) : Prop :=
  ∃ st entries, dccParseHosts env (hostsText avahi nSlots rs) = some (.ok st) ∧
    st.list.Holds entries ∧ List.Forall₂ (Reads avahi nSlots) rs entries

/-- The address is an IPv6 address. -/
def AvahiAddress.IsInet6 : AvahiAddress → Prop
  | .inet .. => False
  | .inet6 _ => True

instance : DecidablePred AvahiAddress.IsInet6
  | .inet .. => inferInstanceAs (Decidable False)
  | .inet6 _ => inferInstanceAs (Decidable True)

/-! ### One line -/

section Line

variable {avahi : Avahi} {nSlots : ℤ} {r : Resolution} {bytes : Fin 16 → UInt8}

/-- A number of slots that there can be. -/
def SlotsFit (nSlots : ℤ) (r : Resolution) : Prop :=
  0 < nSlots * r.nCpus ∧ nSlots * r.nCpus < 2 ^ 31
deriving Decidable

theorem SlotsFit.decimal_eq (h : SlotsFit nSlots r) :
    decimal (nSlots * r.nCpus) = natDecimal (nSlots * r.nCpus).natAbs :=
  if_neg (not_lt.mpr h.1.le)

theorem SlotsFit.isSlots (h : SlotsFit nSlots r) : IsSlots (decimal (nSlots * r.nCpus)) := by
  obtain ⟨hpos, hlt⟩ := h
  rw [SlotsFit.decimal_eq ⟨hpos, hlt⟩]
  refine ⟨isNumeral_natDecimal _, ?_⟩
  rw [ofNatDecimal_natDecimal]
  omega

theorem SlotsFit.ofNatDecimal_eq (h : SlotsFit nSlots r) :
    (ofNatDecimal (decimal (nSlots * r.nCpus)) : ℤ) = nSlots * r.nCpus := by
  rw [h.decimal_eq, ofNatDecimal_natDecimal, Int.natAbs_of_nonneg h.1.le]

theorem isPort_natDecimal (port : UInt16) : IsPort (natDecimal port.toNat) := by
  refine ⟨isNumeral_natDecimal _, ?_⟩
  rw [ofNatDecimal_natDecimal]
  exact Nat.le_of_lt_succ port.toNat_lt

/-- An IPv4 address is a name. -/
theorem isField_inet (a b c d : UInt8) : IsField (avahi.print (.inet a b c d)) := by
  have hall : ∀ x : UInt8, isDigit x = true ∨ x = '.'.toUInt8 →
      isSpace x = false ∧ x ∉ lit "#/=:,@[" :=
    forall_byte (by decide +kernel)
  exact ⟨avahi.print_ne_nil _, fun x hx => hall x (avahi.print_inet a b c d x hx)⟩

/-- A line is not cut off. -/
theorem hostLine_of_length_le (hslots : (decimal (nSlots * r.nCpus)).length ≤ 11) :
    hostLine avahi nSlots r = r.text avahi nSlots ++ ['\n'.toUInt8] := by
  have hport : (natDecimal r.port.toNat).length ≤ 5 :=
    length_natDecimal_le (by decide) (r.port.toNat_lt.trans (by decide))
  have hlen := avahi.print_length r.address
  unfold avahiAddressStrMax at hlen
  refine take_of_length_le ?_
  rw [Resolution.text]
  split <;> (simp only [length_append, length_cons, length_nil]; omega)

theorem hostLine_eq (h : SlotsFit nSlots r) :
    hostLine avahi nSlots r = r.text avahi nSlots ++ ['\n'.toUInt8] := by
  refine hostLine_of_length_le ?_
  rw [h.decimal_eq]
  obtain ⟨hpos, hlt⟩ := h
  exact length_natDecimal_le (by decide) (by omega)

/-- There is no newline in the text of a host. -/
theorem newline_notMem_text (avahi : Avahi) (nSlots : ℤ) (r : Resolution) :
    '\n'.toUInt8 ∉ r.text avahi nSlots := by
  have hdigits (n : ℕ) : '\n'.toUInt8 ∉ natDecimal n := fun hmem =>
    absurd ((isNumeral_natDecimal n).2 _ hmem) (by decide)
  have hslots : '\n'.toUInt8 ∉ decimal (nSlots * r.nCpus) := not_mem_decimal (by decide) (by decide)
  have hall : ∀ x : UInt8, (isDigit x = true ∨ x = '.'.toUInt8) ∨ IsInet6Byte x →
      x ≠ '\n'.toUInt8 := forall_byte (by decide +kernel)
  have hprint : '\n'.toUInt8 ∉ avahi.print r.address := fun hmem => by
    cases haddress : r.address with
    | inet a b c d => exact hall _ (.inl (avahi.print_inet a b c d _ (haddress ▸ hmem))) rfl
    | inet6 bytes => exact hall _ (.inr (avahi.print_inet6 bytes _ (haddress ▸ hmem))) rfl
  rw [Resolution.text]
  split <;> (simp only [mem_append, mem_cons, hprint, hdigits, hslots]; decide)

/-- A text that starts with another byte is not taken for something else. -/
theorem startsPlainly_cons {b : UInt8} {t : CString} (hminus : b ≠ '-'.toUInt8)
    (hl : b ≠ 'l'.toUInt8) : StartsPlainly (b :: t) := by
  constructor
  · rw [Bool.eq_false_iff]
    intro h
    obtain ⟨u, hu⟩ := startsWith_iff.mp h
    exact hminus (List.cons.inj hu).1
  · rintro ⟨h, -⟩
    obtain ⟨u, hu⟩ := startsWith_iff.mp h
    exact hl (List.cons.inj hu).1

/-- The host name that is read. -/
def readName (avahi : Avahi) (address : AvahiAddress) : CString :=
  match address with
  | .inet .. => avahi.print address
  | .inet6 _ => '['.toUInt8 :: avahi.print address

/-- The entry that is read. -/
def readEntry (avahi : Avahi) (nSlots : ℤ) (r : Resolution) : HostEntry where
  mode := .tcp
  hostname := readName avahi r.address
  port := r.port.toNat
  nSlots := nSlots * r.nCpus
  hostdefString := r.text avahi nSlots
  cppWhere := some .onClient

/-- What is asked of a line so that it is read as a host. -/
structure LineRead (avahi : Avahi) (nSlots : ℤ) (r : Resolution) : Prop where
  ne_nil : r.text avahi nSlots ≠ []
  plain : ∀ b ∈ r.text avahi nSlots, Plain b
  starts : StartsPlainly (r.text avahi nSlots)
  parse : ∀ s, parseHost ⟨r.text avahi nSlots, '\n'.toUInt8 :: s⟩ =
    .ok (readEntry avahi nSlots r)

/-- Behind the line there is no comment. -/
theorem head_newline_ne (s : CString) : ('\n'.toUInt8 :: s).head? ≠ some '#'.toUInt8 :=
  fun h => absurd (Option.some.inj h) (by decide)

theorem startsIn_newline (s : CString) : StartsIn wordEnd ('\n'.toUInt8 :: s) := by
  rintro b ⟨⟩
  decide

/-- A line with an IPv4 address is a definition of a host. -/
theorem lineRead_inet {a b c d : UInt8} (haddress : r.address = .inet a b c d)
    (h : SlotsFit nSlots r) : LineRead avahi nSlots r := by
  have hhost := @isField_inet avahi a b c d
  set host := avahi.print (.inet a b c d) with hhostdef
  set d := HostDef.tcp false host (some (natDecimal r.port.toNat))
    (some (decimal (nSlots * r.nCpus))) [] with hd
  have htext : r.text avahi nSlots = d.text := by
    rw [Resolution.text, haddress, hd, HostDef.text]
    simp [markedText, optionsText, host]
  have hstarts : StartsPlainly d.text := by
    obtain ⟨x, t, hx⟩ := exists_cons_of_ne_nil hhost.1
    have hbyte : isDigit x = true ∨ x = '.'.toUInt8 :=
      avahi.print_inet a b c _ x (by rw [← hhostdef, hx]; exact mem_cons_self)
    have hall : ∀ x : UInt8, isDigit x = true ∨ x = '.'.toUInt8 →
        x ≠ '-'.toUInt8 ∧ x ≠ 'l'.toUInt8 := forall_byte (by decide +kernel)
    rw [hd, HostDef.text, hx]
    exact startsPlainly_cons (hall x hbyte).1 (hall x hbyte).2
  have hwell : d.WellFormed := by
    refine ⟨hhost, ?_, ?_, fun hcpp => absurd hcpp not_mem_nil, hstarts⟩
    · rintro p ⟨⟩
      exact isPort_natDecimal r.port
    · rintro n ⟨⟩
      exact h.isSlots
  obtain ⟨hne, hplain⟩ := hwell.plain
  have hentry : d.entry = readEntry avahi nSlots r := by
    rw [hd, HostDef.entry, readEntry, haddress, htext, readName]
    simp only [numberOr, ofNatDecimal_natDecimal, h.ofNatDecimal_eq, hhostdef]
    rfl
  constructor
  case ne_nil => rwa [htext]
  case plain => rwa [htext]
  case starts => rwa [htext]
  case parse =>
    intro s
    have hread := parseHost_text hwell ⟨startsIn_newline s, fun h => absurd h (head_newline_ne s)⟩
    rw [htext, ← hentry]
    exact hread.resolve_right fun h => head_newline_ne s h.1

/-- The bytes of a line with an IPv6 address. -/
theorem mem_text_inet6 (haddress : r.address = .inet6 bytes)
    (h : SlotsFit nSlots r) {x : UInt8} (hx : x ∈ r.text avahi nSlots) :
    IsInet6Byte x ∨ isDigit x = true ∨ x ∈ lit "[]:/" := by
  rw [Resolution.text, haddress] at hx
  simp only [mem_cons, mem_append] at hx
  obtain rfl | hx | rfl | rfl | hx | rfl | hx := hx
  · exact .inr (.inr (by decide))
  · exact .inl (avahi.print_inet6 bytes x hx)
  · exact .inr (.inr (by decide))
  · exact .inr (.inr (by decide))
  · exact .inr (.inl ((isPort_natDecimal r.port).1.2 x hx))
  · exact .inr (.inr (by decide))
  · exact .inr (.inl (h.isSlots.1.2 x hx))

/-- A name in brackets is read up to the second of them, with the first one. -/
theorem tcpName_bracket (bytes : Fin 16 → UInt8) (t : CString) :
    tcpName ('['.toUInt8 :: (avahi.print (.inet6 bytes) ++ ']'.toUInt8 :: t)) =
      .ok ('['.toUInt8 :: avahi.print (.inet6 bytes), t) := by
  have hall : ∀ x : UInt8, IsInet6Byte x → x ∉ bracketEnd := forall_byte (by decide +kernel)
  have hfree : ∀ x ∈ '['.toUInt8 :: avahi.print (.inet6 bytes), x ∉ bracketEnd := by
    refine forall_mem_cons.mpr ⟨by decide, fun x hx => ?_⟩
    exact hall x (avahi.print_inet6 bytes x hx)
  have hend : StartsIn bracketEnd (']'.toUInt8 :: t) := by
    rintro b ⟨⟩
    decide
  have hpart := dccDupPart_free (cons_ne_nil _ _) hfree hend
  rw [cons_append] at hpart
  rw [tcpName, if_pos head?_cons, hpart]
  rfl

/-- **A line with an IPv6 address** is read as well, but the name starts with the bracket. -/
theorem lineRead_inet6 (haddress : r.address = .inet6 bytes)
    (h : SlotsFit nSlots r) : LineRead avahi nSlots r := by
  have hbytes : ∀ x : UInt8, IsInet6Byte x ∨ isDigit x = true ∨ x ∈ lit "[]:/" →
      Plain x ∧ x ≠ '@'.toUInt8 := forall_byte (by decide +kernel)
  have hmem {x : UInt8} (hx : x ∈ r.text avahi nSlots) := hbytes x (mem_text_inet6 haddress h hx)
  have htext (s : CString) : r.text avahi nSlots ++ s =
      '['.toUInt8 :: (avahi.print (.inet6 bytes) ++ ']'.toUInt8 ::
        (markedText ':'.toUInt8 (some (natDecimal r.port.toNat)) ++
          (markedText '/'.toUInt8 (some (decimal (nSlots * r.nCpus))) ++
            (optionsText [] ++ s)))) := by
    rw [Resolution.text, haddress]
    simp [markedText, optionsText]
  have hcons : ∃ t, r.text avahi nSlots = '['.toUInt8 :: t := by
    have hnil := htext []
    rw [append_nil] at hnil
    exact ⟨_, hnil⟩
  have hne : r.text avahi nSlots ≠ [] := by
    obtain ⟨t, ht⟩ := hcons
    exact ht ▸ cons_ne_nil _ _
  have hstarts : StartsPlainly (r.text avahi nSlots) := by
    obtain ⟨t, ht⟩ := hcons
    exact ht ▸ startsPlainly_cons (by decide) (by decide)
  constructor
  case ne_nil => exact hne
  case plain => exact fun b hb => (hmem hb).1
  case starts => exact hstarts
  case parse =>
    intro s
    have hcut : HostWord.Cut ⟨r.text avahi nSlots, '\n'.toUInt8 :: s⟩ :=
      ⟨hne, fun b hb => not_mem_wordEnd (hmem hb).1.2 (hmem hb).1.1, startsIn_newline s⟩
    have hat : '@'.toUInt8 ∉ r.text avahi nSlots := fun hx => (hmem hx).2 rfl
    have hname := (congrArg tcpName (htext ('\n'.toUInt8 :: s))).trans (tcpName_bracket bytes _)
    have hport := isPort_natDecimal r.port
    have hread := dccParseTcpHost_of_name (r.text avahi nSlots) hname hport
      (by rintro n ⟨⟩; exact h.isSlots) (fun hcpp => absurd hcpp not_mem_nil)
      (startsIn_newline s)
    rw [parseHost, isLocalhost_of_startsPlainly hcut hstarts, if_neg Bool.false_ne_true, if_neg hat]
    refine (hread.resolve_right fun h => head_newline_ne s h.1).trans ?_
    rw [readEntry, haddress, readName]
    simp only [HostDef.entry, numberOr, ofNatDecimal_natDecimal, h.ofNatDecimal_eq]
    rfl

theorem lineRead (h : SlotsFit nSlots r) : LineRead avahi nSlots r := by
  cases haddress : r.address with
  | inet a b c d => exact lineRead_inet haddress h
  | inet6 bytes => exact lineRead_inet6 haddress h

end Line

/-! ### The whole file -/

section File

variable {avahi : Avahi} {nSlots : ℤ} {rs : List Resolution} {r : Resolution}

/-- A line is one word. -/
theorem hostWords_hostLine (h : SlotsFit nSlots r) (s : CString) :
    hostWords (hostLine avahi nSlots r ++ s) =
      ⟨r.text avahi nSlots, '\n'.toUInt8 :: s⟩ :: hostWords s := by
  obtain ⟨hne, hplain, -, -⟩ := @lineRead avahi nSlots r h
  rw [hostLine_eq h, append_assoc, singleton_append,
    hostWords_plain hne hplain (startsIn_newline s), hostWords_space _ (by decide)]

/-- The words of the file. None of them is `+zeroconf`, which a program that is built with
Avahi would take for a request to read this file. -/
theorem hostWords_hostsText (h : ∀ r ∈ rs, SlotsFit nSlots r) :
    (hostWords (hostsText avahi nSlots rs)).map HostWord.text =
        rs.map (Resolution.text avahi nSlots) ∧
      ∀ r ∈ rs, r.text avahi nSlots ≠ lit "+zeroconf" := by
  constructor
  · induction rs with
    | nil => rfl
    | cons r rs ih =>
      obtain ⟨hr, hrs⟩ := forall_mem_cons.mp h
      rw [hostsText, flatMap_cons, hostWords_hostLine hr, map_cons, map_cons]
      exact congrArg _ (ih hrs)
  · intro r _ heq
    have hslash : '/'.toUInt8 ∈ r.text avahi nSlots := by
      rw [Resolution.text]
      split <;> simp
    exact absurd (heq ▸ hslash) (by decide)

/-- A line is read as a host. -/
theorem foldlM_hostLine (h : SlotsFit nSlots r) (s : CString) (st : HostsState) :
    (hostWords (hostLine avahi nSlots r ++ s)).foldlM parseWord st =
      (hostWords s).foldlM parseWord
        { st with list := st.list.add (readEntry avahi nSlots r) } := by
  obtain ⟨hne, hplain, hstarts, hparse⟩ := @lineRead avahi nSlots r h
  have hcut : HostWord.Cut ⟨r.text avahi nSlots, '\n'.toUInt8 :: s⟩ :=
    ⟨hne, fun b hb => not_mem_wordEnd (hplain b hb).2 (hplain b hb).1, startsIn_newline s⟩
  have hword : parseWord st ⟨r.text avahi nSlots, '\n'.toUInt8 :: s⟩ =
      .ok { st with list := st.list.add (readEntry avahi nSlots r) } := by
    rw [parseWord_of_not_keyword st (isKeyword_of_startsPlainly hcut hstarts.1), hparse]
    rfl
  rw [hostWords_hostLine h, foldlM_cons, hword, Except.ok_bind]

theorem foldlM_hostsText (h : ∀ r ∈ rs, SlotsFit nSlots r) (st : HostsState) :
    (hostWords (hostsText avahi nSlots rs)).foldlM parseWord st =
      .ok { st with list := (rs.map (readEntry avahi nSlots)).foldl HostList.add st.list } := by
  induction rs generalizing st with
  | nil => rfl
  | cons r rs ih =>
    obtain ⟨hr, hrs⟩ := forall_mem_cons.mp h
    rw [hostsText, flatMap_cons, foldlM_hostLine hr]
    exact ih hrs _

/-- **What is read**: a host for each line, in the same order. -/
theorem dccParseHosts_hostsText (env : HostsEnv) (h : ∀ r ∈ rs, SlotsFit nSlots r)
    (hne : rs ≠ []) : ∃ st, dccParseHosts env (hostsText avahi nSlots rs) = some (.ok st) ∧
      st.list.Holds (rs.map (readEntry avahi nSlots)) := by
  obtain ⟨-, hsome⟩ := dccParseHosts_of_foldlM env (@foldlM_hostsText avahi nSlots rs h {})
  obtain ⟨st, hparse, hholds, -⟩ := hsome (by simpa using hne)
  exact ⟨st, hparse, hholds⟩

/-- The name is that of the address, unless this is an IPv6 address. -/
theorem readName_eq_iff {address : AvahiAddress} :
    readName avahi address = avahi.print address ↔ ¬ address.IsInet6 := by
  cases address with
  | inet a b c d => exact iff_of_true rfl not_false
  | inet6 bytes =>
    refine iff_of_false (fun h => ?_) (not_not.mpr trivial)
    exact absurd (congrArg List.length h) (Nat.succ_ne_self _)

theorem reads_readEntry_iff :
    Reads avahi nSlots r (readEntry avahi nSlots r) ↔ ¬ r.address.IsInet6 :=
  ⟨fun h => readName_eq_iff.mp h.hostname, fun h => ⟨rfl, readName_eq_iff.mpr h, rfl, rfl⟩⟩

/-- **The file is read as it was written** exactly if there is a host in it and none of the
hosts has an IPv6 address. -/
theorem hostsText_roundTrips_iff (env : HostsEnv) (h : ∀ r ∈ rs, SlotsFit nSlots r) :
    RoundTrips avahi env nSlots rs ↔ rs ≠ [] ∧ ∀ r ∈ rs, ¬ r.address.IsInet6 := by
  constructor
  · rintro ⟨st, entries, hparse, hholds, hreads⟩
    have hne : rs ≠ [] := by
      rintro rfl
      cases hparse
    obtain ⟨st', hparse', hholds'⟩ := @dccParseHosts_hostsText avahi nSlots rs env h hne
    obtain rfl := Except.ok.inj (Option.some.inj (hparse.symm.trans hparse'))
    obtain rfl := hholds.unique hholds'
    rw [List.forall₂_map_right_iff, List.forall₂_same] at hreads
    exact ⟨hne, fun r hr => reads_readEntry_iff.mp (hreads r hr)⟩
  · rintro ⟨hne, hinet⟩
    obtain ⟨st, hparse, hholds⟩ := @dccParseHosts_hostsText avahi nSlots rs env h hne
    refine ⟨st, _, hparse, hholds, ?_⟩
    rw [List.forall₂_map_right_iff, List.forall₂_same]
    exact fun r hr => reads_readEntry_iff.mpr (hinet r hr)

/-- The two digits of a byte. -/
def hexByte (b : UInt8) : CString := [hexDigit (b.toNat / 16), hexDigit (b.toNat % 16)]

theorem isInet6Byte_of_mem_hexByte (b : UInt8) : ∀ x ∈ hexByte b, IsInet6Byte x :=
  forall_byte (P := fun b => ∀ x ∈ hexByte b, IsInet6Byte x) (by decide +kernel) b

/-- Addresses that are printed with all of their digits. -/
def printDigits : AvahiAddress → CString
  | .inet a b c d =>
    natDecimal a.toNat ++ '.'.toUInt8 :: (natDecimal b.toNat ++ '.'.toUInt8 ::
      (natDecimal c.toNat ++ '.'.toUInt8 :: natDecimal d.toNat))
  | .inet6 bytes => ((List.finRange 8).flatMap fun i : Fin 8 =>
      ':'.toUInt8 :: (hexByte (bytes ⟨2 * i, by omega⟩) ++
        hexByte (bytes ⟨2 * i + 1, by omega⟩))).tail

theorem length_printDigits (address : AvahiAddress) :
    (printDigits address).length < avahiAddressStrMax := by
  cases address with
  | inet a b c d =>
    have hbyte (x : UInt8) : (natDecimal x.toNat).length ≤ 3 :=
      length_natDecimal_le (by decide) (x.toNat_lt.trans (by decide))
    have ha := hbyte a
    have hb := hbyte b
    have hc := hbyte c
    have hd := hbyte d
    simp only [printDigits, avahiAddressStrMax, length_append, length_cons]
    omega
  | inet6 bytes => simp [printDigits, avahiAddressStrMax, hexByte]

/-- A machine that has addresses printed so, and compares names byte by byte. -/
def Avahi.simple : Avahi where
  print := printDigits
  print_ne_nil
    | .inet .. => append_ne_nil_of_right_ne_nil _ (cons_ne_nil _ _)
    | .inet6 _ => cons_ne_nil _ _
  print_inet a b c d x hx := by
    have hdigit (n : ℕ) (hx : x ∈ natDecimal n) := (isNumeral_natDecimal n).2 x hx
    simp only [printDigits, mem_append, mem_cons] at hx
    obtain h | h | h | h | h | h | h := hx
    all_goals first
      | exact .inl (hdigit _ h)
      | exact .inr h
  print_inet6 bytes x hx := by
    rw [printDigits] at hx
    obtain ⟨i, -, hi⟩ := mem_flatMap.mp (mem_of_mem_tail hx)
    rcases mem_cons.mp hi with rfl | hi
    · exact .inr (.inl rfl)
    · exact (mem_append.mp hi).elim (isInet6Byte_of_mem_hexByte _ x)
        (isInet6Byte_of_mem_hexByte _ x)
  print_length := length_printDigits
  domainEqual s t := s == t
  domainEqual_refl := by simp
  domainEqual_symm := by simp
  domainEqual_trans := by simp

/-- The address `::1`. -/
def inet6Loopback : AvahiAddress := .inet6 fun i => if i.val = 15 then 1 else 0

/-- Two hosts, one with an IPv6 address, are two words. -/
theorem hostWords_hostsText_two :
    (hostWords (hostsText .simple 4 [⟨inet6Loopback, 80, 1⟩, ⟨.inet 10 0 0 9, 80, 1⟩])).map
      HostWord.text =
        ["[0000:0000:0000:0000:0000:0000:0000:0001]:80/4", "10.0.0.9:80/4"].map lit :=
  (@hostWords_hostsText .simple 4 _ (by decide)).1.trans (by decide +kernel)

/-- Two hosts with IPv4 addresses are read as they were written. -/
theorem hostsText_roundTrips_iff_two : RoundTrips .simple .reversing 4
    [⟨.inet 10 0 0 7, 3632, 8⟩, ⟨.inet 10 0 0 9, 80, 1⟩] :=
  (hostsText_roundTrips_iff .reversing (by decide)).mpr (by decide)

/-- **An IPv6 address** is not read as it was written: the name of `::1` starts with the
bracket. -/
theorem not_roundTrips_inet6 :
    ¬ RoundTrips .simple .reversing 4 [⟨inet6Loopback, 3632, 2⟩] := by
  rintro ⟨st, entries, hparse, hholds, hreads⟩
  obtain ⟨st', hparse', hholds'⟩ := @dccParseHosts_hostsText .simple 4
    [⟨inet6Loopback, 3632, 2⟩] .reversing (by decide) (cons_ne_nil _ _)
  obtain rfl := Except.ok.inj (Option.some.inj (hparse.symm.trans hparse'))
  obtain rfl := hholds.unique hholds'
  obtain ⟨hread, -⟩ := List.forall₂_cons.mp hreads
  exact absurd hread.hostname (by decide +kernel)

end File

end Distcc.Zeroconf
