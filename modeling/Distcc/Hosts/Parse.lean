import Distcc.Base.Numeral
import Distcc.Base.Prog
import Distcc.Exitcode
import Distcc.Hosts

/-!
# A word of the host list

Model of the functions of `src/hosts.c` that read one host: `dcc_parse_multiplier`,
`dcc_parse_options`, and one function for each of the three kinds of hosts. They are given
the text from the word on, to the end of the list and not to the end of the word, and what
is behind the last thing they know how to read they do not look at.

It is assumed that there is memory enough, and that the program was built without GSSAPI.
-/

namespace Distcc

open CString

/-- `struct dcc_hostdef`, as the parser fills it in. The memory of an entry is cleared at
first, and no value of `enum dcc_cpp_where` is 0. -/
structure HostEntry where
  /-- `mode` -/
  mode : HostMode
  /-- `user` -/
  user : Option CString := none
  /-- `hostname` -/
  hostname : CString
  /-- `port` -/
  port : ℤ := 0
  /-- `ssh_command` -/
  sshCommand : Option CString := none
  /-- `is_up` -/
  isUp : Bool := true
  /-- `n_slots` -/
  nSlots : ℤ
  /-- `hostdef_string` -/
  hostdefString : CString
  /-- `protover` -/
  protover : Protover := .ver1
  /-- `compr` -/
  compr : Compress := .none
  /-- `cpp_where` -/
  cppWhere : Option CppWhere := none
  deriving DecidableEq

/-! ### Parts of a word -/

/-- `dcc_dup_part`: what stands before the first of the separators, if there is anything,
and the cursor behind it. -/
def dccDupPart (src sep : CString) : Option CString × CString :=
  let part := src.takeWhile (· ∉ sep)
  (if part = [] then none else some part, src.dropWhile (· ∉ sep))

/-- A `/` or a `=` stands in front of a number of slots. -/
def isSlotMark (b : UInt8) : Bool := b = '/'.toUInt8 ∨ b = '='.toUInt8

/-- `dcc_parse_multiplier`, with the number of slots there are, and the cursor behind the
digits. -/
def dccParseMultiplier (src : CString) (nSlots : ℤ) : Except ExitCode (ℤ × CString) :=
  match src with
  | [] => .ok (nSlots, [])
  | b :: s =>
    if isSlotMark b then
      if atoi s = 0 then .error .badHostspec else .ok (atoi s, s.dropWhile isDigit)
    else .ok (nSlots, b :: s)

/-- A multiplier that `atoi` takes for 0. -/
def ZeroMultiplier (src : CString) : Prop := ∃ b s, src = b :: s ∧ isSlotMark b = true ∧ atoi s = 0

/-- The one error there is with a multiplier. -/
theorem dccParseMultiplier_eq_error_iff {src : CString} {nSlots : ℤ} {ret : ExitCode} :
    dccParseMultiplier src nSlots = .error ret ↔ ret = .badHostspec ∧ ZeroMultiplier src := by
  constructor
  · intro h
    unfold dccParseMultiplier at h
    split at h
    · cases h
    · case h_2 b s =>
      split at h
      · case isTrue hmark =>
        split at h
        · case isTrue hzero => exact ⟨(Except.error.inj h).symm, b, s, rfl, hmark, hzero⟩
        · cases h
      · cases h
  · rintro ⟨rfl, b, s, rfl, hmark, hzero⟩
    rw [dccParseMultiplier, if_pos hmark, if_pos hzero]

/-- The options of a host. -/
inductive HostOption where
  /-- `lzo`: compression -/
  | lzo
  /-- `down`: the host is not used -/
  | down
  /-- `cpp`: the server runs the preprocessor -/
  | cpp
  deriving DecidableEq, Repr

/-- The word for an option. -/
def HostOption.name : HostOption → CString
  | .lzo => lit "lzo"
  | .down => lit "down"
  | .cpp => lit "cpp"

/-- What the options of a host set. -/
structure HostFeatures where
  /-- `compr` -/
  compr : Compress := .none
  /-- `cpp_where` -/
  cppWhere : CppWhere := .onClient
  /-- `is_up` -/
  isUp : Bool := true
  deriving DecidableEq

/-- An option is set. -/
def HostFeatures.set (f : HostFeatures) : HostOption → HostFeatures
  | .lzo => { f with compr := .lzo1x }
  | .down => { f with isUp := false }
  | .cpp => { f with cppWhere := .onServer }

/-- The option at the cursor, and the cursor behind it. -/
def takeOption (p : CString) : Option (HostOption × CString) :=
  [HostOption.lzo, .down, .cpp].findSome? fun o =>
    if startsWith o.name p then some (o, p.drop o.name.length) else none

/-- The loop of `dcc_parse_options`, of at most so many turns. -/
def optionsLoop : ℕ → HostFeatures → CString → Except ExitCode (HostFeatures × CString)
  | 0, f, p => .ok (f, p)
  | turns + 1, f, p =>
    match p with
    | [] => .ok (f, [])
    | b :: p =>
      if b = ','.toUInt8 then
        match takeOption p with
        | some (o, p) => optionsLoop turns (f.set o) p
        | none => .error .badHostspec
      else .ok (f, b :: p)

/-- `dcc_get_protover_from_features`: preprocessing on the server needs compression. -/
def dccGetProtoverFromFeatures : Compress → CppWhere → Option Protover
  | .none, .onClient => some .ver1
  | .lzo1x, .onServer => some .ver3
  | .lzo1x, .onClient => some .ver2
  | .none, .onServer => none

/-- `dcc_parse_options`. A turn of its loop reads a byte at least. -/
def dccParseOptions (src : CString) : Except ExitCode (HostFeatures × Protover × CString) :=
  match optionsLoop src.length {} src with
  | .error ret => .error ret
  | .ok (f, p) =>
    match dccGetProtoverFromFeatures f.compr f.cppWhere with
    | none => .error .badHostspec
    | some protover => .ok (f, protover, p)

/-! ### Three kinds of hosts -/

/-- What ends the name of a host. -/
def nameEnd : CString := lit "/: \t\n\r\x0c,"

/-- What ends an address in brackets. -/
def bracketEnd : CString := lit "/] \t\n\r\x0c,"

/-- What ends a command. -/
def commandEnd : CString := lit " \t\n\r\x0c,"

/-- The user and the name of an ssh host, and the cursor behind them. -/
def sshName (token : CString) : Except ExitCode (Option CString × CString × CString) :=
  let (user, s) := dccDupPart token (lit "@")
  match s with
  | [] => .error .badHostspec
  | b :: s =>
    if b = '@'.toUInt8 then
      match dccDupPart s nameEnd with
      | (none, _) => .error .badHostspec
      | (some hostname, s) => .ok (user, hostname, s)
    else .error .badHostspec

/-- The command of an ssh host, if there is one, and the cursor behind it. -/
def sshCommand (s : CString) : Option CString × CString :=
  match s with
  | [] => (none, [])
  | b :: s => if b = ':'.toUInt8 then dccDupPart s commandEnd else (none, b :: s)

/-- `dcc_parse_ssh_host` -/
def dccParseSshHost (token hostdefString : CString) : Except ExitCode HostEntry := do
  let (user, hostname, s) ← sshName token
  let (nSlots, s) ← dccParseMultiplier s 4
  let (command, s) := sshCommand s
  let (f, protover, _) ← dccParseOptions s
  return { mode := .ssh, user, hostname, sshCommand := command, isUp := f.isUp, nSlots,
           hostdefString, protover, compr := f.compr, cppWhere := some f.cppWhere }

/-- The name of a tcp host, and the cursor behind it. An address in brackets keeps the
first of them. -/
def tcpName (token : CString) : Except ExitCode (CString × CString) :=
  if token.head? = some '['.toUInt8 then
    match dccDupPart token bracketEnd with
    | (some hostname, b :: s) =>
      if b = ']'.toUInt8 then .ok (hostname, s) else .error .badHostspec
    | _ => .error .badHostspec
  else
    match dccDupPart token nameEnd with
    | (none, _) => .error .badHostspec
    | (some hostname, s) => .ok (hostname, s)

/-- What may stand behind a port. -/
def portEnds (tail : CString) : Bool :=
  match tail with
  | [] => true
  | b :: _ => isSpace b || b = '/'.toUInt8 || b = ','.toUInt8

/-- The port of a tcp host, and the cursor behind it: the default if there is no colon, and
otherwise what `strtol` makes of the text behind it. -/
def tcpPort (s : CString) : Except ExitCode (ℤ × CString) :=
  match s with
  | [] => .ok (3632, [])
  | b :: s =>
    if b = ':'.toUInt8 then
      if portEnds (strtol s).2 then .ok ((strtol s).1.bmod (2 ^ 32), (strtol s).2)
      else .error .badHostspec
    else .ok (3632, b :: s)

/-- `dcc_parse_tcp_host` -/
def dccParseTcpHost (token hostdefString : CString) : Except ExitCode HostEntry := do
  let (hostname, s) ← tcpName token
  let (nSlots, s) ← dccParseMultiplier s 4
  let (port, s) ← tcpPort s
  let (nSlots, s) ← dccParseMultiplier s nSlots
  let (f, protover, _) ← dccParseOptions s
  return { mode := .tcp, hostname, port, isUp := f.isUp, nSlots, hostdefString, protover,
           compr := f.compr, cppWhere := some f.cppWhere }

/-- `dcc_parse_localhost` -/
def dccParseLocalhost (token hostdefString : CString) : Except ExitCode HostEntry := do
  let (nSlots, _) ← dccParseMultiplier (token.drop 9) 2
  return { mode := .localhost, hostname := lit "localhost", nSlots, hostdefString }

/-! ### Words -/

/-- A word of the list, and what comes after it. -/
structure HostWord where
  /-- The word. -/
  text : CString
  /-- The rest of the list. -/
  rest : CString
  deriving DecidableEq

/-- What the parser is given. -/
def HostWord.cursor (word : HostWord) : CString := word.text ++ word.rest

/-- Is the word for a local host? -/
def HostWord.isLocalhost (word : HostWord) : Bool :=
  startsWith (lit "localhost") word.cursor &&
    (word.text.length = 9 || word.cursor[9]? = some '/'.toUInt8)

/-- A host is read, in `dcc_parse_hosts`. Which kind it is of is found out from the word
alone. -/
def parseHost (word : HostWord) : Except ExitCode HostEntry :=
  if word.isLocalhost then dccParseLocalhost word.cursor word.text
  else if '@'.toUInt8 ∈ word.text then dccParseSshHost word.cursor word.text
  else dccParseTcpHost word.cursor word.text

/-! ### How an entry comes about -/

section Entries

variable {token str : CString} {entry : HostEntry}

/-- The name, the slots and the command of an ssh host. -/
theorem dccParseSshHost_ok (h : dccParseSshHost token str = .ok entry) :
    ∃ s t, sshName token = .ok (entry.user, entry.hostname, s) ∧
      dccParseMultiplier s 4 = .ok (entry.nSlots, t) ∧ entry.sshCommand = (sshCommand t).1 := by
  obtain ⟨⟨user, hostname, s⟩, hname, h⟩ := Except.bind_eq_ok_iff.mp h
  obtain ⟨⟨nSlots, t⟩, hslots, h⟩ := Except.bind_eq_ok_iff.mp h
  obtain ⟨⟨f, protover, u⟩, -, h⟩ := Except.bind_eq_ok_iff.mp h
  obtain rfl := Except.ok.inj h
  exact ⟨s, t, hname, hslots, rfl⟩

/-- The name and the slots of a tcp host. -/
theorem dccParseTcpHost_ok (h : dccParseTcpHost token str = .ok entry) :
    ∃ s n t u v, tcpName token = .ok (entry.hostname, s) ∧ dccParseMultiplier s 4 = .ok (n, t) ∧
      tcpPort t = .ok (entry.port, u) ∧ dccParseMultiplier u n = .ok (entry.nSlots, v) := by
  obtain ⟨⟨hostname, s⟩, hname, h⟩ := Except.bind_eq_ok_iff.mp h
  obtain ⟨⟨n, t⟩, hslots, h⟩ := Except.bind_eq_ok_iff.mp h
  obtain ⟨⟨port, u⟩, hport, h⟩ := Except.bind_eq_ok_iff.mp h
  obtain ⟨⟨m, v⟩, hslots', h⟩ := Except.bind_eq_ok_iff.mp h
  obtain ⟨⟨f, protover, _⟩, -, h⟩ := Except.bind_eq_ok_iff.mp h
  obtain rfl := Except.ok.inj h
  exact ⟨s, n, t, u, v, hname, hslots, hport, hslots'⟩

/-- The slots of a local host. -/
theorem dccParseLocalhost_ok (h : dccParseLocalhost token str = .ok entry) :
    ∃ s, dccParseMultiplier (token.drop 9) 2 = .ok (entry.nSlots, s) := by
  obtain ⟨⟨nSlots, s⟩, hslots, h⟩ := Except.bind_eq_ok_iff.mp h
  obtain rfl := Except.ok.inj h
  exact ⟨s, hslots⟩

end Entries

example : parseHost ⟨lit "u@h/3:/bin/distccd,lzo", lit " x"⟩ = .ok
    { mode := .ssh, user := some (lit "u"), hostname := lit "h",
      sshCommand := some (lit "/bin/distccd"), nSlots := 3,
      hostdefString := lit "u@h/3:/bin/distccd,lzo", protover := .ver2, compr := .lzo1x,
      cppWhere := some .onClient } := by
  decide +kernel

end Distcc
