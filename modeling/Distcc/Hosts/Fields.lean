import Distcc.Hosts.Scan

/-!
# The fields of a host definition

The comment at the top of `src/hosts.c` describes how hosts are written. Here the grammar
is a type of definitions (`HostDef`), with the text of each of them, what is asked
of its fields, and the entry it stands for.

Each function of the parser reads a field and stops where it ends, since what comes next is
no part of such a field (`StartsIn`).
-/

namespace Distcc

open CString List

/-! ### Definitions -/

/-- **A host definition**: what can be written for a host, and its fields as they are
written. -/
inductive HostDef where
  /-- `localhost[/LIMIT]` -/
  | localhost (slots : Option CString)
  /-- `[USER]@HOSTID[/LIMIT][:COMMAND][OPTIONS]` -/
  | ssh (user : Option CString) (host : CString) (slots command : Option CString)
      (opts : List HostOption)
  /-- `HOSTID[:PORT][/LIMIT][OPTIONS]`, and in the old style `HOSTID[/LIMIT][:PORT][OPTIONS]` -/
  | tcp (oldStyle : Bool) (host : CString) (port slots : Option CString) (opts : List HostOption)
  deriving DecidableEq

/-- A field that may be missing, behind a mark. -/
def markedText (mark : UInt8) : Option CString → CString
  | none => []
  | some s => mark :: s

/-- Options, each behind a comma. -/
def optionsText (opts : List HostOption) : CString := opts.flatMap fun o => ','.toUInt8 :: o.name

/-- How a definition is written. -/
def HostDef.text : HostDef → CString
  | .localhost slots => lit "localhost" ++ markedText '/'.toUInt8 slots
  | .ssh user host slots command opts =>
    user.getD [] ++ '@'.toUInt8 :: (host ++ (markedText '/'.toUInt8 slots ++
      (markedText ':'.toUInt8 command ++ optionsText opts)))
  | .tcp true host port slots opts =>
    host ++ (markedText '/'.toUInt8 slots ++ (markedText ':'.toUInt8 port ++ optionsText opts))
  | .tcp false host port slots opts =>
    host ++ (markedText ':'.toUInt8 port ++ (markedText '/'.toUInt8 slots ++ optionsText opts))

/-- A user or a host: no white space, and none of the bytes that have a meaning. -/
def IsField (s : CString) : Prop :=
  s ≠ [] ∧ ∀ b ∈ s, isSpace b = false ∧ b ∉ lit "#/=:,@["
deriving Decidable

/-- A command may also have slashes and colons. -/
def IsCommand (s : CString) : Prop :=
  s ≠ [] ∧ ∀ b ∈ s, isSpace b = false ∧ b ∉ lit "#=,@["
deriving Decidable

/-- A number of slots. -/
def IsSlots (s : CString) : Prop :=
  s.IsNumeral ∧ 1 ≤ ofNatDecimal s ∧ ofNatDecimal s < 2 ^ 31
deriving Decidable

/-- A port. -/
def IsPort (s : CString) : Prop := s.IsNumeral ∧ ofNatDecimal s ≤ 65535
deriving Decidable

/-- The text is not taken for something else. -/
def StartsPlainly (text : CString) : Prop :=
  startsWith (lit "--") text = false ∧
    ¬(startsWith (lit "localhost") text = true ∧
      (text.length = 9 ∨ text[9]? = some '/'.toUInt8))
deriving Decidable

/-- The server preprocesses only what is compressed. -/
def OptionsFit (opts : List HostOption) : Prop := .cpp ∈ opts → .lzo ∈ opts
deriving Decidable

/-- **What is asked of a definition.** -/
def HostDef.WellFormed : HostDef → Prop
  | .localhost slots => ∀ n ∈ slots, IsSlots n
  | .ssh user host slots command opts =>
    (∀ u ∈ user, IsField u) ∧ IsField host ∧ (∀ n ∈ slots, IsSlots n) ∧
      (∀ c ∈ command, IsCommand c) ∧ OptionsFit opts ∧
      StartsPlainly (HostDef.ssh user host slots command opts).text
  | .tcp oldStyle host port slots opts =>
    IsField host ∧ (∀ p ∈ port, IsPort p) ∧ (∀ n ∈ slots, IsSlots n) ∧ OptionsFit opts ∧
      StartsPlainly (HostDef.tcp oldStyle host port slots opts).text

instance : DecidablePred HostDef.WellFormed
  | .localhost _ => inferInstanceAs (Decidable (∀ n ∈ _, _))
  | .ssh .. => inferInstanceAs (Decidable (_ ∧ _ ∧ _ ∧ _ ∧ _ ∧ _))
  | .tcp .. => inferInstanceAs (Decidable (_ ∧ _ ∧ _ ∧ _ ∧ _))

/-- The number that is written, or the default. -/
def numberOr (default : ℤ) : Option CString → ℤ
  | none => default
  | some s => ofNatDecimal s

/-- Compression, if the option is given. -/
def comprOf (opts : List HostOption) : Compress := if .lzo ∈ opts then .lzo1x else .none

/-- Where the preprocessor runs. -/
def cppWhereOf (opts : List HostOption) : CppWhere := if .cpp ∈ opts then .onServer else .onClient

/-- The version of the protocol that the options need. -/
def protoverOf (opts : List HostOption) : Protover :=
  if .cpp ∈ opts then .ver3 else if .lzo ∈ opts then .ver2 else .ver1

/-- **The entry a definition stands for.** -/
def HostDef.entry (d : HostDef) : HostEntry :=
  match d with
  | .localhost slots =>
    { mode := .localhost, hostname := lit "localhost", nSlots := numberOr 2 slots,
      hostdefString := d.text }
  | .ssh user host slots command opts =>
    { mode := .ssh, user := user, hostname := host, sshCommand := command,
      isUp := decide (.down ∉ opts), nSlots := numberOr 4 slots, hostdefString := d.text,
      protover := protoverOf opts, compr := comprOf opts, cppWhere := some (cppWhereOf opts) }
  | .tcp _ host port slots opts =>
    { mode := .tcp, hostname := host, port := numberOr 3632 port,
      isUp := decide (.down ∉ opts), nSlots := numberOr 4 slots, hostdefString := d.text,
      protover := protoverOf opts, compr := comprOf opts, cppWhere := some (cppWhereOf opts) }

/-! ### What comes next -/

/-- The text ends, or goes on with one of these bytes. -/
def StartsIn (bytes text : CString) : Prop := ∀ b ∈ text.head?, b ∈ bytes
deriving Decidable

section Next

variable {bytes bytes' s rest : CString}

theorem StartsIn.mono (h : StartsIn bytes s) (hle : ∀ b ∈ bytes, b ∈ bytes') :
    StartsIn bytes' s := fun b hb => hle b (h b hb)

theorem startsIn_marked {mark : UInt8} {field : Option CString} (h : StartsIn bytes s) :
    StartsIn (mark :: bytes) (markedText mark field ++ s) := by
  cases field with
  | none => exact h.mono fun _ hb => mem_cons_of_mem _ hb
  | some t =>
    rintro b ⟨⟩
    exact mem_cons_self

theorem startsIn_options (opts : List HostOption) (h : StartsIn bytes s) :
    StartsIn (44 :: bytes) (optionsText opts ++ s) := by
  cases opts with
  | nil => exact h.mono fun _ hb => mem_cons_of_mem _ hb
  | cons o opts =>
    rintro b ⟨⟩
    exact mem_cons_self

/-- What goes on with none of the bytes a function looks for. -/
theorem StartsIn.all (h : StartsIn bytes s) {p : UInt8 → Prop} (hp : ∀ b ∈ bytes, p b) :
    ∀ b ∈ s.head?, p b := fun b hb => hp b (h b hb)

end Next

/-! ### Fields are read -/

section Fields

variable {s t : CString} {user : Option CString}

theorem dccDupPart_free {sep : CString} (hne : s ≠ []) (hs : ∀ b ∈ s, b ∉ sep)
    (ht : StartsIn sep t) : dccDupPart (s ++ t) sep = (some s, t) := by
  obtain ⟨htake, hdrop⟩ := span_free hs ht
  simp only [dccDupPart, htake, hdrop, if_neg hne]

/-- What ends a name is white space, or has a meaning. -/
theorem IsField.free_nameEnd (h : IsField s) : ∀ b ∈ s, b ∉ nameEnd := by
  intro b hb hmem
  have hall : ∀ b ∈ nameEnd, isSpace b = true ∨ b ∈ lit "#/=:,@[" := by decide
  obtain hspace | hmean := hall b hmem
  · exact absurd hspace (Bool.eq_false_iff.mp (h.2 b hb).1)
  · exact (h.2 b hb).2 hmean

theorem IsCommand.free_commandEnd (h : IsCommand s) : ∀ b ∈ s, b ∉ commandEnd := by
  intro b hb hmem
  have hall : ∀ b ∈ commandEnd, isSpace b = true ∨ b ∈ lit "#=,@[" := by decide
  obtain hspace | hmean := hall b hmem
  · exact absurd hspace (Bool.eq_false_iff.mp (h.2 b hb).1)
  · exact (h.2 b hb).2 hmean

/-- The bytes that have a meaning do not stand in a field. -/
theorem IsField.not_mem (h : IsField s) {b : UInt8} (hb : b ∈ lit "#/=:,@[") : b ∉ s :=
  fun hmem => (h.2 b hmem).2 hb

/-- A field does not start with a bracket. -/
theorem tcpName_plain (hs : IsField s) (t : CString) :
    tcpName (s ++ t) =
      match dccDupPart (s ++ t) nameEnd with
      | (none, _) => .error .badHostspec
      | (some hostname, s) => .ok (hostname, s) := by
  obtain ⟨b, s', rfl⟩ := exists_cons_of_ne_nil hs.1
  have hbracket : ¬(b :: s' ++ t).head? = some '['.toUInt8 := by
    intro heq
    obtain rfl : b = '['.toUInt8 := Option.some.inj heq
    exact hs.not_mem (by decide) mem_cons_self
  refine (if_neg hbracket).trans ?_
  rcases dccDupPart (b :: s' ++ t) nameEnd with ⟨_ | _, _⟩ <;> rfl

theorem tcpName_field (hs : IsField s) (ht : StartsIn nameEnd t) :
    tcpName (s ++ t) = .ok (s, t) := by
  rw [tcpName_plain hs, dccDupPart_free hs.1 hs.free_nameEnd ht]

/-- Behind the user there is the name. -/
theorem sshName_user (huser : ∀ u ∈ user, IsField u) (t : CString) :
    sshName (user.getD [] ++ '@'.toUInt8 :: t) =
      match dccDupPart t nameEnd with
      | (none, _) => .error .badHostspec
      | (some hostname, s) => .ok (user, hostname, s) := by
  have hat : StartsIn (lit "@") ('@'.toUInt8 :: t) := by
    rintro b ⟨⟩
    decide
  have hpart : dccDupPart (user.getD [] ++ '@'.toUInt8 :: t) (lit "@") =
      (user, '@'.toUInt8 :: t) := by
    cases user with
    | none =>
      obtain ⟨htake, hdrop⟩ := span_free (p := []) (fun _ h => nomatch h) hat
      rw [nil_append] at htake hdrop
      simp only [dccDupPart, Option.getD_none, nil_append, htake, hdrop, if_pos]
    | some u =>
      have hu := huser u rfl
      refine dccDupPart_free hu.1 (fun b hb hmem => ?_) hat
      obtain rfl := mem_singleton.mp hmem
      exact hu.not_mem (by decide) hb
  rcases hname : dccDupPart t nameEnd with ⟨_ | _, _⟩ <;>
    simp only [sshName, hpart, if_pos, hname]

theorem sshName_fields (huser : ∀ u ∈ user, IsField u) (hs : IsField s) (ht : StartsIn nameEnd t) :
    sshName (user.getD [] ++ '@'.toUInt8 :: (s ++ t)) = .ok (user, s, t) := by
  rw [sshName_user huser, dccDupPart_free hs.1 hs.free_nameEnd ht]

/-- What may follow a number of slots. -/
def slotsNext : CString := ':'.toUInt8 :: ','.toUInt8 :: wordEnd

theorem slotsNext_plain : ∀ b ∈ slotsNext, isSlotMark b = false ∧ isDigit b = false := by decide

/-- Without a mark, the slots stay. -/
theorem dccParseMultiplier_of_plain (n : ℤ) (ht : ∀ b ∈ t.head?, isSlotMark b = false) :
    dccParseMultiplier t n = .ok (n, t) := by
  cases t with
  | nil => rfl
  | cons b t => rw [dccParseMultiplier, if_neg (Bool.eq_false_iff.mp (ht b rfl))]

theorem dccParseMultiplier_marked {slots : Option CString} (n : ℤ)
    (hslots : ∀ m ∈ slots, IsSlots m) (ht : StartsIn slotsNext t) :
    dccParseMultiplier (markedText '/'.toUInt8 slots ++ t) n = .ok (numberOr n slots, t) := by
  cases slots with
  | none => exact dccParseMultiplier_of_plain n (ht.all fun b hb => (slotsNext_plain b hb).1)
  | some m =>
    obtain ⟨hnum, hpos, hlt⟩ := hslots m rfl
    have hnext : t.NoDigit := ht.all fun b hb => (slotsNext_plain b hb).2
    have hatoi : atoi (m ++ t) = ofNatDecimal m := atoi_numeral hnum hnext hlt
    obtain ⟨-, hdrop⟩ := span_digits hnum.2 hnext
    have hmark : isSlotMark '/'.toUInt8 = true := by decide
    change dccParseMultiplier ('/'.toUInt8 :: (m ++ t)) n = _
    rw [dccParseMultiplier, if_pos hmark, hatoi, if_neg (by omega), hdrop]
    rfl

/-- The port is read, unless something unexpected follows. -/
theorem tcpPort_marked {port : Option CString} (hport : ∀ p ∈ port, IsPort p)
    (ht : StartsIn ('/'.toUInt8 :: ','.toUInt8 :: wordEnd) t) :
    tcpPort (markedText ':'.toUInt8 port ++ t) =
      if port.isSome ∧ portEnds t = false then .error .badHostspec
      else .ok (numberOr 3632 port, t) := by
  have hplain : ∀ b ∈ '/'.toUInt8 :: ','.toUInt8 :: wordEnd,
      b ≠ ':'.toUInt8 ∧ isDigit b = false := by
    decide
  cases port with
  | none =>
    cases t with
    | nil => rfl
    | cons b t =>
      change tcpPort (b :: t) = .ok (3632, b :: t)
      rw [tcpPort, if_neg (hplain b (ht b rfl)).1]
  | some p =>
    obtain ⟨hnum, hle⟩ := hport p rfl
    have hstrtol : strtol (p ++ t) = ((ofNatDecimal p : ℤ), t) := by
      rw [strtol_numeral hnum (ht.all fun b hb => (hplain b hb).2), min_eq_left (by omega)]
    have hbmod : (ofNatDecimal p : ℤ).bmod (2 ^ 32) = ofNatDecimal p :=
      Int.bmod_eq_of_le (by omega) (by omega)
    change tcpPort (':'.toUInt8 :: (p ++ t)) = _
    rw [tcpPort, if_pos rfl, hstrtol]
    simp only [hbmod]
    cases hends : portEnds t <;> simp [numberOr]

theorem sshCommand_marked {command : Option CString} (hcommand : ∀ c ∈ command, IsCommand c)
    (hnext : StartsIn (','.toUInt8 :: wordEnd) t)
    (ht : command.isSome → StartsIn commandEnd t) :
    sshCommand (markedText ':'.toUInt8 command ++ t) = (command, t) := by
  cases command with
  | none =>
    cases t with
    | nil => rfl
    | cons b t =>
      have hcolon : ∀ b ∈ ','.toUInt8 :: wordEnd, b ≠ ':'.toUInt8 := by decide
      change sshCommand (b :: t) = (none, b :: t)
      rw [sshCommand, if_neg (hcolon b (hnext b rfl))]
  | some c =>
    have hc := hcommand c rfl
    change sshCommand (':'.toUInt8 :: (c ++ t)) = _
    rw [sshCommand, if_pos rfl, dccDupPart_free hc.1 hc.free_commandEnd (ht rfl)]

end Fields

/-! ### Options are read -/

section Options

theorem takeOption_name (o : HostOption) (p : CString) :
    takeOption (o.name ++ p) = some (o, p) := by
  cases o <;> rfl

theorem optionsLoop_text (opts : List HostOption) (f : HostFeatures) {t : CString} {turns : ℕ}
    (ht : StartsIn wordEnd t) (hturns : (optionsText opts ++ t).length ≤ turns) :
    optionsLoop turns f (optionsText opts ++ t) = .ok (opts.foldl HostFeatures.set f, t) := by
  induction opts generalizing f turns with
  | nil =>
    change optionsLoop turns f t = .ok (f, t)
    cases turns with
    | zero =>
      obtain rfl := eq_nil_of_length_eq_zero (Nat.le_zero.mp hturns)
      rfl
    | succ turns =>
      cases t with
      | nil => rfl
      | cons b t =>
        have hcomma : ∀ b ∈ wordEnd, b ≠ ','.toUInt8 := by decide
        rw [optionsLoop, if_neg (hcomma b (ht b rfl))]
  | cons o opts ih =>
    have htext : optionsText (o :: opts) ++ t =
        ','.toUInt8 :: (o.name ++ (optionsText opts ++ t)) := by
      simp [optionsText]
    rw [htext] at hturns ⊢
    obtain ⟨turns, rfl⟩ := Nat.exists_eq_add_of_le' (Nat.one_le_of_lt hturns)
    rw [optionsLoop, if_pos rfl, takeOption_name]
    refine ih (f.set o) ?_
    simp only [length_cons, length_append] at hturns ⊢
    omega

/-- What the options come to. -/
theorem foldl_set (opts : List HostOption) (f : HostFeatures) :
    opts.foldl HostFeatures.set f =
      { compr := if .lzo ∈ opts then .lzo1x else f.compr
        cppWhere := if .cpp ∈ opts then .onServer else f.cppWhere
        isUp := if .down ∈ opts then false else f.isUp } := by
  induction opts generalizing f with
  | nil => rfl
  | cons o opts ih =>
    rw [foldl_cons, ih]
    cases o <;> simp [HostFeatures.set]

theorem dccParseOptions_text {opts : List HostOption} (hfit : OptionsFit opts) {t : CString}
    (ht : StartsIn wordEnd t) :
    dccParseOptions (optionsText opts ++ t) =
      .ok (⟨comprOf opts, cppWhereOf opts, decide (.down ∉ opts)⟩, protoverOf opts, t) := by
  have hfeatures : opts.foldl HostFeatures.set {} =
      ⟨comprOf opts, cppWhereOf opts, decide (.down ∉ opts)⟩ := by
    rw [foldl_set, comprOf, cppWhereOf]
    by_cases hdown : HostOption.down ∈ opts <;> simp [hdown]
  have hprotover : dccGetProtoverFromFeatures (comprOf opts) (cppWhereOf opts) =
      some (protoverOf opts) := by
    unfold comprOf cppWhereOf protoverOf
    by_cases hcpp : HostOption.cpp ∈ opts
    · rw [if_pos hcpp, if_pos hcpp, if_pos (hfit hcpp)]
      rfl
    · rw [if_neg hcpp, if_neg hcpp]
      by_cases hlzo : HostOption.lzo ∈ opts
      · rw [if_pos hlzo, if_pos hlzo]
        rfl
      · rw [if_neg hlzo, if_neg hlzo]
        rfl
  rw [dccParseOptions, optionsLoop_text opts {} ht le_rfl, hfeatures]
  simp only [hprotover]

end Options

end Distcc
