import Mathlib.Data.Nat.Digits.Lemmas
import Distcc.Base.CString

/-!
# Numerals

How `printf` and `strtoul` write and read numbers, as strings of bytes.

`CString.decimal` is what `%d` prints. Different integers print differently
(`CString.decimal_injective`), and what is printed has no byte but digits and a
sign in it, so that a separator that is neither can be told apart
(`CString.not_mem_decimal`).

`CString.hexWord` is what `%08x` prints, for a number of 32 bits, and
`CString.strtoul` reads it back in base 16 (`CString.strtoul_hexWord`). The reader
takes more than the writer writes: white space, a sign and `0x` before the digits
(`CString.strtoul_ends_iff`), and capital letters among them. Digits alone are read as
the number they denote (`CString.strtoul_isHex`).
-/

namespace Distcc

open List

namespace CString

/-! ### Decimal -/

/-- The decimal digits of a natural number, most significant first. -/
def natDecimal (n : ℕ) : CString :=
  if n = 0 then [48] else (Nat.digits 10 n).reverse.map fun d => 48 + d.toUInt8

/-- `%d`. -/
def decimal (z : ℤ) : CString := if z < 0 then 45 :: natDecimal z.natAbs else natDecimal z.natAbs

/-- The number a string of digits stands for. -/
def ofNatDecimal (s : CString) : ℕ := Nat.ofDigits 10 (s.reverse.map fun b => (b - 48).toNat)

theorem ofNatDecimal_natDecimal (n : ℕ) : ofNatDecimal (natDecimal n) = n := by
  by_cases hn : n = 0
  · subst hn
    decide
  · have hdigit : ∀ d ∈ Nat.digits 10 n, (48 + d.toUInt8 - 48 : UInt8).toNat = d := by
      intro d hd
      have hlt : d < 10 := Nat.digits_lt_base (by decide) hd
      interval_cases d <;> rfl
    have hmap : (Nat.digits 10 n).map (fun d => (48 + d.toUInt8 - 48 : UInt8).toNat) =
        Nat.digits 10 n := by
      rw [map_congr_left hdigit, map_id']
    rw [ofNatDecimal, natDecimal, if_neg hn, ← map_reverse, reverse_reverse, map_map]
    exact (congrArg (Nat.ofDigits 10) hmap).trans (Nat.ofDigits_digits 10 n)

variable {b : UInt8}

/-- Every byte of a decimal numeral is a digit. -/
theorem mem_natDecimal {n : ℕ} (h : b ∈ natDecimal n) : 48 ≤ b ∧ b < 58 := by
  unfold natDecimal at h
  split at h
  · obtain rfl : b = 48 := by simpa using h
    decide
  · obtain ⟨d, hd, rfl⟩ := mem_map.mp h
    have hlt : d < 10 := Nat.digits_lt_base (by decide) (mem_reverse.mp hd)
    interval_cases d <;> decide

theorem not_mem_decimal {z : ℤ} (hsign : b ≠ 45) (hdigit : ¬(48 ≤ b ∧ b < 58)) : b ∉ decimal z := by
  unfold decimal
  intro h
  split at h
  · rcases mem_cons.mp h with rfl | h
    · exact hsign rfl
    · exact hdigit (mem_natDecimal h)
  · exact hdigit (mem_natDecimal h)

/-- The integer a `%d` stands for. -/
def ofDecimal (s : CString) : ℤ :=
  match s with
  | 45 :: s => -(ofNatDecimal s : ℤ)
  | s => ofNatDecimal s

theorem ofDecimal_decimal (z : ℤ) : ofDecimal (decimal z) = z := by
  unfold decimal
  split
  case isTrue hneg =>
    have hval := ofNatDecimal_natDecimal z.natAbs
    simp only [ofDecimal, hval]
    omega
  case isFalse hpos =>
    have hval := ofNatDecimal_natDecimal z.natAbs
    have hhead : ∀ s, natDecimal z.natAbs ≠ 45 :: s := by
      intro s hs
      exact absurd (mem_natDecimal (hs ▸ mem_cons_self)).1 (by decide)
    rw [ofDecimal]
    · rw [hval]
      omega
    · exact hhead

theorem decimal_injective : Function.Injective decimal :=
  Function.LeftInverse.injective ofDecimal_decimal

/-! ### Hexadecimal -/

/-- A digit of base 16. -/
def hexDigit (d : ℕ) : UInt8 := if d < 10 then 48 + d.toUInt8 else 87 + d.toUInt8

/-- What a digit of base 16 stands for. -/
def hexValue (b : UInt8) : Option ℕ :=
  if 48 ≤ b ∧ b ≤ 57 then some (b - 48).toNat
  else if 97 ≤ b ∧ b ≤ 102 then some (b - 87).toNat
  else if 65 ≤ b ∧ b ≤ 70 then some (b - 55).toNat
  else none

/-- `isdigit` -/
def isDigit (b : UInt8) : Bool := 48 ≤ b ∧ b ≤ 57

/-- The eight digits of a number of 32 bits, from the highest four bits on. -/
def hexWord (n : ℕ) : CString :=
  [28, 24, 20, 16, 12, 8, 4, 0].map fun shift => hexDigit ((n >>> shift) % 16)

/-- The number that digits stand for, after `acc`. -/
def hexFold (acc : ℕ) (digits : CString) : ℕ :=
  digits.foldl (fun acc b => 16 * acc + (hexValue b).getD 0) acc

/-- A sign in front. -/
def skipSign : CString → Bool × CString
  | 45 :: s => (true, s)
  | 43 :: s => (false, s)
  | s => (false, s)

/-- The `0x` in front of digits of base 16. -/
def skipOx : CString → CString
  | 48 :: x :: d :: s =>
    if (x = 120 ∨ x = 88) ∧ (hexValue d).isSome then d :: s else 48 :: x :: d :: s
  | s => s

/-- `strtoul`, in base 16 and with 64 bits: the number, and the rest of the string.
Without digits that is the whole of it. -/
def strtoul (s : CString) : ℕ × CString :=
  let (negative, t) := skipSign (s.dropWhile isSpace)
  let digits := (skipOx t).takeWhile fun b => (hexValue b).isSome
  let n := hexFold 0 digits
  if digits = [] then (0, s)
  else (if 2 ^ 64 ≤ n then 2 ^ 64 - 1 else if negative then (2 ^ 64 - n) % 2 ^ 64 else n,
    (skipOx t).dropWhile fun b => (hexValue b).isSome)

/-- `strtol`, in base 10 and with 64 bits: the number, and the rest of the string.
Without digits that is the whole of it. -/
def strtol (s : CString) : ℤ × CString :=
  let (negative, t) := skipSign (s.dropWhile isSpace)
  let digits := t.takeWhile isDigit
  let n : ℤ := ofNatDecimal digits
  if digits = [] then (0, s)
  else (if negative then max (-n) (-2 ^ 63) else min n (2 ^ 63 - 1), t.dropWhile isDigit)

/-- `atoi`: of the `long`, an `int` has the lower half. -/
def atoi (s : CString) : ℤ := (strtol s).1.bmod (2 ^ 32)

/-! ### What `strtoul` takes -/

/-- All digits of base 16. -/
def IsHex (s : CString) : Prop := ∀ b ∈ s, (hexValue b).isSome = true
deriving Decidable

/-- `tolower` -/
def toLower (b : UInt8) : UInt8 := if 65 ≤ b ∧ b ≤ 90 then b + 32 else b

/-- The number that a string of digits of base 16 denotes. -/
def hexNumber (s : CString) : ℕ :=
  Nat.ofDigits 16 (s.reverse.map fun b => (hexValue b).getD 0)

/-- What `strtoul` skips in front of the digits: white space, a sign and `0x`. -/
def IsLead (s : CString) : Prop :=
  ∃ blanks sign ox, s = blanks ++ (sign ++ ox) ∧ (∀ b ∈ blanks, isSpace b = true) ∧
    sign ∈ [[], [45], [43]] ∧ ox ∈ [[], [48, 120], [48, 88]]

/-- Digits differ from everything that may stand in front of them, and a digit is
known by its value, letter case aside. -/
theorem hexValue_spec (b : UInt8) : ∀ d ∈ hexValue b,
    d < 16 ∧ toLower b = hexDigit d ∧ isSpace b = false ∧ b ≠ 45 ∧ b ≠ 43 ∧ b ≠ 120 ∧ b ≠ 88 :=
  forall_byte (P := fun b => ∀ d ∈ hexValue b, d < 16 ∧ toLower b = hexDigit d ∧
    isSpace b = false ∧ b ≠ 45 ∧ b ≠ 43 ∧ b ≠ 120 ∧ b ≠ 88) (by decide +kernel) b

variable {s rest : CString}

theorem IsHex.cons_spec (h : IsHex (b :: s)) :
    isSpace b = false ∧ b ≠ 45 ∧ b ≠ 43 ∧ b ≠ 120 ∧ b ≠ 88 := by
  obtain ⟨d, hd⟩ := Option.isSome_iff_exists.mp (h b mem_cons_self)
  exact (hexValue_spec b d hd).2.2

theorem skipSign_spec (s : CString) :
    ∃ sign, s = sign ++ (skipSign s).2 ∧ sign ∈ [[], [45], [43]] := by
  unfold skipSign
  split
  · exact ⟨[45], rfl, by decide⟩
  · exact ⟨[43], rfl, by decide⟩
  · exact ⟨[], rfl, by decide⟩

theorem skipOx_spec (s : CString) :
    ∃ ox, s = ox ++ skipOx s ∧ ox ∈ [[], [48, 120], [48, 88]] := by
  unfold skipOx
  split
  · case h_1 x d s =>
    split
    · case isTrue h =>
      rcases h.1 with rfl | rfl
      · exact ⟨[48, 120], rfl, by decide⟩
      · exact ⟨[48, 88], rfl, by decide⟩
    · exact ⟨[], rfl, by decide⟩
  · exact ⟨[], rfl, by decide⟩

theorem skipSign_of_ne (hminus : b ≠ 45) (hplus : b ≠ 43) :
    skipSign (b :: s) = (false, b :: s) := by
  unfold skipSign
  split <;> simp_all

theorem skipSign_sign {sign s : CString} (hsign : sign ∈ [[], [45], [43]])
    (hs : ∀ b ∈ s.head?, b ≠ 45 ∧ b ≠ 43) : (skipSign (sign ++ s)).2 = s := by
  obtain rfl | rfl | rfl : sign = [] ∨ sign = [45] ∨ sign = [43] := by simpa using hsign
  · cases s with
    | nil => rfl
    | cons b s => rw [nil_append, skipSign_of_ne (hs b rfl).1 (hs b rfl).2]
  · rfl
  · rfl

theorem skipOx_digits {ox digits : CString} (hox : ox ∈ [[], [48, 120], [48, 88]])
    (hdigits : digits.IsHex) (hne : digits ≠ []) : skipOx (ox ++ digits) = digits := by
  obtain ⟨d, s, rfl⟩ := exists_cons_of_ne_nil hne
  have hd : (hexValue d).isSome = true := hdigits d mem_cons_self
  obtain rfl | rfl | rfl : ox = [] ∨ ox = [48, 120] ∨ ox = [48, 88] := by simpa using hox
  · rw [nil_append]
    unfold skipOx
    split
    · case h_1 x _ _ heq =>
      obtain ⟨rfl, rfl⟩ := List.cons.inj heq
      have hx : x ≠ 120 ∧ x ≠ 88 := (IsHex.cons_spec fun b hb =>
        hdigits b (mem_cons_of_mem _ hb)).2.2.2
      rw [if_neg fun h => h.1.elim hx.1 hx.2]
    · rfl
  · simp [skipOx, hd]
  · simp [skipOx, hd]

/-- What is left when the white space, the sign and the `0x` are skipped. -/
def hexBody (s : CString) : CString := skipOx (skipSign (s.dropWhile isSpace)).2

theorem exists_isLead_append (s : CString) : ∃ lead, lead.IsLead ∧ s = lead ++ s.hexBody := by
  obtain ⟨sign, hsign, hsign'⟩ := skipSign_spec (s.dropWhile isSpace)
  obtain ⟨ox, hox, hox'⟩ := skipOx_spec (skipSign (s.dropWhile isSpace)).2
  refine ⟨s.takeWhile isSpace ++ (sign ++ ox),
    ⟨_, sign, ox, rfl, fun b hb => mem_takeWhile_imp hb, hsign', hox'⟩, ?_⟩
  rw [hexBody, append_assoc, append_assoc, ← hox, ← hsign,
    takeWhile_append_dropWhile]

/-- The byte that follows the white space is no white space. -/
theorem head_of_lead {sign ox digits : CString} (hsign : sign ∈ [[], [45], [43]])
    (hox : ox ∈ [[], [48, 120], [48, 88]]) (hdigits : digits.IsHex) (hne : digits ≠ []) :
    (∀ b ∈ (sign ++ (ox ++ digits)).head?, isSpace b = false) ∧
      ∀ b ∈ (ox ++ digits).head?, b ≠ 45 ∧ b ≠ 43 := by
  obtain ⟨d, s, rfl⟩ := exists_cons_of_ne_nil hne
  have hd := hdigits.cons_spec
  obtain rfl | rfl | rfl : sign = [] ∨ sign = [45] ∨ sign = [43] := by simpa using hsign
  all_goals
    obtain rfl | rfl | rfl : ox = [] ∨ ox = [48, 120] ∨ ox = [48, 88] := by simpa using hox
    all_goals simp [hd, show isSpace 45 = false from rfl, show isSpace 43 = false from rfl,
      show isSpace 48 = false from rfl]

theorem hexBody_lead {lead digits : CString} (hlead : lead.IsLead) (hdigits : digits.IsHex)
    (hne : digits ≠ []) : hexBody (lead ++ digits) = digits := by
  obtain ⟨blanks, sign, ox, rfl, hblanks, hsign, hox⟩ := hlead
  obtain ⟨hspace, hno⟩ := head_of_lead hsign hox hdigits hne
  have hdrop : (sign ++ (ox ++ digits)).dropWhile isSpace = sign ++ (ox ++ digits) := by
    cases heq : sign ++ (ox ++ digits) with
    | nil => rfl
    | cons b s =>
      rw [heq] at hspace
      exact dropWhile_cons_of_neg (by simp [hspace b rfl])
  rw [hexBody, append_assoc, append_assoc, dropWhile_append_of_pos hblanks, hdrop,
    skipSign_sign hsign hno, skipOx_digits hox hdigits hne]

theorem strtoul_ends_of_isHex (h : s.hexBody.IsHex) (hne : s.hexBody ≠ []) :
    (strtoul s).2 = [] := by
  have htake : s.hexBody.takeWhile (fun b => (hexValue b).isSome) = s.hexBody :=
    takeWhile_eq_self_iff.mpr h
  have hdrop : s.hexBody.dropWhile (fun b => (hexValue b).isSome) = [] :=
    dropWhile_eq_nil_iff.mpr h
  change (if s.hexBody.takeWhile (fun b => (hexValue b).isSome) = [] then _ else _ : ℕ × CString).2
    = []
  rw [if_neg (by rwa [htake])]
  exact hdrop

theorem isHex_of_strtoul_ends (hs : s ≠ []) (h : (strtoul s).2 = []) :
    s.hexBody.IsHex ∧ s.hexBody ≠ [] := by
  change (if s.hexBody.takeWhile (fun b => (hexValue b).isSome) = [] then _ else _ : ℕ × CString).2
    = [] at h
  split at h
  · exact absurd h hs
  · case isFalse htake =>
    refine ⟨dropWhile_eq_nil_iff.mp h, fun hnil => htake ?_⟩
    rw [hnil]
    rfl

/-- **What `strtoul` reads to the end**: digits, with white space, a sign and `0x`
perhaps in front of them. -/
theorem strtoul_ends_iff (hs : s ≠ []) :
    (strtoul s).2 = [] ↔ ∃ lead digits, s = lead ++ digits ∧ lead.IsLead ∧ digits.IsHex ∧
      digits ≠ [] := by
  constructor
  · intro h
    obtain ⟨lead, hlead, heq⟩ := exists_isLead_append s
    exact ⟨lead, s.hexBody, heq, hlead, isHex_of_strtoul_ends hs h⟩
  · rintro ⟨lead, digits, rfl, hlead, hdigits, hne⟩
    have hbody := hexBody_lead hlead hdigits hne
    exact strtoul_ends_of_isHex (by rwa [hbody]) (by rwa [hbody])

/-- Nothing that is skipped is a digit, but for the zero of `0x`. -/
theorem IsLead.not_isHex {lead : CString} (h : lead.IsLead) (hne : lead ≠ []) (s : CString) :
    ¬(lead ++ s).IsHex := by
  obtain ⟨blanks, sign, ox, rfl, hblanks, hsign, hox⟩ := h
  intro hhex
  have hno {b : UInt8} (hb : b ∈ blanks ++ (sign ++ ox)) :
      isSpace b = false ∧ b ≠ 45 ∧ b ≠ 43 ∧ b ≠ 120 ∧ b ≠ 88 := by
    obtain ⟨d, hd⟩ := Option.isSome_iff_exists.mp (hhex b (mem_append_left s hb))
    exact (hexValue_spec b d hd).2.2
  cases blanks with
  | cons b blanks =>
    exact absurd (hblanks b mem_cons_self) (by simp [(hno (b := b) (by simp)).1])
  | nil =>
    obtain rfl | rfl | rfl : sign = [] ∨ sign = [45] ∨ sign = [43] := by simpa using hsign
    · obtain rfl | rfl | rfl : ox = [] ∨ ox = [48, 120] ∨ ox = [48, 88] := by simpa using hox
      · exact hne rfl
      · exact (hno (b := 120) (by simp)).2.2.2.1 rfl
      · exact (hno (b := 88) (by simp)).2.2.2.2 rfl
    · exact (hno (b := 45) (by simp)).2.1 rfl
    · exact (hno (b := 43) (by simp)).2.2.1 rfl

/-! ### Digits and numbers -/

theorem hexFold_zero (s : CString) : hexFold 0 s = hexNumber s := by
  rw [hexNumber, Nat.ofDigits_eq_foldr, foldr_map, foldr_reverse, hexFold]
  congr 1
  funext acc b
  exact Nat.add_comm _ _

theorem hexValue_getD_lt (b : UInt8) : (hexValue b).getD 0 < 16 := by
  cases hval : hexValue b with
  | none => exact Nat.succ_pos 15
  | some d => exact (hexValue_spec b d hval).1

theorem hexNumber_lt (s : CString) : hexNumber s < 16 ^ s.length := by
  have hlt := Nat.ofDigits_lt_base_pow_length (b := 16)
    (l := s.reverse.map fun b => (hexValue b).getD 0) (by decide) ?_
  · simpa [hexNumber] using hlt
  · intro d hd
    obtain ⟨b, -, rfl⟩ := mem_map.mp hd
    exact hexValue_getD_lt b

/-- Digits alone are read as the number they denote. -/
theorem strtoul_isHex (h : s.IsHex) (hne : s ≠ []) (hlen : s.length ≤ 15) :
    strtoul s = (hexNumber s, []) := by
  obtain ⟨b, t, rfl⟩ := exists_cons_of_ne_nil hne
  obtain ⟨hspace, hminus, hplus, -⟩ := h.cons_spec
  have hskip : skipSign ((b :: t).dropWhile isSpace) = (false, b :: t) := by
    rw [dropWhile_cons_of_neg (by simp [hspace]), skipSign_of_ne hminus hplus]
  have hnone : ([] : CString) ∈ [[], [48, 120], [48, 88]] := mem_cons_self
  have hox : skipOx (b :: t) = b :: t := skipOx_digits hnone h hne
  have htake : (b :: t).takeWhile (fun b => (hexValue b).isSome) = b :: t :=
    takeWhile_eq_self_iff.mpr h
  have hdrop : (b :: t).dropWhile (fun b => (hexValue b).isSome) = [] :=
    dropWhile_eq_nil_iff.mpr h
  have hlt : hexNumber (b :: t) < 2 ^ 64 :=
    calc hexNumber (b :: t) < 16 ^ (b :: t).length := hexNumber_lt _
      _ ≤ 16 ^ 15 := Nat.pow_le_pow_right (by decide) hlen
      _ < 2 ^ 64 := by decide
  simp only [strtoul, hskip, hox, htake, hdrop, hexFold_zero, if_neg hne,
    if_neg (Nat.not_le.mpr hlt)]
  rfl

/-- Digits of one length that denote one number are the same, letter case aside. -/
theorem hexNumber_inj {s t : CString} (hs : s.IsHex) (ht : t.IsHex) (hlen : s.length = t.length)
    (h : hexNumber s = hexNumber t) : s.map toLower = t.map toLower := by
  have hdigits : s.map (fun b => (hexValue b).getD 0) = t.map fun b => (hexValue b).getD 0 := by
    have hrev := Nat.ofDigits_inj_of_len_eq (b := 16) (by decide) (by simpa using hlen) ?_ ?_ h
    · simpa using hrev
    · intro d hd
      obtain ⟨b, -, rfl⟩ := mem_map.mp hd
      exact hexValue_getD_lt b
    · intro d hd
      obtain ⟨b, -, rfl⟩ := mem_map.mp hd
      exact hexValue_getD_lt b
  have hlower {u : CString} (hu : u.IsHex) :
      u.map toLower = (u.map fun b => (hexValue b).getD 0).map hexDigit := by
    rw [map_map]
    refine map_congr_left fun b hb => ?_
    obtain ⟨d, hd⟩ := Option.isSome_iff_exists.mp (hu b hb)
    rw [(hexValue_spec b d hd).2.1, Function.comp_apply, hd]
    rfl
  rw [hlower hs, hdigits, ← hlower ht]

/-- **What is written is what is read.** -/
theorem strtoul_hexWord {n : ℕ} (h : n < 2 ^ 32) : strtoul (hexWord n) = (n, []) := by
  have hdigit {d : ℕ} (hd : d < 16) : hexValue (hexDigit d) = some d := by
    interval_cases d <;> rfl
  have hvalue (shift : ℕ) : hexValue (hexDigit ((n >>> shift) % 16)) = some ((n >>> shift) % 16) :=
    hdigit (Nat.mod_lt _ (by decide))
  have hhex : (hexWord n).IsHex := by
    intro b hb
    obtain ⟨shift, -, rfl⟩ := mem_map.mp hb
    rw [hvalue]
    rfl
  rw [strtoul_isHex hhex (cons_ne_nil _ _) (Nat.le_add_right 8 7)]
  refine Prod.ext ?_ rfl
  simp only [hexNumber, hexWord, map_cons, map_nil, reverse_cons, reverse_nil,
    nil_append, cons_append, hvalue, Option.getD_some, Nat.ofDigits_cons, Nat.ofDigits_nil]
  simp only [Nat.shiftRight_eq_div_pow]
  omega

@[simp] theorem hexWord_length (n : ℕ) : (hexWord n).length = 8 := rfl

/-! ### Reading decimals -/

/-- A decimal numeral: digits, and at least one. -/
def IsNumeral (s : CString) : Prop := s ≠ [] ∧ ∀ b ∈ s, isDigit b = true
deriving Decidable

theorem isNumeral_natDecimal (n : ℕ) : (natDecimal n).IsNumeral := by
  constructor
  · unfold natDecimal
    split
    · exact cons_ne_nil _ _
    · case isFalse hn => simpa [Nat.digits_ne_nil_iff_ne_zero] using hn
  · intro b hb
    obtain ⟨hge, hlt⟩ := mem_natDecimal hb
    refine decide_eq_true ⟨hge, ?_⟩
    rw [UInt8.le_iff_toNat_le]
    exact Nat.le_of_lt_succ (UInt8.lt_iff_toNat_lt.mp hlt)

/-- A numeral is not longer than that of the first number with one digit more. -/
theorem length_natDecimal_le {n k : ℕ} (hk : 0 < k) (h : n < 10 ^ k) :
    (natDecimal n).length ≤ k := by
  unfold natDecimal
  split
  · exact hk
  · rw [length_map, length_reverse]
    exact (Nat.digits_length_le_iff (by decide) n).mpr h

/-- What does not go on with a digit. -/
def NoDigit (s : CString) : Prop := ∀ b ∈ s.head?, isDigit b = false

theorem isDigit_plain (h : isDigit b = true) : isSpace b = false ∧ b ≠ 45 ∧ b ≠ 43 := by
  simp only [isDigit, isSpace, decide_eq_true_eq, decide_eq_false_iff_not,
    UInt8.le_iff_toNat_le, ← UInt8.toNat_inj, ne_eq, UInt8.reduceToNat] at h ⊢
  omega

theorem span_digits (hs : ∀ b ∈ s, isDigit b = true) (hrest : rest.NoDigit) :
    (s ++ rest).takeWhile isDigit = s ∧ (s ++ rest).dropWhile isDigit = rest := by
  have hstop : rest.takeWhile isDigit = [] ∧ rest.dropWhile isDigit = rest := by
    cases rest with
    | nil => exact ⟨rfl, rfl⟩
    | cons b rest =>
      have hb : isDigit b = false := hrest b rfl
      simp [hb]
  constructor
  · rw [takeWhile_append_of_pos hs, hstop.1, append_nil]
  · rw [dropWhile_append_of_pos hs, hstop.2]

/-- There is nothing to skip in front of a byte that is no white space and no sign. -/
theorem skipSign_plain (hb : isSpace b = false ∧ b ≠ 45 ∧ b ≠ 43) (t : CString) :
    skipSign ((b :: t).dropWhile isSpace) = (false, b :: t) := by
  obtain ⟨hspace, hminus, hplus⟩ := hb
  rw [dropWhile_cons_of_neg (by simp [hspace])]
  unfold skipSign
  split <;> simp_all

/-- What `strtol` leaves of a text that has nothing to skip. -/
theorem strtol_snd (hb : isSpace b = false ∧ b ≠ 45 ∧ b ≠ 43) (t : CString) :
    (strtol (b :: t)).2 = (b :: t).dropWhile isDigit := by
  simp only [strtol, skipSign_plain hb]
  split
  · case isTrue hnil =>
    have hsplit := takeWhile_append_dropWhile (p := isDigit) (l := b :: t)
    rwa [hnil, nil_append, eq_comm] at hsplit
  · rfl

/-- A numeral is read to its end. -/
theorem strtol_numeral (hs : s.IsNumeral) (hrest : rest.NoDigit) :
    strtol (s ++ rest) = (min (ofNatDecimal s : ℤ) (2 ^ 63 - 1), rest) := by
  obtain ⟨hne, hdigits⟩ := hs
  obtain ⟨htake, hdrop⟩ := span_digits hdigits hrest
  obtain ⟨b, t, rfl⟩ := exists_cons_of_ne_nil hne
  have hskip := skipSign_plain (isDigit_plain (hdigits b mem_cons_self)) (t ++ rest)
  rw [← cons_append] at hskip
  simp only [strtol, hskip, htake, hdrop]
  simp

theorem atoi_numeral (hs : s.IsNumeral) (hrest : rest.NoDigit)
    (hval : ofNatDecimal s < 2 ^ 31) : atoi (s ++ rest) = ofNatDecimal s := by
  rw [atoi, strtol_numeral hs hrest, min_eq_left (by omega)]
  exact Int.bmod_eq_of_le (by omega) (by omega)

end CString

end Distcc
