import Mathlib.Data.Fin.VecNotation
import Distcc.Base.Mask
import Distcc.Base.Numeral
import Distcc.Exitcode

/-!
# What an `--allow` option says

Model of the first half of `src/access.c`: `dcc_parse_mask` turns a text such as
`10.0.0.0/8` into an entry of the access list, which is the value of an address
together with a mask.

What the text is meant to say is `Denotes`: an address, and how many of its bits
count. An entry is made of exactly these (`dccParseMask_denotes`). But more texts
are read than have such a meaning: the number of bits is what `atoi` makes of all that
stands behind the slash, and that is a number for any text. Which texts are taken for
good wrongly is `dccParseMask_validates_iff`.

The address itself is read by the C library, of which nothing is assumed here but that it
gives the bytes in the order of the network (`Platform`).
-/

namespace Distcc

open CString

/-! ### Addresses -/

/-- `struct sockaddr`, as far as the access list looks at it. -/
inductive SockAddr where
  /-- `AF_INET` -/
  | inet (addr : Fin 4 → BitVec 8)
  /-- `AF_INET6` -/
  | inet6 (addr : Fin 16 → BitVec 8)
  /-- Any other family. -/
  | other (family : ℕ)
  deriving DecidableEq

/-- How many bits an address has. -/
def SockAddr.width : SockAddr → Option ℕ
  | .inet _ => some 32
  | .inet6 _ => some 128
  | .other _ => none

/-- What the machine, the build and the C library decide. -/
structure Platform where
  /-- The order of bytes in a word. -/
  order : Endian
  /-- Was the program built with `ENABLE_RFC2553`? -/
  rfc2553 : Bool
  /-- `getaddrinfo` with `AI_NUMERICHOST`; without `ENABLE_RFC2553`, `inet_aton`. -/
  parse : CString → Option SockAddr
  /-- `inet_aton` knows one family. -/
  parse_inet : rfc2553 = false → ∀ {host sa}, parse host = some sa → ∃ addr, sa = .inet addr

/-- An entry of `struct dcc_allow_list`: a value and a mask of one family. -/
inductive AllowEntry where
  /-- Two `struct in_addr`. -/
  | inet (value mask : BitVec 32)
  /-- Two `struct in6_addr`. -/
  | inet6 (value mask : Fin 16 → BitVec 8)
  deriving DecidableEq

/-! ### Reading an option -/

/-- `split_mask`. There are no bits if nothing follows the slash. -/
def splitMask (spec : CString) : CString × Option CString :=
  (spec.takeWhile (· ≠ 47),
    match spec.dropWhile (· ≠ 47) with
    | _ :: b :: bits => some (b :: bits)
    | _ => none)

/-- `set_mask_inet` -/
def setMaskInet (order : Endian) (maskBits : ℕ) : BitVec 32 :=
  htonl order (~~~(BitVec.allOnes 32 >>> maskBits))

/-- `set_mask_inet6`: whole bytes of ones, one byte that has ones in front, and zeros. -/
def setMaskInet6 (maskBits : ℕ) (i : Fin 16) : BitVec 8 :=
  if i < maskBits / 8 then BitVec.allOnes 8
  else if i = maskBits / 8 then ~~~(BitVec.allOnes 8 >>> (maskBits % 8))
  else 0

/-- The bits that are to be set in the mask. All of them are if the option has none. -/
def parseMaskBits (maskMaxBits : ℕ) : Option CString → Except ExitCode ℕ
  | none => .ok maskMaxBits
  | some maskStr =>
    if atoi maskStr < 0 ∨ (maskMaxBits : ℤ) < atoi maskStr then .error .badArguments
    else .ok (atoi maskStr).toNat

/-- The mask of an entry for `AF_INET`. -/
def maskInet (order : Endian) (maskBits : ℕ) : BitVec 32 :=
  if maskBits = 32 then BitVec.allOnes 32 else setMaskInet order maskBits

/-- The mask of an entry for `AF_INET6`. -/
def maskInet6 (maskBits : ℕ) : Fin 16 → BitVec 8 :=
  if maskBits = 128 then fun _ => BitVec.allOnes 8 else setMaskInet6 maskBits

/-- `dcc_parse_mask` -/
def dccParseMask (P : Platform) (spec : CString) : Except ExitCode AllowEntry :=
  let (host, bits) := splitMask spec
  match P.parse host with
  | none => .error .badArguments
  | some (.inet addr) => do
    let maskBits ← parseMaskBits 32 bits
    return .inet (loadWord P.order addr) (maskInet P.order maskBits)
  | some (.inet6 addr) => do
    let maskBits ← parseMaskBits 128 bits
    return .inet6 addr (maskInet6 maskBits)
  | some (.other _) => .error .badArguments

/-! ### What an option means -/

/-- **What a text says**: the address, and how many of its bits count. -/
inductive Denotes (P : Platform) : CString → SockAddr → ℕ → Prop where
  /-- All bits of an address that stands alone count. -/
  | alone {host : CString} {sa : SockAddr} {w : ℕ} (noSlash : 47 ∉ host)
      (parse : P.parse host = some sa) (width : sa.width = some w) : Denotes P host sa w
  /-- An address, a slash and a decimal number. -/
  | masked {host bits : CString} {sa : SockAddr} {w : ℕ} (noSlash : 47 ∉ host)
      (parse : P.parse host = some sa) (width : sa.width = some w) (numeral : bits.IsNumeral)
      (range : ofNatDecimal bits ≤ w) : Denotes P (host ++ 47 :: bits) sa (ofNatDecimal bits)

/-- A text that says something. -/
def WellFormedMask (P : Platform) (spec : CString) : Prop := ∃ sa n, Denotes P spec sa n

theorem splitMask_alone {host : CString} (h : 47 ∉ host) : splitMask host = (host, none) := by
  have hall : ∀ b ∈ host, decide (b ≠ 47) = true := by
    intro b hb
    exact decide_eq_true fun heq => h (heq ▸ hb)
  simp only [splitMask, List.takeWhile_eq_self_iff.mpr hall, List.dropWhile_eq_nil_iff.mpr hall]

theorem splitMask_slash {host rest : CString} (h : 47 ∉ host) :
    splitMask (host ++ 47 :: rest) = (host, if rest = [] then none else some rest) := by
  have hall : ∀ b ∈ host, decide (b ≠ 47) = true := by
    intro b hb
    exact decide_eq_true fun heq => h (heq ▸ hb)
  rw [splitMask, List.takeWhile_append_of_pos hall, List.dropWhile_append_of_pos hall]
  cases rest with
  | nil => simp
  | cons b rest => simp

/-- The entry that stands for so many bits of an address. -/
def AllowEntry.ofBits (order : Endian) : SockAddr → ℕ → Option AllowEntry
  | .inet addr, n => some (.inet (loadWord order addr) (maskInet order n))
  | .inet6 addr, n => some (.inet6 addr (maskInet6 n))
  | .other _, _ => none

variable {sa : SockAddr} {P : Platform} {entry : AllowEntry} {w : ℕ}

theorem AllowEntry.exists_ofBits (order : Endian) (n : ℕ)
    (h : sa.width = some w) : ∃ entry, AllowEntry.ofBits order sa n = some entry := by
  cases sa with
  | inet addr => exact ⟨_, rfl⟩
  | inet6 addr => exact ⟨_, rfl⟩
  | other family => cases h

/-- How an option is read: the address by the library, the bits by `parseMaskBits`. -/
theorem dccParseMask_eq_ok_iff {spec : CString} : dccParseMask P spec = .ok entry ↔
      ∃ sa w n, P.parse (splitMask spec).1 = some sa ∧ sa.width = some w ∧
        parseMaskBits w (splitMask spec).2 = .ok n ∧
          AllowEntry.ofBits P.order sa n = some entry := by
  unfold dccParseMask
  cases hparse : P.parse (splitMask spec).1 with
  | none => simp [hparse]
  | some sa =>
    cases sa with
    | inet addr =>
      cases hbits : parseMaskBits 32 (splitMask spec).2 <;>
        simp [hparse, SockAddr.width, AllowEntry.ofBits, hbits, bind, Except.bind,
          pure, Except.pure]
    | inet6 addr =>
      cases hbits : parseMaskBits 128 (splitMask spec).2 <;>
        simp [hparse, SockAddr.width, AllowEntry.ofBits, hbits, bind, Except.bind,
          pure, Except.pure]
    | other family => simp [hparse, SockAddr.width]

/-- The bits of a numeral in range. -/
theorem parseMaskBits_numeral {bits : CString} (hw : w ≤ 128) (hbits : bits.IsNumeral)
    (hrange : ofNatDecimal bits ≤ w) : parseMaskBits w (some bits) = .ok (ofNatDecimal bits) := by
  have hatoi : atoi bits = ofNatDecimal bits := by
    have hend : CString.NoDigit [] := fun b hb => nomatch hb
    have h := atoi_numeral hbits hend (by omega)
    rwa [List.append_nil] at h
  rw [parseMaskBits, hatoi, if_neg (by omega), Int.toNat_natCast]

theorem width_le (h : sa.width = some w) : w ≤ 128 := by
  cases sa with
  | inet addr =>
    obtain rfl : 32 = w := by simpa [SockAddr.width] using h
    decide
  | inet6 addr =>
    obtain rfl : 128 = w := by simpa [SockAddr.width] using h
    decide
  | other family => simp [SockAddr.width] at h

/-- **A text that says something is read as what it says.** -/
theorem dccParseMask_denotes {spec : CString}
    {n : ℕ} (hden : Denotes P spec sa n) (h : dccParseMask P spec = .ok entry) :
    AllowEntry.ofBits P.order sa n = some entry := by
  obtain ⟨sa', w', n', hparse', hwidth', hbits', hentry⟩ := dccParseMask_eq_ok_iff.mp h
  cases hden with
  | alone noSlash parse width =>
    rw [splitMask_alone noSlash] at hparse' hbits'
    obtain rfl : sa = sa' := Option.some.inj (parse.symm.trans hparse')
    obtain rfl : w' = n := Option.some.inj (hwidth'.symm.trans width)
    obtain rfl : w' = n' := by simpa [parseMaskBits] using hbits'
    exact hentry
  | masked noSlash parse width numeral range =>
    rw [splitMask_slash noSlash] at hparse' hbits'
    obtain rfl : sa = sa' := Option.some.inj (parse.symm.trans hparse')
    obtain rfl := Option.some.inj (hwidth'.symm.trans width)
    rw [if_neg numeral.1, parseMaskBits_numeral (width_le width) numeral range] at hbits'
    obtain rfl := Except.ok.inj hbits'
    exact hentry

/-- What a text with a slash says. -/
theorem Denotes.of_slash {spec host rest : CString} {n : ℕ}
    (h : Denotes P spec sa n) (hfree : 47 ∉ host) (hspec : spec = host ++ 47 :: rest) :
    P.parse host = some sa ∧ rest.IsNumeral ∧ ∃ w, sa.width = some w ∧ ofNatDecimal rest ≤ w := by
  cases h with
  | alone noSlash parse width =>
    exact absurd (hspec ▸ List.mem_append_right _ List.mem_cons_self) noSlash
  | masked noSlash parse width numeral range =>
    have hsplit := congrArg (fun spec => (splitMask spec).1) hspec
    simp only [splitMask_slash noSlash, splitMask_slash hfree] at hsplit
    subst hsplit
    obtain rfl := (List.cons.inj (List.append_cancel_left hspec)).2
    exact ⟨parse, numeral, _, width, range⟩

/-! ### Texts that are taken for good -/

/-- What stands behind the slash, if anything does, is a number of bits, or it is turned
down by the test of the code: `atoi` makes of it a number that is out of range. -/
def BitsHeeded (P : Platform) (spec : CString) : Prop :=
  ∀ (host rest : CString) (sa : SockAddr) (w : ℕ), 47 ∉ host → spec = host ++ 47 :: rest →
    P.parse host = some sa → sa.width = some w → rest ≠ [] ∧
      (rest.IsNumeral ∧ ofNatDecimal rest ≤ w ∨ atoi rest < 0 ∨ (w : ℤ) < atoi rest)

/-- **Which options are validated**: exactly those whose bits are heeded. -/
theorem dccParseMask_validates_iff (P : Platform) (spec : CString) :
    ((∃ entry, dccParseMask P spec = .ok entry) → WellFormedMask P spec) ↔ BitsHeeded P spec := by
  constructor
  · intro hvalid host rest sa w hfree hspec hparse hwidth
    have hmeant (n : ℕ) (hbits : parseMaskBits w (if rest = [] then none else some rest) = .ok n) :
        rest.IsNumeral ∧ ofNatDecimal rest ≤ w := by
      obtain ⟨entry, hentry⟩ := AllowEntry.exists_ofBits P.order n hwidth
      have hok : dccParseMask P spec = .ok entry := by
        refine dccParseMask_eq_ok_iff.mpr ⟨sa, w, n, ?_, hwidth, ?_, hentry⟩ <;>
          rw [hspec, splitMask_slash hfree]
        · exact hparse
        · exact hbits
      obtain ⟨sa', n', hden⟩ := hvalid ⟨entry, hok⟩
      obtain ⟨hparse', hnum, w', hwidth', hle⟩ := hden.of_slash hfree hspec
      obtain rfl : sa = sa' := Option.some.inj (hparse.symm.trans hparse')
      obtain rfl : w = w' := Option.some.inj (hwidth.symm.trans hwidth')
      exact ⟨hnum, hle⟩
    have hne : rest ≠ [] := by
      intro hnil
      exact (hmeant w (by rw [if_pos hnil]; rfl)).1.1 hnil
    refine ⟨hne, ?_⟩
    by_cases hout : atoi rest < 0 ∨ (w : ℤ) < atoi rest
    · exact Or.inr hout
    · exact Or.inl (hmeant _ (by rw [if_neg hne, parseMaskBits, if_neg hout]))
  · rintro hheeded ⟨entry, h⟩
    obtain ⟨sa, w, n, hparse, hwidth, hbits, hentry⟩ := dccParseMask_eq_ok_iff.mp h
    rcases first_cases 47 spec with hfree | ⟨host, rest, rfl, hfree⟩
    · rw [splitMask_alone hfree] at hparse
      exact ⟨sa, w, .alone hfree hparse hwidth⟩
    · rw [splitMask_slash hfree] at hparse hbits
      obtain ⟨hne, hnum | hout⟩ := hheeded host rest sa w hfree rfl hparse hwidth
      · exact ⟨sa, _, .masked hfree hparse hwidth hnum.1 hnum.2⟩
      · rw [if_neg hne, parseMaskBits, if_pos hout] at hbits
        cases hbits

/-- A machine that knows one address. -/
def tenNet (order : Endian) : Platform where
  order := order
  rfc2553 := true
  parse host := if host = lit "10.0.0.0" then some (.inet ![10, 0, 0, 0]) else none
  parse_inet := by simp

/-- `10.0.0.0/foo` is read as `10.0.0.0/0`, which lets everybody in. -/
theorem dccParseMask_accepts_foo :
    dccParseMask (tenNet .little) (lit "10.0.0.0/foo") = .ok (.inet 10 0) ∧
      ¬WellFormedMask (tenNet .little) (lit "10.0.0.0/foo") := by
  refine ⟨by decide +kernel, ?_⟩
  rintro ⟨sa, n, hden⟩
  have hsplit : lit "10.0.0.0/foo" = lit "10.0.0.0" ++ 47 :: lit "foo" := by decide
  obtain ⟨-, hnum, -⟩ := hden.of_slash (by decide) hsplit
  exact absurd hnum (by decide)

end Distcc
