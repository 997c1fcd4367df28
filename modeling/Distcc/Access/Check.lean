import Mathlib.Tactic.FinCases
import Distcc.Access.Parse

/-!
# Who is let in

Model of the second half of `src/access.c`, which compares a client with an entry of the
access list (`dcc_check_address`), and of `dcc_check_client` in `src/srvnet.c`, which goes
through the list.

For clients and entries of one family the list does what it says: a client is let in
exactly if its address has, on as many bits as the option asks for, the bits of the
address in some option (`dccCheckClient_iff`). It does not matter how the machine
orders the bytes of a word, since client, value and mask are words of the same order.

An IPv4 client that comes over an IPv6 socket has its address in the last four bytes of
another one. These are put together to a word as on the network, whatever the machine: on
one that has it the other way round, it is the address with its bytes reversed that is
looked up (`dccCheckAddress_mapped_iff`).
-/

namespace Distcc

open CString Option

/-! ### One entry -/

/-- `check_address_inet` -/
def checkAddressInet (client value mask : BitVec 32) : Except ExitCode Unit :=
  if client &&& mask = value &&& mask then .ok () else .error .accessDenied

/-- `compare_address_inet6` -/
def compareAddressInet6 (client value mask : Fin 16 → BitVec 8) : Bool :=
  (List.finRange 16).all fun i => client i &&& mask i == value i &&& mask i

/-- `check_address_inet6` -/
def checkAddressInet6 (client value mask : Fin 16 → BitVec 8) : Except ExitCode Unit :=
  if compareAddressInet6 client value mask then .ok () else .error .accessDenied

/-- The last four bytes of an IPv6 address. -/
def lowBytes (addr : Fin 16 → BitVec 8) : Fin 4 → BitVec 8 := fun i => addr (Fin.natAdd 12 i)

/-- `inet_from_inet6` -/
def inetFromInet6 (addr : Fin 16 → BitVec 8) : BitVec 32 :=
  (List.finRange 4).foldl
    (fun dest i => dest ||| ((lowBytes addr i).setWidth 32 <<< (8 * (3 - i.val)))) 0

/-- `IN6_IS_ADDR_V4MAPPED` -/
def isV4Mapped (addr : Fin 16 → BitVec 8) : Bool :=
  decide ((∀ i < 10, addr i = 0) ∧ addr 10 = 0xff ∧ addr 11 = 0xff)

/-- `IN6_IS_ADDR_V4COMPAT`: neither `::` nor `::1`. -/
def isV4Compat (addr : Fin 16 → BitVec 8) : Bool :=
  decide ((∀ i < 12, addr i = 0) ∧ 1 < (loadWord .big (lowBytes addr)).toNat)

/-- `dcc_check_address`. Without `ENABLE_RFC2553` there is one family, and clients of any
other one are denied. -/
def dccCheckAddress (P : Platform) : SockAddr → AllowEntry → Except ExitCode Unit
  | .inet client, .inet value mask => checkAddressInet (loadWord P.order client) value mask
  | .inet _, .inet6 _ _ => .error .accessDenied
  | .inet6 client, .inet value mask =>
    if P.rfc2553 ∧ (isV4Mapped client ∨ isV4Compat client) then
      checkAddressInet (inetFromInet6 client) value mask
    else .error .accessDenied
  | .inet6 client, .inet6 value mask =>
    if P.rfc2553 then checkAddressInet6 client value mask else .error .accessDenied
  | .other _, _ => .error .accessDenied

/-! ### The list -/

/-- The loop of `dcc_check_client`: it ends at the first answer that is not a denial. -/
def checkEntries (P : Platform) (client : SockAddr) :
    List AllowEntry → Except ExitCode Unit → Except ExitCode Unit
  | [], ret => ret
  | l :: rest, _ =>
    match dccCheckAddress P client l with
    | .error .accessDenied => checkEntries P client rest (.error .accessDenied)
    | ret => ret

/-- `dcc_check_client`. Without an address, and without a list, everybody is let in. -/
def dccCheckClient (P : Platform) (psa : Option SockAddr) (allowed : List AllowEntry) :
    Except ExitCode Unit :=
  match psa with
  | none => .ok ()
  | some client => checkEntries P client allowed (.ok ())

theorem checkAddressInet_cases (client value mask : BitVec 32) :
    checkAddressInet client value mask = .ok () ∨
      checkAddressInet client value mask = .error .accessDenied := by
  unfold checkAddressInet
  split
  · exact Or.inl rfl
  · exact Or.inr rfl

/-- A client is let in or denied. -/
theorem dccCheckAddress_cases (P : Platform) (client : SockAddr) (entry : AllowEntry) :
    dccCheckAddress P client entry = .ok () ∨
      dccCheckAddress P client entry = .error .accessDenied := by
  unfold dccCheckAddress checkAddressInet6
  split
  · exact checkAddressInet_cases _ _ _
  · exact Or.inr rfl
  · split
    · exact checkAddressInet_cases _ _ _
    · exact Or.inr rfl
  · split_ifs
    · exact Or.inl rfl
    · exact Or.inr rfl
    · exact Or.inr rfl
  · exact Or.inr rfl

variable {P : Platform} {n : ℕ} {spec : CString} {entry : AllowEntry}

/-- Answers are the same if both let the client in, or none does. -/
theorem answer_eq_iff {client client' : SockAddr} :
    dccCheckAddress P client entry = dccCheckAddress P client' entry ↔
      (dccCheckAddress P client entry = .ok () ↔ dccCheckAddress P client' entry = .ok ()) := by
  rcases dccCheckAddress_cases P client entry with h | h <;>
    rcases dccCheckAddress_cases P client' entry with h' | h' <;> simp [h, h']

theorem checkEntries_denied_iff (P : Platform) (client : SockAddr) (allowed : List AllowEntry) :
    checkEntries P client allowed (.error .accessDenied) = .ok () ↔
      ∃ entry ∈ allowed, dccCheckAddress P client entry = .ok () := by
  induction allowed with
  | nil => simp [checkEntries]
  | cons entry allowed ih =>
    rcases dccCheckAddress_cases P client entry with h | h <;> simp [checkEntries, h, ih]

/-- **One entry is enough.** -/
theorem dccCheckClient_ok_iff (P : Platform) (client : SockAddr) {allowed : List AllowEntry}
    (hne : allowed ≠ []) :
    dccCheckClient P (some client) allowed = .ok () ↔
      ∃ entry ∈ allowed, dccCheckAddress P client entry = .ok () := by
  obtain ⟨entry, rest, rfl⟩ := List.exists_cons_of_ne_nil hne
  exact checkEntries_denied_iff P client (entry :: rest)

/-! ### Entries that stand for bits -/

theorem maskInet_eq (order : Endian) (n : ℕ) :
    maskInet order n = htonl order (headMask 32 n) := by
  unfold maskInet
  split
  · case isTrue h =>
    subst h
    cases order <;> decide
  · rfl

theorem maskInet6_eq (hn : n ≤ 128) (i : Fin 16) : maskInet6 n i = maskByte n i := by
  unfold maskInet6
  split
  · case isTrue h =>
    subst h
    exact (if_pos (by omega)).symm
  · rfl

theorem checkAddressInet_iff (order : Endian) (hn : n ≤ 32) {client addr : Fin 4 → BitVec 8} :
    checkAddressInet (loadWord order client) (loadWord order addr) (maskInet order n) = .ok () ↔
      AgreeOn n client addr := by
  rw [← and_loadWord_iff order hn, maskInet_eq, checkAddressInet]
  simp

theorem checkAddressInet6_iff (hn : n ≤ 128) {client addr : Fin 16 → BitVec 8} :
    checkAddressInet6 client addr (maskInet6 n) = .ok () ↔ AgreeOn n client addr := by
  rw [← and_maskByte_iff hn, checkAddressInet6, compareAddressInet6]
  simp [maskInet6_eq hn]

/-- **Does a text allow a client?** It says how many bits of which address count. -/
def Allows (P : Platform) (spec : CString) : SockAddr → Prop
  | .inet client => ∃ addr n, Denotes P spec (.inet addr) n ∧ AgreeOn n client addr
  | .inet6 client => ∃ addr n, Denotes P spec (.inet6 addr) n ∧ AgreeOn n client addr
  | .other _ => False

theorem Denotes.le_width {sa : SockAddr} {n w : ℕ}
    (h : Denotes P spec sa n) (hw : sa.width = some w) : n ≤ w := by
  cases h with
  | alone noSlash parse width => exact (some.inj (width.symm.trans hw)).le
  | masked noSlash parse width numeral range =>
    exact range.trans (some.inj (width.symm.trans hw)).le

/-- `inet_aton` reads no IPv6 address. -/
theorem Denotes.rfc2553 {addr : Fin 16 → BitVec 8}
    (h : Denotes P spec (.inet6 addr) n) : P.rfc2553 = true := by
  have hparse : ∃ host, P.parse host = some (.inet6 addr) := by
    cases h with
    | alone noSlash parse width => exact ⟨_, parse⟩
    | masked noSlash parse width numeral range => exact ⟨_, parse⟩
  by_contra hrfc
  obtain ⟨host, hparse⟩ := hparse
  obtain ⟨addr', heq⟩ := P.parse_inet (Bool.eq_false_iff.mpr hrfc) hparse
  cases heq

/-- An entry lets in whom its text allows. -/
theorem dccCheckAddress_iff_allows
    {client : SockAddr} (hwf : WellFormedMask P spec) (h : dccParseMask P spec = .ok entry)
    (hfamily : ∀ c, client = .inet6 c → ∀ addr n, ¬Denotes P spec (.inet addr) n) :
    dccCheckAddress P client entry = .ok () ↔ Allows P spec client := by
  constructor
  · intro hok
    obtain ⟨sa, n, hden⟩ := hwf
    have hentry := dccParseMask_denotes hden h
    cases client with
    | inet client =>
      cases sa with
      | inet addr =>
        obtain rfl := some.inj hentry
        exact ⟨addr, n, hden, (checkAddressInet_iff _ (hden.le_width rfl)).mp hok⟩
      | inet6 addr =>
        obtain rfl := some.inj hentry
        cases hok
      | other family => cases hentry
    | inet6 client =>
      cases sa with
      | inet addr => exact absurd hden (hfamily client rfl addr n)
      | inet6 addr =>
        obtain rfl := some.inj hentry
        rw [dccCheckAddress, if_pos hden.rfc2553] at hok
        exact ⟨addr, n, hden, (checkAddressInet6_iff (hden.le_width rfl)).mp hok⟩
      | other family => cases hentry
    | other family => cases hok
  · intro hallows
    cases client with
    | inet client =>
      obtain ⟨addr, n, hden, hagree⟩ := hallows
      obtain rfl := some.inj (dccParseMask_denotes hden h)
      exact (checkAddressInet_iff _ (hden.le_width rfl)).mpr hagree
    | inet6 client =>
      obtain ⟨addr, n, hden, hagree⟩ := hallows
      obtain rfl := some.inj (dccParseMask_denotes hden h)
      rw [dccCheckAddress, if_pos hden.rfc2553]
      exact (checkAddressInet6_iff (hden.le_width rfl)).mpr hagree
    | other family => cases hallows

/-- **The access list lets in whom its options allow.** The list has an entry for each of
the options, in any order of the bytes of a word; against an IPv6 client there are no
options with an IPv4 address. -/
theorem dccCheckClient_iff {P : Platform} {specs : List CString} {allowed : List AllowEntry}
    (hlist : List.Forall₂ (fun spec entry => dccParseMask P spec = .ok entry) specs allowed)
    (hne : allowed ≠ []) (hwf : ∀ spec ∈ specs, WellFormedMask P spec) (client : SockAddr)
    (hfamily : ∀ c, client = .inet6 c →
      ∀ spec ∈ specs, ∀ addr n, ¬Denotes P spec (.inet addr) n) :
    dccCheckClient P (some client) allowed = .ok () ↔ ∃ spec ∈ specs, Allows P spec client := by
  rw [dccCheckClient_ok_iff P client hne]
  clear hne
  induction hlist with
  | nil => simp
  | @cons spec entry specs allowed h hlist ih =>
    have hhead : dccCheckAddress P client entry = .ok () ↔ Allows P spec client :=
      dccCheckAddress_iff_allows (hwf spec List.mem_cons_self) h
        fun c hc => hfamily c hc spec List.mem_cons_self
    have htail := ih (fun spec hspec => hwf spec (List.mem_cons_of_mem _ hspec))
      fun c hc spec hspec => hfamily c hc spec (List.mem_cons_of_mem _ hspec)
    simp only [List.exists_mem_cons_iff, hhead, htail]

/-- What `10.0.0.0/8` says. -/
theorem denotes_tenNet (order : Endian) :
    Denotes (tenNet order) (lit "10.0.0.0/8") (.inet ![10, 0, 0, 0]) 8 := by
  have htext : lit "10.0.0.0/8" = lit "10.0.0.0" ++ 47 :: lit "8" := by decide
  have hbits : ofNatDecimal (lit "8") = 8 := by decide
  have hden : Denotes (tenNet order) (lit "10.0.0.0" ++ 47 :: lit "8") (.inet ![10, 0, 0, 0])
      (ofNatDecimal (lit "8")) := .masked (by decide) rfl rfl (by decide) (by decide)
  rwa [← htext, hbits] at hden

/-- Of `10.0.0.0` and `10.0.0.0/8`, the second one lets `10.1.2.3` in. -/
theorem dccCheckClient_iff_tenNet :
    dccCheckClient (tenNet .little) (some (.inet ![10, 1, 2, 3]))
      [.inet 10 (maskInet .little 32), .inet 10 (maskInet .little 8)] = .ok () := by
  have hlist : List.Forall₂ (fun spec entry => dccParseMask (tenNet .little) spec = .ok entry)
      [lit "10.0.0.0", lit "10.0.0.0/8"]
      [.inet 10 (maskInet .little 32), .inet 10 (maskInet .little 8)] :=
    .cons (by decide +kernel) (.cons (by decide +kernel) .nil)
  have halone : Denotes (tenNet .little) (lit "10.0.0.0") (.inet ![10, 0, 0, 0]) 32 :=
    .alone (by decide) rfl rfl
  refine (dccCheckClient_iff hlist (by simp) ?_ _ ?_).mpr ?_
  · simpa using ⟨⟨_, _, halone⟩, _, _, denotes_tenNet .little⟩
  · intro c hc
    cases hc
  · exact ⟨_, List.mem_cons_of_mem _ List.mem_cons_self, _, _, denotes_tenNet .little, by decide⟩

/-! ### Clients with an address inside another -/

/-- The IPv6 address `::ffff:a`. -/
def v4Mapped (a : Fin 4 → BitVec 8) : Fin 16 → BitVec 8 :=
  ![0, 0, 0, 0, 0, 0, 0, 0, 0, 0, 0xff, 0xff, a 0, a 1, a 2, a 3]

theorem isV4Mapped_v4Mapped (a : Fin 4 → BitVec 8) : isV4Mapped (v4Mapped a) = true := by
  refine decide_eq_true ⟨?_, rfl, rfl⟩
  intro i hi
  fin_cases i <;> first | rfl | exact absurd hi (by decide)

/-- The last four bytes are put together as on the network. -/
theorem inetFromInet6_eq (addr : Fin 16 → BitVec 8) :
    inetFromInet6 addr = loadWord .big (lowBytes addr) := by
  have hfold : inetFromInet6 addr =
      ((0 ||| (lowBytes addr 0).setWidth 32 <<< 24) ||| (lowBytes addr 1).setWidth 32 <<< 16) |||
        (lowBytes addr 2).setWidth 32 <<< 8 ||| (lowBytes addr 3).setWidth 32 <<< 0 := rfl
  rw [hfold, loadWord]
  refine BitVec.eq_of_getLsbD_eq fun k hk => ?_
  simp only [BitVec.getLsbD_or, BitVec.getLsbD_shiftLeft, BitVec.getLsbD_setWidth,
    BitVec.getLsbD_append]
  have hout (b : BitVec 8) (i : ℕ) (hi : 8 ≤ i) : b.getLsbD i = false := BitVec.getLsbD_of_ge b i hi
  -- Of the four bytes, one has this bit, and for the others it is out of range.
  obtain h | h | h | h : k < 8 ∨ 8 ≤ k ∧ k < 16 ∨ 16 ≤ k ∧ k < 24 ∨ 24 ≤ k := by omega
  · rw [if_pos h]
    simp [h, hk, show k < 16 by omega, show k < 24 by omega]
  · rw [if_neg (by omega), if_pos (by omega), hout _ (k - 0) (by omega)]
    simp [h, hk, show ¬k < 8 by omega, show k - 8 < 32 by omega, show k < 24 by omega]
  · rw [if_neg (by omega), if_neg (by omega), if_pos (by omega), hout _ (k - 0) (by omega),
      hout _ (k - 8) (by omega), Nat.sub_sub]
    simp [h, hk, show ¬k < 16 by omega, show k - 16 < 32 by omega]
  · rw [if_neg (by omega), if_neg (by omega), if_neg (by omega), hout _ (k - 0) (by omega),
      hout _ (k - 8) (by omega), hout _ (k - 16) (by omega), Nat.sub_sub, Nat.sub_sub]
    simp [hk, show ¬k < 24 by omega, show k - 24 < 32 by omega]

theorem inetFromInet6_v4Mapped (a : Fin 4 → BitVec 8) :
    inetFromInet6 (v4Mapped a) = loadWord .big a := by
  have hlow : lowBytes (v4Mapped a) = a := by
    funext i
    fin_cases i <;> rfl
  rw [inetFromInet6_eq, hlow]

/-- A mapped client is compared by the bytes of its address, or by the same bytes in reverse
on a machine that has them the other way round. -/
theorem dccCheckAddress_mapped (P : Platform) (hrfc : P.rfc2553 = true)
    (a addr : Fin 4 → BitVec 8) (hn : n ≤ 32) :
    dccCheckAddress P (.inet6 (v4Mapped a))
        (.inet (loadWord P.order addr) (maskInet P.order n)) = .ok () ↔
      AgreeOn n (if P.order = .big then a else swapped a) addr := by
  rw [dccCheckAddress, if_pos ⟨hrfc, Or.inl (isV4Mapped_v4Mapped a)⟩, inetFromInet6_v4Mapped]
  cases horder : P.order with
  | big => exact checkAddressInet_iff .big hn
  | little =>
    rw [if_neg (by decide), ← loadWord_swapped]
    exact checkAddressInet_iff .little hn

theorem parseMaskBits_le {w n : ℕ} {bits : Option CString} (h : parseMaskBits w bits = .ok n) :
    n ≤ w := by
  unfold parseMaskBits at h
  split at h
  · exact (Except.ok.inj h).ge
  · split at h
    · cases h
    · have := Except.ok.inj h
      omega

/-- **When a mapped client is treated as the client it stands for**: always on a machine
that orders bytes as the network does, and otherwise exactly if the reversed address
gives the same answer. -/
theorem dccCheckAddress_mapped_iff {P : Platform} (hrfc : P.rfc2553 = true) {spec : CString}
    {value mask : BitVec 32} (h : dccParseMask P spec = .ok (.inet value mask)) :
    ∃ addr n, P.parse (splitMask spec).1 = some (.inet addr) ∧
      parseMaskBits 32 (splitMask spec).2 = .ok n ∧
      ∀ a : Fin 4 → BitVec 8,
        dccCheckAddress P (.inet6 (v4Mapped a)) (.inet value mask) =
            dccCheckAddress P (.inet a) (.inet value mask) ↔
          P.order = .big ∨ (AgreeOn n (swapped a) addr ↔ AgreeOn n a addr) := by
  obtain ⟨sa, w, n, hparse, hwidth, hbits, hentry⟩ := dccParseMask_eq_ok_iff.mp h
  cases sa with
  | inet addr =>
    obtain rfl : 32 = w := some.inj hwidth
    obtain ⟨rfl, rfl⟩ : loadWord P.order addr = value ∧ maskInet P.order n = mask := by
      simpa [AllowEntry.ofBits] using hentry
    refine ⟨addr, n, hparse, hbits, fun a => ?_⟩
    have hn := parseMaskBits_le hbits
    have hmapped := dccCheckAddress_mapped P hrfc a addr hn
    have hplain : dccCheckAddress P (.inet a)
        (.inet (loadWord P.order addr) (maskInet P.order n)) = .ok () ↔ AgreeOn n a addr :=
      checkAddressInet_iff P.order hn
    rw [answer_eq_iff, hmapped, hplain]
    by_cases horder : P.order = .big <;> simp [horder]
  | inet6 addr => cases hentry
  | other family => cases hwidth

/-- An address that reads the same from both ends is treated alike. -/
theorem dccCheckAddress_mapped_palindrome :
    dccCheckAddress (tenNet .little) (.inet6 (v4Mapped ![10, 0, 0, 10]))
        (.inet 10 (maskInet .little 8)) =
      dccCheckAddress (tenNet .little) (.inet ![10, 0, 0, 10])
        (.inet 10 (maskInet .little 8)) := by
  have hparse : dccParseMask (tenNet .little) (lit "10.0.0.0/8") =
      .ok (.inet 10 (maskInet .little 8)) := by decide +kernel
  obtain ⟨addr, n, -, -, hiff⟩ := dccCheckAddress_mapped_iff rfl hparse
  have hswap : swapped ![10, 0, 0, 10] = ![10, 0, 0, 10] := by decide
  exact (hiff _).mpr (Or.inr (by rw [hswap]))

/-- `10.0.0.0/8` lets `10.0.0.1` in, but on a little-endian machine not `::ffff:10.0.0.1`. -/
theorem dccCheckAddress_denies_mapped :
    dccParseMask (tenNet .little) (lit "10.0.0.0/8") = .ok (.inet 10 (maskInet .little 8)) ∧
      dccCheckAddress (tenNet .little) (.inet ![10, 0, 0, 1])
        (.inet 10 (maskInet .little 8)) = .ok () ∧
      dccCheckAddress (tenNet .little) (.inet6 (v4Mapped ![10, 0, 0, 1]))
        (.inet 10 (maskInet .little 8)) = .error .accessDenied := by
  refine ⟨?_, ?_, ?_⟩ <;> decide +kernel

end Distcc
