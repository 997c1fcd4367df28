import Mathlib.Data.BitVec

/-!
# Masks on bits that are counted from the top

An address on a network is a string of bytes, and the bits of its bytes are numbered from
the most significant one of the first byte on (`netBit`). A machine that loads four
of them as a word puts them in the order it is built for; a word can be put into the
order of the network and back (`htonl`).

A mask of `n` bits is a word, or a string of bytes, whose first `n` bits are ones. Two
words are the same under a mask exactly if they have the same bits where the mask has
ones (`and_eq_and_iff`), and so two strings are the same under a mask of `n` bits
exactly if they agree on their first `n` bits, byte by byte (`and_maskByte_iff`)
or loaded as a word on either kind of machine (`and_loadWord_iff`).
-/

namespace Distcc

/-! ### Bits of a word -/

/-- Under a mask, words are compared where it has ones. -/
theorem and_eq_and_iff {w : ℕ} {x y m : BitVec w} :
    x &&& m = y &&& m ↔ ∀ k < w, m.getMsbD k = true → x.getMsbD k = y.getMsbD k := by
  constructor
  · intro h k _ hm
    have hbit := congrArg (·.getMsbD k) h
    simpa [hm] using hbit
  · intro h
    refine BitVec.eq_of_getMsbD_eq fun k hk => ?_
    rw [BitVec.getMsbD_and, BitVec.getMsbD_and]
    cases hm : m.getMsbD k with
    | false => rw [Bool.and_false, Bool.and_false]
    | true => rw [h k hk hm]

/-- The word whose first `n` bits are ones. -/
def headMask (w n : ℕ) : BitVec w := ~~~(BitVec.allOnes w >>> n)

theorem getMsbD_headMask {w n k : ℕ} (hk : k < w) : (headMask w n).getMsbD k = decide (k < n) := by
  have hk' : k - n < w := by omega
  simp [headMask, hk, hk']

/-! ### Strings of bytes -/

section Bytes

variable {len : ℕ}

/-- The bit with this number. -/
def netBit (b : Fin len → BitVec 8) (k : ℕ) : Bool :=
  if h : k / 8 < len then (b ⟨k / 8, h⟩).getMsbD (k % 8) else false

/-- The first `n` bits are the same. -/
def AgreeOn (n : ℕ) (a b : Fin len → BitVec 8) : Prop := ∀ k < n, netBit a k = netBit b k

instance (n : ℕ) (a b : Fin len → BitVec 8) : Decidable (AgreeOn n a b) :=
  inferInstanceAs (Decidable (∀ k < n, netBit a k = netBit b k))

theorem netBit_byte (b : Fin len → BitVec 8) (i : Fin len) {j : ℕ} (hj : j < 8) :
    netBit b (8 * i + j) = (b i).getMsbD j := by
  have hdiv : (8 * i.val + j) / 8 = i := by omega
  have hmod : (8 * i.val + j) % 8 = j := by omega
  simp only [netBit, hdiv, hmod, Fin.is_lt, dif_pos, Fin.eta]

/-- A byte of the mask of `n` bits. -/
def maskByte (n : ℕ) (i : ℕ) : BitVec 8 :=
  if i < n / 8 then BitVec.allOnes 8 else if i = n / 8 then headMask 8 (n % 8) else 0

theorem getMsbD_maskByte {n i j : ℕ} (hj : j < 8) :
    (maskByte n i).getMsbD j = decide (8 * i + j < n) := by
  unfold maskByte
  split
  · case isTrue hlt =>
    rw [BitVec.getMsbD_allOnes, decide_eq_decide]
    omega
  · case isFalse hge =>
    split
    · case isTrue heq =>
      rw [getMsbD_headMask hj, decide_eq_decide]
      omega
    · case isFalse hne =>
      have hout : ¬8 * i + j < n := by omega
      simp [hout]

/-- **Byte by byte, the mask of `n` bits compares the first `n` bits.** -/
theorem and_maskByte_iff {n : ℕ} (hn : n ≤ 8 * len) {a b : Fin len → BitVec 8} :
    (∀ i : Fin len, a i &&& maskByte n i = b i &&& maskByte n i) ↔ AgreeOn n a b := by
  constructor
  · intro h k hk
    have hi : k / 8 < len := by omega
    have hj : k % 8 < 8 := Nat.mod_lt _ (by decide)
    have hone : (maskByte n (k / 8)).getMsbD (k % 8) = true := by
      rw [getMsbD_maskByte hj, decide_eq_true_eq]
      omega
    have hbit := and_eq_and_iff.mp (h ⟨k / 8, hi⟩) (k % 8) hj hone
    simpa only [netBit, hi, dif_pos] using hbit
  · intro h i
    refine and_eq_and_iff.mpr fun j hj hone => ?_
    rw [getMsbD_maskByte hj, decide_eq_true_eq] at hone
    rw [← netBit_byte a i hj, ← netBit_byte b i hj]
    exact h _ hone

end Bytes

/-! ### Words in memory -/

/-- The order of the bytes of a word in memory. -/
inductive Endian where
  /-- The most significant byte comes first, as on the network. -/
  | big
  /-- The least significant byte comes first. -/
  | little
  deriving DecidableEq, Repr

instance neZeroFour : NeZero 4 := ⟨by decide⟩

/-- Four bytes of memory as a word. -/
def loadWord : Endian → (Fin 4 → BitVec 8) → BitVec 32
  | .big, b => b 0 ++ b 1 ++ b 2 ++ b 3
  | .little, b => b 3 ++ b 2 ++ b 1 ++ b 0

/-- `htonl` -/
def htonl : Endian → BitVec 32 → BitVec 32
  | .big, x => x
  | .little, x => x.extractLsb' 0 8 ++ x.extractLsb' 8 8 ++ x.extractLsb' 16 8 ++ x.extractLsb' 24 8

/-- The number, on the network, of a bit of a word. -/
def netIndex : Endian → ℕ → ℕ
  | .big, k => k
  | .little, k => 8 * (3 - k / 8) + k % 8

variable {k : ℕ} (e : Endian) (b : Fin 4 → BitVec 8)

theorem netIndex_lt (hk : k < 32) : netIndex e k < 32 := by
  cases e with
  | big => exact hk
  | little =>
    simp only [netIndex]
    omega

theorem netIndex_netIndex (hk : k < 32) : netIndex e (netIndex e k) = k := by
  cases e with
  | big => rfl
  | little =>
    simp only [netIndex]
    omega

/-- The bits of four bytes in a row. -/
theorem getMsbD_four (hk : k < 32) : (b 0 ++ b 1 ++ b 2 ++ b 3).getMsbD k = netBit b k := by
  have hmod : k = 8 * (k / 8) + k % 8 := by omega
  have hj : k % 8 < 8 := Nat.mod_lt _ (by decide)
  obtain h | h | h | h : k / 8 = 0 ∨ k / 8 = 1 ∨ k / 8 = 2 ∨ k / 8 = 3 := by omega
  all_goals
    rw [hmod, h]
    generalize k % 8 = j at hj
    simp only [BitVec.getMsbD_append]
  · refine Eq.trans ?_ (netBit_byte b 0 hj).symm
    rw [if_neg (by omega), if_neg (by omega), if_neg (by omega)]
    simp
  · refine Eq.trans ?_ (netBit_byte b 1 hj).symm
    rw [if_neg (by omega), if_neg (by omega), if_pos (by omega)]
    simp
  · refine Eq.trans ?_ (netBit_byte b 2 hj).symm
    rw [if_neg (by omega), if_pos (by omega)]
    simp
  · refine Eq.trans ?_ (netBit_byte b 3 hj).symm
    rw [if_pos (by omega)]
    simp

/-- The same four bytes, the other way round. -/
def swapped (b : Fin 4 → BitVec 8) : Fin 4 → BitVec 8 := fun i => b i.rev

theorem netBit_swapped (hk : k < 32) : netBit (swapped b) k = netBit b (netIndex .little k) := by
  have hj : k % 8 < 8 := Nat.mod_lt _ (by decide)
  have hi : k / 8 < 4 := by omega
  have hk' : k = 8 * (⟨k / 8, hi⟩ : Fin 4).val + k % 8 := (Nat.div_add_mod k 8).symm
  have hrev : netIndex .little k = 8 * (⟨k / 8, hi⟩ : Fin 4).rev.val + k % 8 := by
    simp only [netIndex, Fin.val_rev]
    omega
  rw [hrev, netBit_byte b _ hj]
  conv_lhs => rw [hk']
  rw [netBit_byte _ _ hj]
  rfl

theorem getMsbD_loadWord (hk : k < 32) : (loadWord e b).getMsbD k = netBit b (netIndex e k) := by
  cases e with
  | big => exact getMsbD_four b hk
  | little =>
    rw [← netBit_swapped b hk]
    exact getMsbD_four (swapped b) hk

/-- The bytes of a word, the most significant one first. -/
def wordBytes (x : BitVec 32) : Fin 4 → BitVec 8 := fun i => x.extractLsb' (8 * i.rev) 8

theorem netBit_wordBytes (x : BitVec 32) (hk : k < 32) : netBit (wordBytes x) k = x.getMsbD k := by
  have hj : k % 8 < 8 := Nat.mod_lt _ (by decide)
  have hi : k / 8 < 4 := by omega
  simp only [netBit, hi, dif_pos, wordBytes, Fin.val_rev,
    BitVec.getMsbD_eq_getLsbD, BitVec.getLsbD_extractLsb', hj, hk, decide_true, Bool.true_and]
  have hlt : 8 - 1 - k % 8 < 8 := by omega
  have hindex : 8 * (4 - (k / 8 + 1)) + (8 - 1 - k % 8) = 32 - 1 - k := by omega
  rw [hindex, decide_eq_true hlt, Bool.true_and]

theorem getMsbD_htonl (x : BitVec 32) (hk : k < 32) :
    (htonl e x).getMsbD k = x.getMsbD (netIndex e k) := by
  cases e with
  | big => rfl
  | little =>
    rw [← netBit_wordBytes x (netIndex_lt .little hk), ← netBit_swapped _ hk]
    exact getMsbD_four (swapped (wordBytes x)) hk

/-- **Loaded as words, the mask of `n` bits compares the first `n` bits**, on either kind
of machine. -/
theorem and_loadWord_iff {n : ℕ} (hn : n ≤ 32) {a b : Fin 4 → BitVec 8} :
    loadWord e a &&& htonl e (headMask 32 n) = loadWord e b &&& htonl e (headMask 32 n) ↔
      AgreeOn n a b := by
  rw [and_eq_and_iff]
  constructor
  · intro h k hk
    have hk32 : k < 32 := by omega
    have hindex := netIndex_lt e hk32
    have hbit := h (netIndex e k) hindex
    rw [getMsbD_htonl e _ hindex, getMsbD_loadWord e _ hindex, getMsbD_loadWord e _ hindex,
      netIndex_netIndex e hk32, getMsbD_headMask hk32] at hbit
    exact hbit (decide_eq_true hk)
  · intro h k hk hone
    rw [getMsbD_htonl e _ hk, getMsbD_headMask (netIndex_lt e hk), decide_eq_true_eq] at hone
    rw [getMsbD_loadWord e _ hk, getMsbD_loadWord e _ hk]
    exact h _ hone

/-- On the one kind of machine, a word is loaded as the other kind loads the bytes the
other way round. -/
theorem loadWord_swapped : loadWord .little (swapped b) = loadWord .big b := rfl

end Distcc
