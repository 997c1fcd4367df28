import Mathlib.Data.Nat.Log
import Mathlib.Logic.Relation
import Distcc.Io

/-!
# Compressed bodies

Model of `src/compress.c`. The compressor and the decompressor of LZO are parameters
(`Lzo`), with what the program relies on as their laws: the decompressor
undoes the compressor if the buffer is large enough and says so if it is not, no
block is empty or – since each ends with a mark – the beginning of another, and no
block stands for more than 256 times its length.

The size of the buffer for the plain text is a guess. It starts at eight times the
length of what came in, computed in 32 bits, and is doubled, in 64 bits, until the
text fits. A body as the compressor makes it, of less than 2²⁹ bytes, is therefore
unpacked in the end (`dccRBulkLzo1x_reads`). In general the sizes grow, so that the
function comes to an end, unless the first one is 0 (`retriesProgress_iff`).
-/

namespace Distcc

open List Prog

/-- What `lzo1x_decompress_safe` says. -/
inductive LzoResult where
  /-- `LZO_E_OK`, and the plain text. -/
  | ok (text : CString)
  /-- `LZO_E_OUTPUT_OVERRUN` -/
  | overrun
  /-- Any other code. -/
  | error
  deriving DecidableEq, Repr

/-- The library. -/
structure Lzo where
  /-- `lzo1x_1_compress` -/
  compress : CString → CString
  /-- `lzo1x_decompress_safe`, with the size of the buffer. -/
  decompress : CString → ℕ → LzoResult
  decompress_compress : ∀ text size,
    decompress (compress text) size = if text.length ≤ size then .ok text else .overrun
  compress_ne_nil : ∀ text, compress text ≠ []
  compress_prefix_free : ∀ text text', compress text <+: compress text' → text = text'
  length_le : ∀ text, text.length ≤ 256 * (compress text).length

section

variable (lzo : Lzo)

/-- `dcc_compress_lzo1x_alloc` -/
def dccCompressLzo1xAlloc (inBuf : CString) : Io CString := do
  if ← alloc then
    -- does `lzo1x_1_compress` return `LZO_E_OK`?
    if ← alloc then pure (lzo.compress inBuf) else Prog.fail ExitCode.ioError.failure
  else Prog.fail ExitCode.outOfMemory.failure

/-- `dcc_compress_file_lzo1x` -/
def dccCompressFileLzo1x (inLen : ℕ) : Io CString := do
  if ← alloc then
    let inBuf ← dccReadx .file inLen
    dccCompressLzo1xAlloc lzo inBuf
  else Prog.fail ExitCode.outOfMemory.failure

/-- Unpacking into a buffer of size `outSize`. -/
def unpack (dst : Sink) (inBuf : CString) (outSize : ℕ) : Io (ℕ ⊕ Unit) :=
  match lzo.decompress inBuf outSize with
  | .ok outBuf => do
    dccWritex dst outBuf
    pure (.inr ())
  | .overrun => pure (.inl (outSize * 2 % 2 ^ 64))
  | .error => Prog.fail ExitCode.ioError.failure

/-- `try_again_with_a_bigger_buffer:`, with the size of the buffer. -/
def decompressTurn (dst : Sink) (inBuf : CString) (outSize : ℕ) : Io (ℕ ⊕ Unit) := do
  if ← alloc then unpack lzo dst inBuf outSize
  else Prog.fail ExitCode.outOfMemory.failure

/-- `dcc_r_bulk_lzo1x`. After 64 turns the size is 0, and stays so. -/
def dccRBulkLzo1x (dst : Sink) (inLen : ℕ) : Io Unit := do
  if inLen = 0 then pure ()
  else if ← alloc then
    let inBuf ← dccReadx .connection inLen
    loopFor 65 (decompressTurn lzo dst inBuf) (8 * inLen % 2 ^ 32)
  else Prog.fail ExitCode.outOfMemory.failure

end

section Specs

variable {lzo : Lzo} {w w' : World}

/-- **`dcc_compress_file_lzo1x`** reads the file and compresses it; if it fails, it has
written nothing. In a benign world, with a file that is long enough, it does not fail. -/
theorem dccCompressFileLzo1x_total (lzo : Lzo) (inLen : ℕ) (w : World) :
    (dccCompressFileLzo1x lzo inLen).Total w fun r w' =>
      (inLen ≤ w.reading.length ∧ r = .ok (lzo.compress (w.reading.take inLen)) ∧
          (w.drop inLen .file).Same w') ∨
        ∃ e k, r = .error e ∧ (w.drop k .file).Same w' ∧
          ¬(w.Benign ∧ inLen ≤ w.reading.length) := by
  refine alloc_then_total (fun w₁ hsame => ?_) fun w₁ hsame hnot => ?_
  · have hreading : w₁.input .file = w.reading := hsame.input .file
    have hread := dccReadx_total .file inLen w₁
    rw [hreading] at hread
    refine hread.bind ?_ ?_
    · rintro inBuf w₂ (⟨hle, hr, hsame'⟩ | ⟨_, _, hr, -⟩)
      · obtain rfl := Except.ok.inj hr
        have hread' := (hsame.drop inLen .file).trans hsame'
        have hfail {w₃} (e : Failure) (hsame2 : w₂.Same w₃) (hnot : ¬w₂.Benign) :
            ∃ e' k, (.error e : Except Failure CString) = .error e' ∧ (w.drop k .file).Same w₃ ∧
              ¬(w.Benign ∧ inLen ≤ w.reading.length) :=
          ⟨e, inLen, rfl, hread'.trans hsame2, fun h => hnot (hread'.benign (h.1.drop _ _))⟩
        refine alloc_then_total (fun w₃ hsame2 => ?_) fun w₃ hsame2 hnot =>
          .inr (hfail _ hsame2 hnot)
        refine alloc_then_total (fun w₄ hsame3 => ?_) fun w₄ hsame3 hnot => .inr ?_
        · exact ⟨_, w₄, rfl, .inl ⟨hle, rfl, (hread'.trans hsame2).trans hsame3⟩⟩
        · exact hfail _ (hsame2.trans hsame3) fun hw => hnot (hsame2.benign hw)
      · cases hr
    · rintro e w₂ (⟨-, hr, -⟩ | ⟨_, k, -, -, -, hsame', hnot⟩)
      · cases hr
      · exact .inr ⟨e, k, rfl, (hsame.drop k .file).trans hsame', fun h => hnot
          ⟨hsame.benign h.1, h.2⟩⟩
  · exact .inr ⟨_, 0, rfl, by simpa using hsame, fun h => hnot h.1⟩

/-- A turn goes on, with twice the size, when the text does not fit; the one that unpacks the
body writes it all and ends the loop. -/
theorem decompressTurn_total (lzo : Lzo) (dst : Sink) (inBuf : CString) (outSize : ℕ) (w : World) :
    (decompressTurn lzo dst inBuf outSize).Total w (TurnEnds
      (fun size w' => lzo.decompress inBuf outSize = .overrun ∧ size = outSize * 2 % 2 ^ 64 ∧
        w.Same w')
      (fun r w' => (∃ text, r = .ok () ∧ lzo.decompress inBuf outSize = .ok text ∧
          (w.put text dst).Same w') ∨
        ∃ e, r = .error e ∧ ¬(w.Benign ∧ lzo.decompress inBuf outSize ≠ .error))) := by
  refine alloc_then_total (fun w₁ hsame => ?_) fun w₁ _ hnot => ?_
  · unfold unpack
    split
    · case h_1 text htext =>
      refine (writeAll_total false dst text w₁).bind ?_ ?_
      · rintro _ w₂ (⟨-, hsame'⟩ | ⟨_, _, hr, -⟩)
        · exact ⟨_, w₂, rfl, .done (.inl ⟨text, rfl, htext, (hsame.put text dst).trans hsame'⟩)⟩
        · cases hr
      · rintro e w₂ (⟨hr, -⟩ | ⟨_, _, -, -, -, hnot⟩)
        · cases hr
        · exact .error (.inr ⟨e, rfl, fun h => hnot (hsame.benign h.1)⟩)
    · case h_2 hoverrun => exact ⟨_, w₁, rfl, .next ⟨hoverrun, rfl, hsame⟩⟩
    · case h_3 herror => exact ⟨_, w₁, rfl, .error (.inr ⟨_, rfl, fun h => h.2 herror⟩)⟩
  · exact .error (.inr ⟨_, rfl, fun h => hnot h.1⟩)

/-- **`dcc_r_bulk_lzo1x`** reads the body and writes what the decompressor makes of it. -/
theorem dccRBulkLzo1x_spec {dst : Sink} {inLen : ℕ} (hlen : inLen ≠ 0)
    (h : dccRBulkLzo1x lzo dst inLen w = some (.ok (), w')) :
    inLen ≤ w.incoming.length ∧ ∃ text size,
      lzo.decompress (w.incoming.take inLen) size = .ok text ∧
        ((w.drop inLen .connection).put text dst).Same w' := by
  rw [dccRBulkLzo1x, if_neg hlen] at h
  rcases alloc_then_cases h with ⟨hr, -⟩ | ⟨w₁, hsame, hrun⟩
  · cases hr
  obtain ⟨inBuf, w₂, hread, hloop⟩ := bind_eq_ok_iff.mp hrun
  have hincoming : w₁.input .connection = w.incoming := hsame.input .connection
  obtain ⟨hle, rfl, hsame'⟩ := dccReadx_ok hread
  rw [hincoming] at hle hloop
  have hread' := (hsame.drop inLen .connection).trans hsame'
  have hout : Except.ok () = Except.ok (ε := Failure) () → ∃ text size,
      lzo.decompress (w.incoming.take inLen) size = .ok text ∧ (w₂.put text dst).Same w' := by
    refine loopFor_rule (I := fun _ w₃ => w₂.Same w₃)
      (Q := fun r w₃ => r = .ok () → ∃ text size,
        lzo.decompress (w.incoming.take inLen) size = .ok text ∧ (w₂.put text dst).Same w₃)
      ?_ ?_ ?_ (World.Same.refl w₂) hloop
    · intro size w₃ size' w₄ hI hturn
      obtain ⟨-, -, hsame3⟩ := (decompressTurn_total ..).spec hturn
      exact hI.trans hsame3
    · intro size w₃ _ w₄ hI hturn _
      obtain _ | (⟨text, -, htext, hput⟩ | ⟨_, hr, -⟩) := (decompressTurn_total ..).spec hturn
      · exact ⟨text, size, htext, (hI.put text dst).trans hput⟩
      · cases hr
    · intro size w₃ e w₄ _ _ hr
      cases hr
  obtain ⟨text, size, htext, hput⟩ := hout rfl
  exact ⟨hle, text, size, htext, (hread'.put text dst).trans hput⟩

theorem log_mul_two_pow {n : ℕ} (hn : n ≠ 0) (k : ℕ) : Nat.log 2 (n * 2 ^ k) = Nat.log 2 n + k := by
  induction k with
  | zero => simp
  | succ k ih =>
    have hne : n * 2 ^ k ≠ 0 := Nat.mul_ne_zero hn (Nat.two_pow_pos k).ne'
    rw [Nat.pow_succ, ← Nat.mul_assoc, Nat.log_mul_base (by decide) hne, ih, Nat.add_assoc]

/-- A buffer that is too small for what the compressor made can be doubled. -/
theorem doubles_of_overrun {text : CString} {k : ℕ} (hk : k ≤ 5)
    (hlen : (lzo.compress text).length < 2 ^ 29)
    (h : lzo.decompress (lzo.compress text) (8 * (lzo.compress text).length * 2 ^ k) = .overrun) :
    k < 5 ∧ 8 * (lzo.compress text).length * 2 ^ k * 2 % 2 ^ 64 =
      8 * (lzo.compress text).length * 2 ^ (k + 1) := by
  have hratio := lzo.length_le text
  have hsmall : ¬text.length ≤ 8 * (lzo.compress text).length * 2 ^ k := by
    intro hfits
    rw [lzo.decompress_compress, if_pos hfits] at h
    cases h
  have hk5 : k < 5 := by
    rcases Nat.lt_or_ge k 5 with hlt | hge
    · exact hlt
    · obtain rfl : k = 5 := le_antisymm hk hge
      exact absurd hratio (by omega)
  have hle : 8 * (lzo.compress text).length * 2 ^ k ≤ 8 * (lzo.compress text).length * 2 ^ 5 :=
    Nat.mul_le_mul_left _ (Nat.pow_le_pow_right (by decide) hk)
  rw [Nat.mod_eq_of_lt (by omega), Nat.pow_succ, Nat.mul_assoc]
  exact ⟨hk5, rfl⟩

/-- **A body as the compressor makes it is unpacked**, if its length times eight is
a number of 32 bits. -/
theorem dccRBulkLzo1x_reads {dst : Sink} {text rest : CString}
    (hlen : (lzo.compress text).length < 2 ^ 29) (hw : w.Benign)
    (hin : w.incoming = lzo.compress text ++ rest) :
    ∃ w', dccRBulkLzo1x lzo dst (lzo.compress text).length w = some (.ok (), w') ∧
      ((w.drop (lzo.compress text).length .connection).put text dst).Same w' := by
  have hne : (lzo.compress text).length ≠ 0 :=
    fun h => lzo.compress_ne_nil text (length_eq_zero_iff.mp h)
  have hnoError (size : ℕ) : lzo.decompress (lzo.compress text) size ≠ .error := by
    rw [lzo.decompress_compress]
    split <;> simp
  have htotal : (dccRBulkLzo1x lzo dst (lzo.compress text).length).Total w
      fun r _ => r = .ok () := by
    rw [dccRBulkLzo1x, if_neg hne]
    refine alloc_then_total (fun w₁ hsame => ?_) fun w₁ _ hnot => absurd hw hnot
    have hin1 : w₁.incoming = lzo.compress text ++ rest := (hsame.input .connection).trans hin
    obtain ⟨w₂, hread, hsame'⟩ := dccReadx_reads (hsame.benign hw) hin1
    have hw2 := hsame'.benign ((hsame.benign hw).drop .connection _)
    rw [Prog.Total, bind_of_ok hread, Nat.mod_eq_of_lt (by omega)]
    -- the size is doubled five times at most
    refine loopFor_total (I := fun size w₃ => w₃.Benign ∧
        ∃ k ≤ 5, size = 8 * (lzo.compress text).length * 2 ^ k)
      (fun size _ => Nat.log 2 (8 * (lzo.compress text).length) + 5 - Nat.log 2 size) ?_
      ⟨hw2, 0, by decide, by simp⟩ (by omega)
    rintro _ w₃ ⟨hw3, k, hk, rfl⟩
    obtain ⟨r, w₄, hturn, hends⟩ := decompressTurn_total lzo dst (lzo.compress text)
      (8 * (lzo.compress text).length * 2 ^ k) w₃
    refine ⟨r, w₄, hturn, hends.imp ?_ ?_⟩
    · rintro _ ⟨hoverrun, rfl, hsame3⟩
      obtain ⟨hk5, hsize⟩ := doubles_of_overrun hk hlen hoverrun
      rw [hsize]
      refine ⟨⟨hsame3.benign hw3, k + 1, hk5, rfl⟩, ?_⟩
      rw [log_mul_two_pow (by omega), log_mul_two_pow (by omega)]
      omega
    · rintro _ (⟨_, rfl, -⟩ | ⟨_, -, hnot⟩)
      · rfl
      · exact absurd ⟨hw3, hnoError _⟩ hnot
  obtain ⟨_, w', hrun, rfl⟩ := htotal
  refine ⟨w', hrun, ?_⟩
  obtain ⟨-, text', size, htext, hput⟩ := dccRBulkLzo1x_spec hne hrun
  rw [hin, take_left, lzo.decompress_compress] at htext
  split at htext
  · obtain rfl := LzoResult.ok.inj htext
    exact hput
  · cases htext

end Specs

/-! ### Sizes of buffers -/

section Sizes

open Relation (ReflTransGen)

variable {lzo : Lzo} {dst : Sink} {body : CString} {w w' : World}

/-- **Retries make progress**: every size that is tried is positive and larger than the one
before it, and the function comes to an end, whatever the system does. -/
structure RetriesProgress (lzo : Lzo) (dst : Sink) (body : CString) : Prop where
  positive : ∀ w size w', ReflTransGen (Prog.Goes (decompressTurn lzo dst body))
    (8 * body.length % 2 ^ 32, w) (size, w') → 0 < size
  larger : ∀ w size w' size' w'', ReflTransGen (Prog.Goes (decompressTurn lzo dst body))
    (8 * body.length % 2 ^ 32, w) (size, w') →
      Prog.Goes (decompressTurn lzo dst body) (size, w') (size', w'') → size < size'
  ends : ∀ w rest, w.incoming = body ++ rest →
    ∃ r w', dccRBulkLzo1x lzo dst body.length w = some (r, w')

section Progress

variable {n : ℕ} (hsize : ∀ size, lzo.decompress body size = .overrun ↔ size < n) (hn : n < 2 ^ 62)

include hsize hn

/-- While the text does not fit, there is room for doubling. -/
theorem decompressTurn_doubles {size size' : ℕ}
    (h : decompressTurn lzo dst body size w = some (.ok (.inl size'), w')) :
    size < 2 ^ 62 ∧ size' = size * 2 := by
  obtain ⟨hoverrun, rfl, -⟩ := (decompressTurn_total ..).spec h
  have hlt : size < 2 ^ 62 := ((hsize size).mp hoverrun).trans hn
  exact ⟨hlt, Nat.mod_eq_of_lt (by omega)⟩

theorem positive_of_goes {p q : ℕ × World} (hp : 0 < p.1)
    (h : ReflTransGen (Prog.Goes (decompressTurn lzo dst body)) p q) : 0 < q.1 := by
  induction h with
  | refl => exact hp
  | tail _ hturn ih =>
    obtain ⟨-, hdouble⟩ := decompressTurn_doubles hsize hn hturn
    rw [hdouble]
    exact Nat.mul_pos ih (by decide)

/-- **The sizes grow unless the first one is 0**, as it is if the length is a multiple of
2²⁹. -/
theorem retriesProgress_iff : RetriesProgress lzo dst body ↔ ¬ 2 ^ 29 ∣ body.length := by
  constructor
  · intro h hdvd
    have hpos := h.positive {} _ {} .refl
    omega
  · intro hdvd
    have hpos : 0 < 8 * body.length % 2 ^ 32 := by omega
    refine ⟨fun w size w' h => positive_of_goes hsize hn hpos h, ?_, fun w rest hin => ?_⟩
    · intro w size w' size' w'' h hturn
      obtain ⟨-, rfl⟩ := decompressTurn_doubles hsize hn hturn
      have hsize' : 0 < size := positive_of_goes hsize hn hpos h
      omega
    · have htotal : (dccRBulkLzo1x lzo dst body.length).Total w fun _ _ => True := by
        rw [dccRBulkLzo1x]
        split
        · exact ⟨_, _, rfl, trivial⟩
        refine alloc_then_total (fun w₁ hsame => ?_) fun _ _ _ => trivial
        have hread := dccReadx_total .connection body.length w₁
        rw [hsame.input, World.input, hin, take_left] at hread
        refine hread.bind ?_ fun _ _ _ => trivial
        rintro inBuf w₂ (⟨-, hr, -⟩ | ⟨_, _, hr, -⟩)
        · obtain rfl := Except.ok.inj hr
          -- the sizes are below 2 ^ 63, and each of them has one more binary digit
          refine loopFor_total (I := fun size _ => 0 < size) (fun size _ => 63 - Nat.log 2 size) ?_
            hpos (by omega)
          intro size w₃ hpos
          obtain ⟨r, w₄, hturn, hends⟩ := decompressTurn_total lzo dst inBuf size w₃
          refine ⟨r, w₄, hturn, hends.imp ?_ fun _ _ => trivial⟩
          rintro _ ⟨hoverrun, rfl, -⟩
          have hlt : size < 2 ^ 62 := ((hsize size).mp hoverrun).trans hn
          have hlog : Nat.log 2 size < 62 := Nat.log_lt_of_lt_pow hpos.ne' hlt
          rw [Nat.mod_eq_of_lt (by omega), Nat.log_mul_base (by decide) hpos.ne']
          exact ⟨Nat.mul_pos hpos (by decide), by omega⟩
        · cases hr
      obtain ⟨r, w', hrun, -⟩ := htotal
      exact ⟨r, w', hrun⟩

end Progress

end Sizes

/-! ### A library -/

/-- The bytes of a text in runs of at most 255 that are equal: how many there are, and which
byte it is. Two zeros mark the end. -/
def packRuns : CString → CString
  | [] => [0, 0]
  | b :: text =>
    match packRuns text with
    | n :: b' :: rest =>
      if n = 0 ∨ n = 255 ∨ b ≠ b' then 1 :: b :: n :: b' :: rest else (n + 1) :: b :: rest
    | rest => 1 :: b :: rest

/-- Undoing `packRuns`. -/
def unpackRuns : CString → Option CString
  | n :: b :: rest =>
    if n = 0 then if b = 0 ∧ rest = [] then some [] else none
    else (unpackRuns rest).map (replicate n.toNat b ++ ·)
  | _ => none

theorem unpackRuns_packRuns (text : CString) : unpackRuns (packRuns text) = some text := by
  induction text with
  | nil => rfl
  | cons b text ih =>
    rw [packRuns]
    split
    · case h_1 n b' rest hpack =>
      rw [hpack] at ih
      split
      · rw [unpackRuns, if_neg (by decide), ih]
        rfl
      · case isFalse hgrow =>
        simp only [not_or, not_not] at hgrow
        obtain ⟨hzero, hfull, rfl⟩ := hgrow
        have hlt := n.toNat_lt
        have hne : n.toNat ≠ 255 := fun heq => hfull (UInt8.toNat_inj.mp heq)
        have hnat : (n + 1).toNat = n.toNat + 1 := by
          rw [UInt8.toNat_add]
          exact Nat.mod_eq_of_lt (by change n.toNat + 1 < 256; omega)
        have hzero' : n + 1 ≠ 0 := by
          intro heq
          rw [heq] at hnat
          cases hnat
        rw [unpackRuns, if_neg hzero, Option.map_eq_some_iff] at ih
        obtain ⟨text', hrest, rfl⟩ := ih
        rw [unpackRuns, if_neg hzero', hrest, hnat]
        rfl
    · rw [unpackRuns, if_neg (by decide), ih]
      rfl

/-- Nothing can follow the mark of the end. -/
theorem eq_nil_of_unpackRuns {block more text text' : CString} (h : unpackRuns block = some text)
    (h' : unpackRuns (block ++ more) = some text') : more = [] := by
  fun_induction unpackRuns block generalizing text text' with
  | case1 b rest hend =>
    obtain ⟨rfl, rfl⟩ := hend
    rw [cons_append, cons_append, unpackRuns, if_pos rfl] at h'
    split at h'
    · case isTrue hmore => exact hmore.2
    · cases h'
  | case2 => cases h
  | case3 n b rest hn ih =>
    rw [cons_append, cons_append, unpackRuns, if_neg hn] at h'
    obtain ⟨_, hrest, -⟩ := Option.map_eq_some_iff.mp h
    obtain ⟨_, hrest', -⟩ := Option.map_eq_some_iff.mp h'
    exact ih hrest hrest'
  | case4 => cases h

theorem length_le_of_unpackRuns {block text : CString} (h : unpackRuns block = some text) :
    text.length ≤ 256 * block.length := by
  fun_induction unpackRuns block generalizing text with
  | case1 =>
    obtain rfl := Option.some.inj h
    exact Nat.zero_le _
  | case2 => cases h
  | case3 n b rest hn ih =>
    obtain ⟨text', hrest, rfl⟩ := Option.map_eq_some_iff.mp h
    have hle := ih hrest
    have hlt := n.toNat_lt
    rw [length_append, length_replicate, length_cons, length_cons]
    omega
  | case4 => cases h

/-- A library that packs runs of equal bytes: a block may stand for more than eight times its
length, as those of LZO may. -/
def Lzo.runs : Lzo where
  compress := packRuns
  decompress block size := (unpackRuns block).elim .error fun text =>
    if text.length ≤ size then .ok text else .overrun
  decompress_compress text size := by rw [unpackRuns_packRuns, Option.elim_some]
  compress_ne_nil text hnil := by
    have hunpack := unpackRuns_packRuns text
    rw [hnil] at hunpack
    cases hunpack
  compress_prefix_free text text' := by
    rintro ⟨more, hmore⟩
    have hunpack := unpackRuns_packRuns text
    have hunpack' := unpackRuns_packRuns text'
    rw [← hmore] at hunpack'
    obtain rfl := eq_nil_of_unpackRuns hunpack hunpack'
    rw [append_nil] at hunpack'
    exact Option.some.inj (hunpack.symm.trans hunpack')
  length_le text := length_le_of_unpackRuns (unpackRuns_packRuns text)

/-- A hundred bytes in a block of four, for which the first buffer is too small. -/
theorem retriesProgress_iff_hundred :
    Lzo.runs.decompress [100, 97, 0, 0] (8 * 4 % 2 ^ 32) = .overrun ∧
      RetriesProgress .runs .connection [100, 97, 0, 0] := by
  have hunpack : unpackRuns [100, 97, 0, 0] = some (replicate 100 97) := by decide
  refine ⟨by decide, (retriesProgress_iff (n := 100) (fun size => ?_) (by decide)).mpr (by decide)⟩
  simp only [Lzo.runs, hunpack, Option.elim_some, length_replicate]
  split
  · case isTrue hle => exact iff_of_false nofun hle.not_gt
  · case isFalse hlt => exact iff_of_true rfl (not_le.mp hlt)

theorem unpackRuns_ones (n : ℕ) :
    unpackRuns ((replicate n [1, 0]).flatten ++ [0, 0]) = some (replicate n 0) := by
  induction n with
  | zero => rfl
  | succ n ih =>
    rw [replicate_succ, flatten_cons, append_assoc, cons_append, cons_append, nil_append,
      unpackRuns, if_neg (by decide), ih]
    rfl

/-- **A body of 2²⁹ bytes is tried for ever**: the first size is 0, and so is the next one. -/
theorem retries_stall : ∃ body text : CString, body.length = 2 ^ 29 ∧ text.length < 2 ^ 62 ∧
    (∀ size, Lzo.runs.decompress body size = if text.length ≤ size then .ok text else .overrun) ∧
    8 * body.length % 2 ^ 32 = 0 ∧
    Prog.Goes (decompressTurn .runs .connection body) (0, {}) (0, {}) ∧
    ¬ RetriesProgress .runs .connection body := by
  obtain ⟨n, hn⟩ : ∃ n, n = 2 ^ 28 - 1 := ⟨_, rfl⟩
  let body : CString := (replicate n [1, 0]).flatten ++ [0, 0]
  have hlen : body.length = 2 ^ 29 := by
    rw [length_append, length_flatten, map_replicate, sum_replicate_nat]
    simp only [length_cons, length_nil]
    omega
  have hunpack : ∀ size, Lzo.runs.decompress body size =
      if (replicate n (0 : UInt8)).length ≤ size then .ok (replicate n 0) else .overrun := by
    intro size
    change (unpackRuns body).elim _ _ = _
    rw [unpackRuns_ones, Option.elim_some]
  refine ⟨body, replicate n 0, hlen, by rw [length_replicate]; omega, hunpack, by omega, ?_,
    fun h => ?_⟩
  · have halloc : alloc {} = some (.ok true, {}) := rfl
    rw [Prog.Goes, decompressTurn, bind_of_ok halloc, if_pos rfl, unpack, hunpack,
      if_neg (by rw [length_replicate]; omega)]
    rfl
  · have hpos := h.positive {} _ {} .refl
    rw [hlen] at hpos
    exact absurd hpos (by decide)

end Distcc
