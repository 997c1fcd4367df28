import Distcc.Rpc

/-!
# Heads of packets, as they are accepted

`doc/protocol-1.txt` has a packet begin with four bytes of a token and eight
hexadecimal digits. The two readers of `src/rpc.c` leave the digits to `strtoul`, and
look only at where it stopped (`accepted_iff`). So they accept whatever
`strtoul` reads to its end: white space, a sign and `0x` may take the place of digits
(`Padded`), and a sign even makes another number of the digits that are left.
On all other heads they are as the document says (`heads_exact_iff`).
-/

namespace Distcc

open CString

/-- The reader takes these bytes for a head, and gives this back. -/
def Takes {α : Type} (reader : Io α) (buf : CString) (result : α) : Prop :=
  ∃ w w', w.incoming.take 12 = buf ∧ reader w = some (.ok result, w')

/-- One of the two readers, whatever token it expects, accepts the head with this
value. -/
def Accepted (buf : CString) (val : ℕ) : Prop :=
  (∃ expected, Takes (dccRTokenInt expected) buf val) ∨
    ∃ token, Takes dccRSometokenInt buf (token, val)

/-- The digits do not begin at once: there is something in front of them that
`strtoul` skips. -/
def Padded (param : CString) : Prop :=
  ∃ lead digits, param = lead ++ digits ∧ lead.IsLead ∧ lead ≠ [] ∧ digits.IsHex ∧ digits ≠ []

section Heads

variable {buf buf' : CString} {val : ℕ}

theorem tokenValue_eq_some_iff :
    tokenValue buf = some val ↔
      (strtoul (buf.drop 4)).2 = [] ∧ (strtoul (buf.drop 4)).1 % 2 ^ 32 = val := by
  unfold tokenValue
  split
  · case h_1 n heq =>
    rw [heq, Option.some.injEq]
    exact (and_iff_right rfl).symm
  · case h_2 hne =>
    refine ⟨nofun, fun h => ?_⟩
    exact (hne _ (Prod.ext rfl h.1)).elim

section

variable (hlen : buf.length = 12)
include hlen

/-- **A head is accepted if `strtoul` reads the last eight bytes to their end**, with
what it makes of them. -/
theorem accepted_iff : Accepted buf val ↔ tokenValue buf = some val := by
  constructor
  · rintro (⟨expected, w, w', rfl, hrun⟩ | ⟨token, w, w', rfl, hrun⟩)
    · rcases dccRTokenInt_spec hrun with ⟨_, hr, hhead, -⟩ | ⟨_, _, hr, -⟩
      · rw [hhead.value, Except.ok.inj hr]
      · cases hr
    · obtain ⟨bs, w₁, hread, hrest⟩ := Prog.bind_eq_ok_iff.mp hrun
      obtain ⟨-, rfl, -⟩ := dccReadx_ok hread
      split at hrest
      · obtain ⟨⟨_, hr⟩, -⟩ := (mismatch_total _).spec hrest
        cases hr
      · case h_2 hval =>
        obtain ⟨hr, -⟩ := Prog.pure_eq_some_iff.mp hrest
        exact hval.trans (congrArg some (Prod.mk.inj (Except.ok.inj hr)).2)
  · intro hval
    have hwhole : buf.take 12 = buf := List.take_of_length_le hlen.le
    let w : World := { incoming := buf }
    have hin : w.incoming = buf ++ [] := (List.append_nil buf).symm
    obtain ⟨w', hread, -⟩ := dccReadx_reads (w := w) nofun hin
    refine Or.inr ⟨ofBuffer (buf.take 4), w, w', hwhole, ?_⟩
    rw [hlen] at hread
    rw [dccRSometokenInt, Prog.bind_of_ok hread, hval]
    rfl

/-- A parameter in digits is read as the number they denote. -/
theorem tokenValue_of_isHex (h : IsHex (buf.drop 4)) :
    tokenValue buf = some (hexNumber (buf.drop 4)) := by
  have hdrop : (buf.drop 4).length = 8 := by rw [List.length_drop, hlen]
  have hread := strtoul_isHex h (List.ne_nil_of_length_eq_add_one hdrop) (by omega)
  have hlt := hexNumber_lt (buf.drop 4)
  rw [hdrop] at hlt
  rw [tokenValue_eq_some_iff, hread]
  exact ⟨rfl, Nat.mod_eq_of_lt hlt⟩

/-- The document's words about one head. -/
def IsExact (buf : CString) : Prop :=
  ∀ val, Accepted buf val → IsHex (buf.drop 4) ∧ val = hexNumber (buf.drop 4)

theorem isExact_iff : IsExact buf ↔ ¬Padded (buf.drop 4) := by
  have hne : buf.drop 4 ≠ [] := by
    refine List.ne_nil_of_length_eq_add_one (n := 7) ?_
    rw [List.length_drop, hlen]
  constructor
  · rintro hexact ⟨lead, digits, heq, hlead, hlead', hdigits, hdigits'⟩
    have hends := (strtoul_ends_iff hne).mpr ⟨lead, digits, heq, hlead, hdigits, hdigits'⟩
    have hhex := hexact _ ((accepted_iff hlen).mpr (tokenValue_eq_some_iff.mpr ⟨hends, rfl⟩))
    exact hlead.not_isHex hlead' digits (heq ▸ hhex.1)
  · intro hpad val hval
    rw [accepted_iff hlen] at hval
    obtain ⟨lead, digits, heq, hlead, hdigits, hdigits'⟩ :=
      (strtoul_ends_iff hne).mp (tokenValue_eq_some_iff.mp hval).1
    have hnil : lead = [] := by
      by_contra hlead'
      exact hpad ⟨lead, digits, heq, hlead, hlead', hdigits, hdigits'⟩
    have hhex : IsHex (buf.drop 4) := by rwa [heq, hnil]
    rw [tokenValue_of_isHex hlen hhex] at hval
    exact ⟨hhex, (Option.some.inj hval).symm⟩

/-- Two heads with one token that are accepted with one value are the same, letter
case in the digits aside. -/
def AreDistinct (buf buf' : CString) : Prop :=
  ∀ val, Accepted buf val → Accepted buf' val → buf.take 4 = buf'.take 4 →
    (buf.drop 4).map toLower = (buf'.drop 4).map toLower

theorem areDistinct_of_isExact (hlen' : buf'.length = 12)
    (h : IsExact buf) (h' : IsExact buf') : AreDistinct buf buf' := by
  intro val hval hval' _
  obtain ⟨hhex, hnum⟩ := h val hval
  obtain ⟨hhex', hnum'⟩ := h' val hval'
  refine hexNumber_inj hhex hhex' ?_ (hnum.symm.trans hnum')
  rw [List.length_drop, List.length_drop, hlen, hlen']

end

/-- **Heads are exact, but for those that are padded.** -/
theorem heads_exact_iff (hlen : buf.length = 12) (hlen' : buf'.length = 12) :
    (IsExact buf ∧ IsExact buf' ∧ AreDistinct buf buf') ↔
      ¬Padded (buf.drop 4) ∧ ¬Padded (buf'.drop 4) := by
  rw [← isExact_iff hlen, ← isExact_iff hlen']
  constructor
  · exact fun h => ⟨h.1, h.2.1⟩
  · exact fun h => ⟨h.1, h.2, areDistinct_of_isExact hlen hlen' h.1 h.2⟩

end Heads

theorem not_padded_of_isHex {s : CString} (h : s.IsHex) : ¬Padded s := by
  rintro ⟨lead, digits, rfl, hlead, hne, -, -⟩
  exact hlead.not_isHex hne digits h

theorem heads_exact_iff_argc :
    IsExact (lit "ARGC0000000a") ∧ IsExact (lit "ARGC0000000B") ∧
      AreDistinct (lit "ARGC0000000a") (lit "ARGC0000000B") :=
  (heads_exact_iff (by decide) (by decide)).mpr
    ⟨not_padded_of_isHex (by decide), not_padded_of_isHex (by decide)⟩

/-- A sign is taken for a digit, and makes nearly `2 ^ 32` of a one. -/
theorem takes_negative :
    (lit "ARGC-0000001").length = 12 ∧
      Takes (dccRTokenInt (lit "ARGC")) (lit "ARGC-0000001") (2 ^ 32 - 1) ∧
      ¬IsHex ((lit "ARGC-0000001").drop 4) := by
  have hyields : (dccRTokenInt (lit "ARGC")).yields { incoming := lit "ARGC-0000001" }
      (fun val _ => val = 2 ^ 32 - 1) = true := by
    decide +kernel
  obtain ⟨val, w', hrun, hval⟩ := Prog.exists_of_yields hyields
  rw [of_decide_eq_true hval] at hrun
  exact ⟨by decide, ⟨_, w', by decide, hrun⟩, by decide⟩

end Distcc
