import Distcc.Bulk.Receive

/-!
# Formats

A format says which bytes may be read from the connection, what comes of them, and with
what result. Formats are put together like the computations that read them
(`Format.seq`), and a computation follows a format if whatever it does when it
succeeds is in it (`Format.Follows`).

In a format that is self-delimiting the bytes tell where they end
(`Format.Delimits`). The packets of the protocol are, and so is what is built of
them.
-/

namespace Distcc

/-- Results, and what was done for them. -/
def Format (α : Type) : Type := α → Delta → Prop

namespace Format

variable {α β : Type}

/-- One after the other, the second by the result of the first. -/
def seq (P : Format α) (Q : α → Format β) : Format β :=
  fun b d => ∃ a d₁ d₂, P a d₁ ∧ Q a b d₂ ∧ d = d₁ + d₂

/-- Nothing, with this result. -/
def done (a : α) : Format α := fun b d => b = a ∧ d = 0

/-- The head of a packet. -/
def head (token : CString) : Format ℕ :=
  fun n d => ∃ buf, IsHead token n buf ∧ d = .takes buf

/-- The head of a packet, whatever its number. -/
def anyHead (token : CString) : Format Unit := fun _ d => ∃ n, head token n d

/-- A body of this length that is written to a file. -/
def file (lzo : Lzo) (compr : Compress) (name : CString) (n : ℕ) : Format Unit :=
  fun _ d => ∃ body text, body.length = n ∧ Unpacks lzo compr body text ∧
    d = .takes body + .makes (.file name text)

/-- A body of this length that goes to the standard output. -/
def output (lzo : Lzo) (compr : Compress) (n : ℕ) : Format Unit :=
  fun _ d => ∃ body text, body.length = n ∧ Unpacks lzo compr body text ∧
    d = .takes body + .shows text

/-- **A computation follows a format.** -/
def Follows (x : Io α) (P : Format α) : Prop :=
  ∀ ⦃w a w'⦄, x w = some (.ok a, w') → ∃ d, w.Step d w' ∧ P a d

/-- **A format is self-delimiting.** -/
def Delimits (P : Format α) : Prop :=
  ∀ ⦃a a' d d' rest rest'⦄, P a d → P a' d' → d.took ++ rest = d'.took ++ rest' →
    a = a' ∧ d.took = d'.took

/-! ### Following -/

section Follows

variable {x : Io α} {f : α → Io β} {P : Format α} {Q : α → Format β}

theorem Follows.bind (hx : Follows x P) (hf : ∀ a, Follows (f a) (Q a)) :
    Follows (x >>= f) (seq P Q) := by
  intro w b w' h
  obtain ⟨a, w₁, hrun, hrest⟩ := Prog.bind_eq_ok_iff.mp h
  obtain ⟨d₁, hstep1, hP⟩ := hx hrun
  obtain ⟨d₂, hstep2, hQ⟩ := hf a hrest
  exact ⟨d₁ + d₂, hstep1.trans hstep2, a, d₁, d₂, hP, hQ, rfl⟩

theorem follows_pure (a : α) : Follows (pure a) (done a) := by
  intro w b w' h
  obtain ⟨hb, rfl⟩ := Prog.pure_eq_some_iff.mp h
  exact ⟨0, .refl w, (Except.ok.inj hb).symm, rfl⟩

theorem follows_dccRTokenInt (token : CString) : Follows (dccRTokenInt token) (head token) := by
  intro w n w' h
  rcases dccRTokenInt_spec h with ⟨val, hr, hhead, hsame⟩ | ⟨_, _, hr, -⟩
  · obtain rfl := Except.ok.inj hr
    exact ⟨_, World.step_of_drop hsame, _, hhead, rfl⟩
  · cases hr

theorem follows_dccRFile (lzo : Lzo) (compr : Compress) (name : CString) (n : ℕ) :
    Follows (dccRFile lzo name n compr) (file lzo compr name n) := by
  intro w _ w' h
  obtain ⟨hle, text, htext, hstep⟩ := dccRFile_spec h
  exact ⟨_, hstep, _, text, List.length_take_of_le hle, htext, rfl⟩

theorem follows_dccRBulk (lzo : Lzo) (compr : Compress) (n : ℕ) :
    Follows (dccRBulk lzo .stdout n compr) (output lzo compr n) := by
  intro w _ w' h
  obtain ⟨hle, text, htext, hsame⟩ := dccRBulk_spec h
  refine ⟨.takes (w.incoming.take n) + .shows text, ?_, _, text, List.length_take_of_le hle,
    htext, rfl⟩
  have hshow : (w.drop n .connection).Step (.shows text)
      ((w.drop n .connection).put text .stdout) := by
    refine ⟨⟨rfl, ?_, rfl, ?_, rfl, List.suffix_refl _⟩, fun _ => rfl, fun _ => rfl⟩
    all_goals exact (List.append_nil _).symm
  exact hsame.step_of ((World.step_of_drop (.refl _)).trans hshow)

end Follows

/-! ### Delimiting -/

section Delimits

theorem Delimits.seq {P : Format α} {Q : α → Format β} (hP : P.Delimits)
    (hQ : ∀ a, (Q a).Delimits) : (seq P Q).Delimits := by
  rintro b b' _ _ rest rest' ⟨a, d₁, d₂, hP1, hQ2, rfl⟩ ⟨a', d₁', d₂', hP₁', hQ₂', rfl⟩ h
  rw [Delta.add_took, Delta.add_took, List.append_assoc, List.append_assoc] at h
  obtain ⟨rfl, htook⟩ := hP hP1 hP₁' h
  rw [htook] at h
  obtain ⟨rfl, htook'⟩ := hQ a hQ2 hQ₂' (List.append_cancel_left h)
  rw [Delta.add_took, Delta.add_took, htook, htook']
  exact ⟨rfl, rfl⟩

theorem delimits_done (a : α) : (done a).Delimits := by
  rintro b b' d d' rest rest' ⟨rfl, rfl⟩ ⟨rfl, rfl⟩ -
  exact ⟨rfl, rfl⟩

theorem delimits_head (token : CString) : (head token).Delimits := by
  rintro n n' _ _ rest rest' ⟨buf, hhead, rfl⟩ ⟨buf', hhead', rfl⟩ h
  obtain rfl : buf = buf' := (List.append_inj h (hhead.length.trans hhead'.length.symm)).1
  exact ⟨hhead.unique hhead', rfl⟩

theorem delimits_anyHead (token : CString) : (anyHead token).Delimits := by
  rintro _ _ d d' rest rest' ⟨n, hhead⟩ ⟨n', hhead'⟩ h
  exact ⟨rfl, (delimits_head token hhead hhead' h).2⟩

theorem delimits_file (lzo : Lzo) (compr : Compress) (name : CString) (n : ℕ) :
    (file lzo compr name n).Delimits := by
  rintro _ _ _ _ rest rest' ⟨body, text, hlen, -, rfl⟩ ⟨body', text', hlen', -, rfl⟩ h
  refine ⟨rfl, (List.append_inj h ?_).1⟩
  simp [Delta.takes, Delta.makes, hlen, hlen']

theorem delimits_output (lzo : Lzo) (compr : Compress) (n : ℕ) :
    (output lzo compr n).Delimits := by
  rintro _ _ _ _ rest rest' ⟨body, text, hlen, -, rfl⟩ ⟨body', text', hlen', -, rfl⟩ h
  refine ⟨rfl, (List.append_inj h ?_).1⟩
  simp [Delta.takes, Delta.shows, hlen, hlen']

end Delimits

end Format

end Distcc
