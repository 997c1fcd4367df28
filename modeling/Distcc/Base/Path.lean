import Distcc.Base.CString

/-!
# Where a path leads

A path is cut at its slashes (`comps`), and the system walks along the
components from the root: it stays for an empty one and for a dot, it goes up for two
dots, and where it comes upon a symbolic link it goes on with the target of the link
(`walk`). How long it goes on is limited, since links may lead in circles.

A directory confines the paths that go through it if none of them, and none of the links
below the directory, has two dots in it, and if the links lead through the directory as
well when they start from the root (`walk_confined`).
-/

namespace Distcc

open CString List

/-! ### Components -/

/-- The components of a path. -/
def comps : CString → List CString
  | [] => [[]]
  | b :: s =>
    if b = 47 then [] :: comps s
    else match comps s with
      | [] => [[b]]
      | c :: cs => (b :: c) :: cs

theorem comps_ne_nil (path : CString) : comps path ≠ [] := by
  cases path with
  | nil => exact cons_ne_nil _ _
  | cons b s =>
    rw [comps]
    split
    · exact cons_ne_nil _ _
    · split <;> exact cons_ne_nil _ _

theorem comps_append_slash (p q : CString) : comps (p ++ 47 :: q) = comps p ++ comps q := by
  induction p with
  | nil => rfl
  | cons b p ih =>
    rw [cons_append, comps, comps, ih]
    split
    · rfl
    · obtain ⟨c, cs, hcs⟩ := exists_cons_of_ne_nil (comps_ne_nil p)
      rw [hcs]
      rfl

/-- A component that is the name of something. -/
def isName (c : CString) : Bool := c ≠ [] ∧ c ≠ lit "." ∧ c ≠ lit ".."

/-- Nowhere does the path go up. -/
def NoDots (path : CString) : Prop := lit ".." ∉ comps path
deriving Decidable

theorem noDots_append_slash {p q : CString} : NoDots (p ++ 47 :: q) ↔ NoDots p ∧ NoDots q := by
  rw [NoDots, comps_append_slash, mem_append, not_or]
  rfl

/-! ### Walking -/

/-- A place in the file system: the names on the way to it from the root. -/
abbrev Loc := List CString

/-- The symbolic links: where they are, and their targets. -/
abbrev Links := Loc → Option CString

/-- Where the system gets to from a place along the components, in so many steps. -/
def walk (links : Links) : ℕ → Loc → List CString → Option Loc
  | _, loc, [] => some loc
  | 0, _, _ :: _ => none
  | fuel + 1, loc, c :: cs =>
    if c = lit ".." then walk links fuel loc.dropLast cs
    else if isName c then
      match links (loc ++ [c]) with
      | none => walk links fuel (loc ++ [c]) cs
      | some target =>
        walk links fuel (if target.head? = some 47 then [] else loc) (comps target ++ cs)
    else walk links fuel loc cs

/-- The last component of a path. -/
def lastComp (path : CString) : CString := (comps path).getLastD []

/-- Where the entry is that a path names, without going on where it is a link itself. A
path that ends in a slash or in dots is not the name of an entry. -/
def entryLoc (links : Links) (fuel : ℕ) (path : CString) : Option Loc :=
  if isName (lastComp path) then
    (walk links fuel [] (comps path).dropLast).map (· ++ [lastComp path])
  else none

/-- Where a directory is, by the names in its path. -/
def home (dirname : CString) : Loc := (comps dirname).filter isName

/-! ### Confinement -/

section Confinement

variable {dirname path : CString} {links : Links} {fuel : ℕ} {loc loc' : Loc} {cs : List CString}

/-- The links are all below the directory, they do not go up, and from the root they go
through the directory. -/
def LinksWithin (dirname : CString) (links : Links) : Prop :=
  ∀ loc target, links loc = some target →
    (home dirname <+: loc ∧ loc ≠ home dirname) ∧ NoDots target ∧
      (target.head? = some 47 → comps dirname <+: comps target)

/-- On the way: the place is inside the directory, or the components lead to it. -/
def OnTheWay (dirname : CString) (loc : Loc) (cs : List CString) : Prop :=
  home dirname <+: loc ∨ ∃ pre rest, cs = pre ++ rest ∧ loc ++ pre.filter isName = home dirname

theorem onTheWay_root (h : comps dirname <+: cs) : OnTheWay dirname [] cs := by
  obtain ⟨rest, rfl⟩ := h
  exact Or.inr ⟨comps dirname, rest, rfl, rfl⟩

/-- A component that is no name can be left out. -/
theorem OnTheWay.skip {c : CString} (h : OnTheWay dirname loc (c :: cs)) (hc : isName c = false) :
    OnTheWay dirname loc cs := by
  obtain hin | ⟨pre, rest, heq, hpre⟩ := h
  · exact Or.inl hin
  · cases pre with
    | nil =>
      rw [filter_nil, append_nil] at hpre
      exact Or.inl (hpre ▸ prefix_refl _)
    | cons p pre =>
      obtain ⟨rfl, rfl⟩ := List.cons.inj heq
      rw [filter_cons_of_neg (by simp [hc])] at hpre
      exact Or.inr ⟨pre, rest, rfl, hpre⟩

/-- A name is a step towards the directory, or one inside it. -/
theorem OnTheWay.down {c : CString} (h : OnTheWay dirname loc (c :: cs)) (hc : isName c = true) :
    home dirname <+: loc ∨ OnTheWay dirname (loc ++ [c]) cs ∧ loc ++ [c] <+: home dirname := by
  obtain hin | ⟨pre, rest, heq, hpre⟩ := h
  · exact Or.inl hin
  · cases pre with
    | nil =>
      rw [filter_nil, append_nil] at hpre
      exact Or.inl (hpre ▸ prefix_refl _)
    | cons p pre =>
      obtain ⟨rfl, rfl⟩ := List.cons.inj heq
      rw [filter_cons_of_pos hc, ← singleton_append, ← append_assoc] at hpre
      exact Or.inr ⟨Or.inr ⟨pre, rest, rfl, hpre⟩, ⟨_, hpre⟩⟩

/-- At the end of the way is the directory. -/
theorem OnTheWay.arrived (h : OnTheWay dirname loc []) : home dirname <+: loc := by
  obtain hin | ⟨pre, rest, heq, hpre⟩ := h
  · exact hin
  · obtain ⟨rfl, rfl⟩ := append_eq_nil_iff.mp heq.symm
    rw [filter_nil, append_nil] at hpre
    exact hpre ▸ prefix_refl _

/-- **A walk on its way to the directory ends in it.** -/
theorem walk_confined (hlinks : LinksWithin dirname links) (hdots : lit ".." ∉ cs)
    (hway : OnTheWay dirname loc cs) (h : walk links fuel loc cs = some loc') :
    home dirname <+: loc' := by
  induction fuel generalizing loc cs with
  | zero =>
    cases cs with
    | nil => exact Option.some.inj h ▸ hway.arrived
    | cons c cs => cases h
  | succ fuel ih =>
    cases cs with
    | nil => exact Option.some.inj h ▸ hway.arrived
    | cons c cs =>
      obtain ⟨hc, hcs⟩ : c ≠ lit ".." ∧ lit ".." ∉ cs := by
        rw [mem_cons, not_or] at hdots
        exact ⟨Ne.symm hdots.1, hdots.2⟩
      rw [walk, if_neg hc] at h
      by_cases hname : isName c = true
      · rw [if_pos hname] at h
        split at h
        · case h_1 hnone =>
          refine ih hcs ?_ h
          obtain hin | ⟨hway', -⟩ := hway.down hname
          · exact Or.inl (hin.trans (prefix_append _ _))
          · exact hway'
        · case h_2 target htarget =>
          obtain ⟨⟨hbelow, hne⟩, hup, hroot⟩ := hlinks _ _ htarget
          -- A link is below the directory, so that the walk has been there before.
          have hin : home dirname <+: loc := by
            obtain hin | ⟨-, habove⟩ := hway.down hname
            · exact hin
            · exact absurd (habove.eq_of_length_le hbelow.length_le) hne
          refine ih ?_ ?_ h
          · rw [mem_append, not_or]
            exact ⟨hup, hcs⟩
          · split
            · case isTrue habs =>
              exact onTheWay_root ((hroot habs).trans (prefix_append _ _))
            · exact Or.inl hin
      · rw [if_neg hname] at h
        exact ih hcs (hway.skip (Bool.eq_false_iff.mpr hname)) h

/-- The path goes through the directory, and not up again. -/
def GoesThrough (dirname path : CString) : Prop :=
  ∃ q, path = dirname ++ 47 :: q ∧ NoDots path

theorem GoesThrough.comps (h : GoesThrough dirname path) :
    ∃ pre last, Distcc.comps path = pre ++ [last] ∧ Distcc.comps dirname <+: pre := by
  obtain ⟨q, rfl, -⟩ := h
  obtain ⟨pre, last, hq⟩ := eq_nil_or_concat (Distcc.comps q) |>.resolve_left (comps_ne_nil q)
  refine ⟨Distcc.comps dirname ++ pre, last, ?_, prefix_append _ _⟩
  rw [comps_append_slash, hq, concat_eq_append, append_assoc]

/-- What a path through the directory leads to is in the directory. -/
theorem GoesThrough.walk_within (h : GoesThrough dirname path)
    (hlinks : LinksWithin dirname links)
    (hwalk : walk links fuel [] (Distcc.comps path) = some loc) :
    home dirname <+: loc := by
  obtain ⟨pre, last, hcomps, hpre⟩ := h.comps
  obtain ⟨q, -, hdots⟩ := h
  refine walk_confined hlinks hdots (onTheWay_root ?_) hwalk
  exact hcomps ▸ hpre.trans (prefix_append _ _)

/-- The entry that a path through the directory names is below the directory. -/
theorem GoesThrough.entry_within (h : GoesThrough dirname path)
    (hlinks : LinksWithin dirname links) (hentry : entryLoc links fuel path = some loc) :
    home dirname <+: loc ∧ loc ≠ home dirname := by
  obtain ⟨pre, last, hcomps, hpre⟩ := h.comps
  obtain ⟨q, -, hdots⟩ := h
  rw [NoDots, hcomps, mem_append, not_or] at hdots
  unfold entryLoc at hentry
  split at hentry
  · rw [hcomps, dropLast_concat, Option.map_eq_some_iff] at hentry
    obtain ⟨parent, hwalk, rfl⟩ := hentry
    have hin := walk_confined hlinks hdots.1 (onTheWay_root hpre) hwalk
    refine ⟨hin.trans (prefix_append _ _), ?_⟩
    intro heq
    have hle := hin.length_le
    rw [← heq, length_append, length_singleton] at hle
    omega
  · cases hentry

end Confinement

end Distcc
