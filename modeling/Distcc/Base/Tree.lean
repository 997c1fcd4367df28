import Distcc.Base.FileSystem

/-!
# Changes to a file system

What is new in a file system does not change where the paths lead that led somewhere before
(`FileSystem.Grows.lead_eq`). A path names a spot in a directory
(`FileSystem.spot`), at which something can be made if there is nothing
(`FileSystem.create`), and removed if nothing is below it
(`FileSystem.rmdir`, `FileSystem.unlink`). Both give a file system again, so that
there never is something below what is no directory.

To remove what was made last, by the path it was made under, brings back the file system there
was before (`FileSystem.Adds.removed`), except for the list of its places.
-/

namespace Distcc

open CString List Function

theorem not_mem_of_mem_comps {path c : CString} (h : c ∈ comps path) : 47 ∉ c := by
  induction path generalizing c with
  | nil =>
    obtain rfl := mem_singleton.mp h
    exact not_mem_nil
  | cons b s ih =>
    rw [comps] at h
    split at h
    · rcases mem_cons.mp h with rfl | h
      · exact not_mem_nil
      · exact ih h
    · case isFalse hb =>
      obtain ⟨d, ds, hds⟩ := exists_cons_of_ne_nil (comps_ne_nil s)
      rw [hds] at h ih
      rcases mem_cons.mp h with rfl | h
      · rw [mem_cons, not_or]
        exact ⟨Ne.symm hb, ih mem_cons_self⟩
      · exact ih (mem_cons_of_mem _ h)

namespace FileSystem

variable {fs fs' fs'' : FileSystem} {n : ℕ} {loc loc' : Loc} {cs : List CString} {path : CString}

/-! ### Growing -/

/-- **Nothing is lost**: what there is in one file system is also in the other. -/
structure Grows (fs fs' : FileSystem) : Prop where
  nesting : fs'.nesting = fs.nesting
  entry : ∀ loc, fs.entry loc ≠ none → fs'.entry loc = fs.entry loc

theorem Grows.entry_eq {e : FsEntry} (h : fs.Grows fs') (he : fs.entry loc = some e) :
    fs'.entry loc = some e := (h.entry loc (he ▸ Option.some_ne_none e)).trans he

theorem Grows.leadBy_eq {follow follow' : Loc → List CString → Option Loc} (h : fs.Grows fs')
    (hfollow : ∀ loc cs loc', follow loc cs = some loc' → follow' loc cs = some loc')
    (hrun : fs.leadBy follow loc cs = some loc') : fs'.leadBy follow' loc cs = some loc' := by
  induction cs generalizing loc with
  | nil => exact hrun
  | cons c cs ih =>
    rw [leadBy] at hrun ⊢
    split at hrun
    · case isTrue hdir =>
      rw [if_pos (h.entry_eq hdir)]
      split at hrun
      · case isTrue hup =>
        rw [if_pos hup]
        exact ih hrun
      · case isFalse hup =>
        rw [if_neg hup]
        split at hrun
        · case isTrue hname =>
          rw [if_pos hname]
          split at hrun
          · cases hrun
          · case h_2 target hlink =>
            rw [h.entry_eq hlink]
            obtain ⟨loc₁, htarget, hrest⟩ := Option.bind_eq_some_iff.mp hrun
            exact Option.bind_eq_some_iff.mpr ⟨loc₁, hfollow _ _ _ htarget, ih hrest⟩
          · case h_3 e hlink he =>
            rw [h.entry_eq he]
            split
            · case h_1 hnone => cases hnone
            · case h_2 target htarget => exact absurd (Option.some.inj htarget) (hlink target)
            · exact ih hrun
        · case isFalse hname =>
          rw [if_neg hname]
          exact ih hrun
    · cases hrun

/-- **A way that led somewhere** leads there also when there is more. -/
theorem Grows.lead_eq (h : fs.Grows fs') (hrun : fs.lead n loc cs = some loc') :
    fs'.lead n loc cs = some loc' := by
  induction n generalizing loc cs loc' with
  | zero => exact h.leadBy_eq (fun _ _ _ hnone => hnone) hrun
  | succ n ih => exact h.leadBy_eq (fun _ _ _ hlead => ih hlead) hrun

/-- **The same tree**: all but the list of places agrees. -/
structure SameTree (fs fs' : FileSystem) : Prop where
  entry : fs'.entry = fs.entry
  nesting : fs'.nesting = fs.nesting

theorem SameTree.refl (fs : FileSystem) : fs.SameTree fs := ⟨rfl, rfl⟩

theorem SameTree.trans (h : fs.SameTree fs') (h' : fs'.SameTree fs'') : fs.SameTree fs'' :=
  ⟨h'.entry.trans h.entry, h'.nesting.trans h.nesting⟩

/-! ### Spots -/

/-- A spot in a directory, where something can be made or removed. -/
structure Spot (fs : FileSystem) where
  /-- The directory. -/
  dir : Loc
  /-- The name in it. -/
  name : CString
  isDir : fs.entry dir = some .directory
  isName : isName name = true
  noSlash : 47 ∉ name

/-- The place of a spot. -/
def Spot.place (s : fs.Spot) : Loc := s.dir ++ [s.name]

theorem Spot.place_ne_nil (s : fs.Spot) : s.place ≠ [] := by
  rw [Spot.place]
  simp

/-- The components of a path without slashes at its end. -/
def spotComps (path : CString) : List CString := (comps path).rdropWhile (· = [])

theorem not_mem_lastComp (path : CString) : 47 ∉ (spotComps path).getLastD [] := by
  obtain hnil | ⟨cs, c, hcs⟩ := eq_nil_or_concat (spotComps path)
  · rw [hnil]
    exact not_mem_nil
  · have hmem : c ∈ spotComps path := by
      rw [hcs, concat_eq_append]
      simp
    rw [hcs, concat_eq_append]
    simpa using not_mem_of_mem_comps ((List.rdropWhile_prefix _ _).subset hmem)

/-- **The spot that a path names**: its last component in the directory that the others lead
to. A link there is not followed. -/
def spot (fs : FileSystem) (path : CString) : Option fs.Spot :=
  (fs.lead fs.nesting [] (spotComps path).dropLast).bind fun dir =>
    if h : fs.entry dir = some .directory ∧ isName ((spotComps path).getLastD []) = true then
      some ⟨dir, (spotComps path).getLastD [], h.1, h.2, not_mem_lastComp path⟩
    else none

theorem spot_eq_some_iff {s : fs.Spot} : fs.spot path = some s ↔
    fs.lead fs.nesting [] (spotComps path).dropLast = some s.dir ∧
      (spotComps path).getLastD [] = s.name := by
  rw [spot, Option.bind_eq_some_iff]
  constructor
  · rintro ⟨dir, hdir, hs⟩
    split at hs
    · rw [← Option.some.inj hs]
      exact ⟨hdir, rfl⟩
    · cases hs
  · rintro ⟨hdir, hname⟩
    refine ⟨s.dir, hdir, ?_⟩
    rw [dif_pos ⟨s.isDir, hname ▸ s.isName⟩]
    obtain ⟨dir, name, _, _, _⟩ := s
    obtain rfl : _ = name := hname
    rfl

/-- The spot in a larger file system. -/
def Spot.lift (s : fs.Spot) (h : fs.Grows fs') : fs'.Spot :=
  ⟨s.dir, s.name, h.entry_eq s.isDir, s.isName, s.noSlash⟩

theorem Grows.spot_eq {s : fs.Spot} (h : fs.Grows fs') (hs : fs.spot path = some s) :
    fs'.spot path = some (s.lift h) := by
  obtain ⟨hdir, hname⟩ := spot_eq_some_iff.mp hs
  refine spot_eq_some_iff.mpr ⟨?_, hname⟩
  rw [h.nesting]
  exact h.lead_eq hdir

/-! ### Making something -/

/-- Something new at a spot where there is nothing. -/
def put (fs : FileSystem) (s : fs.Spot) (e : FsEntry) (h : fs.entry s.place = none) :
    FileSystem where
  entry := Function.update fs.entry s.place (some e)
  nesting := fs.nesting
  places := s.place :: fs.places
  mem_places loc hloc := by
    by_cases heq : loc = s.place
    · exact heq ▸ mem_cons_self
    · rw [update_of_ne heq] at hloc
      exact mem_cons_of_mem _ (fs.mem_places loc hloc)
  root := by
    rw [update_of_ne s.place_ne_nil.symm]
    exact fs.root
  parent loc c hloc := by
    have hdir : fs.entry loc = some .directory := by
      by_cases heq : loc ++ [c] = s.place
      · rw [(append_inj' heq rfl).1]
        exact s.isDir
      · rw [update_of_ne heq] at hloc
        exact fs.parent loc c hloc
    rw [update_of_ne, hdir]
    rintro rfl
    rw [h] at hdir
    cases hdir
  name loc c hloc := by
    by_cases heq : loc ++ [c] = s.place
    · rw [(List.cons.inj (append_inj' heq rfl).2).1]
      exact ⟨s.isName, s.noSlash⟩
    · rw [update_of_ne heq] at hloc
      exact fs.name loc c hloc

/-- Something new where the path leads, if there is nothing yet. -/
def create (fs : FileSystem) (path : CString) (e : FsEntry) : Option FileSystem :=
  (fs.spot path).bind fun s =>
    if h : fs.entry s.place = none then some (fs.put s e h) else none

/-! ### Removing something -/

/-- There is nothing below the place. -/
def isLeaf (fs : FileSystem) (loc : Loc) : Bool :=
  fs.places.all fun l => decide (l ≠ [] → l.dropLast = loc → fs.entry l = none)

theorem isLeaf_iff : fs.isLeaf loc = true ↔ ∀ c, fs.entry (loc ++ [c]) = none := by
  rw [isLeaf, all_eq_true]
  constructor
  · intro hall c
    by_contra hne
    have hc := of_decide_eq_true (hall _ (fs.mem_places _ hne))
    exact hne (hc (by simp) (dropLast_concat))
  · rintro hnone l -
    refine decide_eq_true fun hne hl => ?_
    rw [← dropLast_append_getLast hne, hl]
    exact hnone _

/-- Only a directory has something below it. -/
theorem isLeaf_of_ne_directory (h : fs.entry loc ≠ some .directory) : fs.isLeaf loc = true := by
  refine isLeaf_iff.mpr fun c => ?_
  by_contra hne
  exact h (fs.parent loc c hne)

/-- The file system without what is at a place. -/
def erase (fs : FileSystem) (loc : Loc) (hne : loc ≠ []) (hleaf : fs.isLeaf loc = true) :
    FileSystem where
  entry := Function.update fs.entry loc none
  nesting := fs.nesting
  places := fs.places
  mem_places l hl := by
    by_cases heq : l = loc
    · rw [heq, update_self] at hl
      exact absurd rfl hl
    · rw [update_of_ne heq] at hl
      exact fs.mem_places l hl
  root := by
    rw [update_of_ne hne.symm]
    exact fs.root
  parent l c hl := by
    have hl' : fs.entry (l ++ [c]) ≠ none := by
      by_cases heq : l ++ [c] = loc
      · rw [heq, update_self] at hl
        exact absurd rfl hl
      · rwa [update_of_ne heq] at hl
    rw [update_of_ne, fs.parent l c hl']
    rintro rfl
    exact hl' (isLeaf_iff.mp hleaf c)
  name l c hl := by
    by_cases heq : l ++ [c] = loc
    · rw [heq, update_self] at hl
      exact absurd rfl hl
    · rw [update_of_ne heq] at hl
      exact fs.name l c hl

/-- `rmdir`: the directory has to be empty. -/
def rmdir (fs : FileSystem) (path : CString) : Option FileSystem :=
  (fs.spot path).bind fun s =>
    if h : fs.entry s.place = some .directory ∧ fs.isLeaf s.place = true then
      some (fs.erase s.place s.place_ne_nil h.2)
    else none

/-- `unlink`: something that is no directory, by a path without a slash at the end. -/
def unlink (fs : FileSystem) (path : CString) : Option FileSystem :=
  if path.getLast? = some 47 then none
  else (fs.spot path).bind fun s =>
    if h : fs.entry s.place ≠ none ∧ fs.entry s.place ≠ some .directory then
      some (fs.erase s.place s.place_ne_nil (isLeaf_of_ne_directory h.2))
    else none

/-- What can be removed, as a directory or else as a file, is removed. -/
def remove (fs : FileSystem) (path : CString) : FileSystem :=
  (fs.rmdir path).getD ((fs.unlink path).getD fs)

/-! ### Removing what was made -/

/-- **Something was made** under this path, and nothing else has changed. What is no directory
was made under a path without a slash at the end. -/
def Adds (fs : FileSystem) (path : CString) (e : FsEntry) (fs' : FileSystem) : Prop :=
  ∃ s : fs.Spot, fs.spot path = some s ∧ fs.entry s.place = none ∧
    fs'.entry = Function.update fs.entry s.place (some e) ∧ fs'.nesting = fs.nesting ∧
    (e ≠ .directory → path.getLast? ≠ some 47)

variable {e : FsEntry}

theorem adds_of_create (h : fs.create path e = some fs')
    (he : e ≠ .directory → path.getLast? ≠ some 47) : fs.Adds path e fs' := by
  obtain ⟨s, hs, hput⟩ := Option.bind_eq_some_iff.mp h
  split at hput
  · case isTrue hnone =>
    obtain rfl := Option.some.inj hput
    exact ⟨s, hs, hnone, rfl, rfl, he⟩
  · cases hput

theorem Adds.congr (h : fs.Adds path e fs') (hsame : fs'.SameTree fs'') : fs.Adds path e fs'' := by
  obtain ⟨s, hs, hnone, hentry, hnesting, he⟩ := h
  exact ⟨s, hs, hnone, hsame.entry.trans hentry, hsame.nesting.trans hnesting, he⟩

theorem Adds.grows (h : fs.Adds path e fs') : fs.Grows fs' := by
  obtain ⟨s, -, hnone, hentry, hnesting, -⟩ := h
  refine ⟨hnesting, fun loc hloc => ?_⟩
  rw [hentry, update_of_ne]
  rintro rfl
  exact hloc hnone

/-- Where it was made: it is there, there is nothing below it, and without it the tree is the
one that there was before. -/
theorem Adds.exists_spot (h : fs.Adds path e fs') : ∃ s : fs'.Spot, fs'.spot path = some s ∧
    fs'.entry s.place = some e ∧ fs'.isLeaf s.place = true ∧
    ∀ hleaf, fs.SameTree (fs'.erase s.place s.place_ne_nil hleaf) := by
  have hgrows := h.grows
  obtain ⟨s, hs, hnone, hentry, hnesting, -⟩ := h
  refine ⟨s.lift hgrows, hgrows.spot_eq hs, ?_, isLeaf_iff.mpr fun c => ?_, fun _ => ⟨?_, hnesting⟩⟩
  · rw [hentry]
    exact update_self _ _ _
  · have hbelow : fs.entry (s.place ++ [c]) = none := by
      by_contra hne
      rw [fs.parent _ _ hne] at hnone
      cases hnone
    rw [hentry, update_of_ne fun heq => ?_]
    · exact hbelow
    · exact absurd (congrArg List.length heq) (by simp [Spot.place, Spot.lift])
  · change Function.update fs'.entry s.place none = fs.entry
    rw [hentry, update_idem, ← hnone, update_eq_self]

/-- **To remove the directory that was made last** brings back the tree there was before. -/
theorem Adds.rmdir_eq (h : fs.Adds path .directory fs') :
    ∃ fs'', fs'.rmdir path = some fs'' ∧ fs.SameTree fs'' := by
  obtain ⟨s, hs, hself, hleaf, hback⟩ := h.exists_spot
  refine ⟨_, ?_, hback hleaf⟩
  rw [rmdir, hs]
  exact dif_pos ⟨hself, hleaf⟩

/-- **And so with what is no directory.** -/
theorem Adds.unlink_eq (h : fs.Adds path e fs') (he : e ≠ .directory) :
    fs'.rmdir path = none ∧ ∃ fs'', fs'.unlink path = some fs'' ∧ fs.SameTree fs'' := by
  have hslash : path.getLast? ≠ some 47 := by
    obtain ⟨-, -, -, -, -, hslash⟩ := h
    exact hslash he
  obtain ⟨s, hs, hself, hleaf, hback⟩ := h.exists_spot
  have hno : fs'.entry s.place ≠ some .directory := by
    rw [hself]
    exact fun heq => he (Option.some.inj heq)
  constructor
  · rw [rmdir, hs]
    exact dif_neg fun h => hno h.1
  · refine ⟨_, ?_, hback hleaf⟩
    rw [unlink, if_neg hslash, hs]
    exact dif_pos ⟨hself ▸ Option.some_ne_none e, hno⟩

theorem Adds.removed (h : fs.Adds path e fs') : fs.SameTree (fs'.remove path) := by
  rw [remove]
  by_cases he : e = .directory
  · subst he
    obtain ⟨fs'', hrmdir, hsame⟩ := h.rmdir_eq
    rwa [hrmdir]
  · obtain ⟨hrmdir, fs'', hunlink, hsame⟩ := h.unlink_eq he
    rwa [hrmdir, hunlink]

end FileSystem

end Distcc
