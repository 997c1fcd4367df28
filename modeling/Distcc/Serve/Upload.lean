import Distcc.Base.Path
import Distcc.Frame

/-!
# Where the files of a request go

A client sends the files its job needs by name, and `dcc_r_many_files` makes them, with
their directories and links, in a directory that is theirs. The names are put behind the
name of that directory, and so are the targets of links that start with a slash.

That confines what the client can touch only as long as names start with a slash and
have no `..` in them, and targets have none either: then every call that changes the file
system, in any run, is at a place below the directory, also when links that were made
before are followed (`dccRManyFiles_confined`). The code checks none of this, as two
comments in it say, and a name that goes up leads out
(`dccRManyFiles_escapes`).
-/

namespace Distcc

open CString List Prog

/-! ### What a call touches -/

/-- The name a call is made with. -/
def FsCall.path : FsCall → CString
  | .mkdir path | .rmdir path | .create path | .unlink path | .symlink _ path => path

/-- The place of an entry, if the path is the name of one. -/
def placeOf (links : Links) (fuel : ℕ) (path : CString) : Option Loc :=
  if isName (lastComp path) then entryLoc links fuel path else walk links fuel [] (comps path)

/-- The place a call changes. A file is opened through links; all other calls are about the
entry itself. -/
def FsCall.location (links : Links) (fuel : ℕ) : FsCall → Option Loc
  | .create path => walk links fuel [] (comps path)
  | .mkdir path | .rmdir path | .unlink path | .symlink _ path => placeOf links fuel path

/-- There is this link, or none, at a place. -/
def setLink (links : Links) (link : Option CString) : Option Loc → Links
  | some loc => Function.update links loc link
  | none => links

/-- The links there are after a call. -/
def FsCall.relink (links : Links) (fuel : ℕ) : FsCall → Links
  | .symlink target path => setLink links (some target) (entryLoc links fuel path)
  | .unlink path => setLink links none (entryLoc links fuel path)
  | .mkdir _ | .rmdir _ | .create _ => links

/-- **Confined**: with the links that were made before it, each call changes a place in the
directory. -/
def Confined (dir : Loc) (fuel : ℕ) : Links → List FsCall → Prop
  | _, [] => True
  | links, call :: calls =>
    (∀ loc ∈ call.location links fuel, dir <+: loc) ∧
      Confined dir fuel (call.relink links fuel) calls

/-! ### Calls that stay inside -/

section Tame

variable {dirname : CString} {links : Links} {fuel : ℕ}

/-- The target of a link in the directory that does not lead out of it. -/
def TameTarget (dirname target : CString) : Prop :=
  NoDots target ∧ (target.head? = some 47 → comps dirname <+: comps target)

/-- A call with a path through the directory, that makes no link out of it. -/
def FsCall.Tame (dirname : CString) (call : FsCall) : Prop :=
  GoesThrough dirname call.path ∧ ∀ target path, call = .symlink target path →
    TameTarget dirname target

theorem FsCall.Tame.location_within {call : FsCall} (h : call.Tame dirname)
    (hlinks : LinksWithin dirname links) {loc : Loc} (hloc : call.location links fuel = some loc) :
    home dirname <+: loc := by
  have hplace (hplace : placeOf links fuel call.path = some loc) : home dirname <+: loc := by
    unfold placeOf at hplace
    split at hplace
    · exact (h.1.entry_within hlinks hplace).1
    · exact h.1.walk_within hlinks hplace
  cases call with
  | create path => exact h.1.walk_within hlinks hloc
  | mkdir path => exact hplace hloc
  | rmdir path => exact hplace hloc
  | unlink path => exact hplace hloc
  | symlink target path => exact hplace hloc

theorem setLink_within (hlinks : LinksWithin dirname links) {link : Option CString}
    {place : Option Loc} (hplace : ∀ loc ∈ place, home dirname <+: loc ∧ loc ≠ home dirname)
    (hlink : ∀ target ∈ link, TameTarget dirname target) :
    LinksWithin dirname (setLink links link place) := by
  cases place with
  | none => exact hlinks
  | some loc =>
    intro loc' target htarget
    by_cases heq : loc' = loc
    · rw [heq, setLink, Function.update_self] at htarget
      rw [heq]
      exact ⟨hplace loc rfl, hlink target htarget⟩
    · rw [setLink, Function.update_of_ne heq] at htarget
      exact hlinks loc' target htarget

/-- A tame call leaves the links below the directory. -/
theorem FsCall.Tame.relink_within {call : FsCall} (h : call.Tame dirname)
    (hlinks : LinksWithin dirname links) : LinksWithin dirname (call.relink links fuel) := by
  have hplace (loc : Loc) (hloc : loc ∈ entryLoc links fuel call.path) :
      home dirname <+: loc ∧ loc ≠ home dirname := h.1.entry_within hlinks hloc
  cases call with
  | mkdir path => exact hlinks
  | rmdir path => exact hlinks
  | create path => exact hlinks
  | unlink path => exact setLink_within hlinks hplace fun _ htarget => nomatch htarget
  | symlink target path =>
    refine setLink_within hlinks hplace ?_
    rintro _ ⟨⟩
    exact h.2 target path rfl

/-- **Tame calls are confined.** -/
theorem confined_of_tame {calls : List FsCall} (h : ∀ call ∈ calls, call.Tame dirname)
    (hlinks : LinksWithin dirname links) : Confined (home dirname) fuel links calls := by
  induction calls generalizing links with
  | nil => trivial
  | cons call calls ih =>
    have hcall := h call mem_cons_self
    refine ⟨fun loc hloc => hcall.location_within hlinks hloc, ?_⟩
    exact ih (fun c hc => h c (mem_cons_of_mem _ hc)) (hcall.relink_within hlinks)

end Tame

/-! ### The directories on the way -/

section Ancestors

theorem mem_ancestors_iff {before s p : CString} :
    p ∈ ancestors before s ↔ p ≠ [] ∧ ∃ u v, s = u ++ 47 :: v ∧ p = before ++ u := by
  induction s generalizing before with
  | nil => simp [ancestors]
  | cons b s ih =>
    have hslash : '/'.toUInt8 = 47 := rfl
    have hlater : (p ≠ [] ∧ ∃ u v, b :: s = u ++ 47 :: v ∧ p = before ++ u) ↔
        (b = 47 ∧ p = before ∧ before ≠ []) ∨
          (p ≠ [] ∧ ∃ u v, s = u ++ 47 :: v ∧ p = before ++ [b] ++ u) := by
      constructor
      · rintro ⟨hne, u, v, hs, hp⟩
        cases u with
        | nil =>
          rw [append_nil] at hp
          exact Or.inl ⟨(List.cons.inj hs).1, hp, hp ▸ hne⟩
        | cons c u =>
          obtain ⟨rfl, rfl⟩ := List.cons.inj hs
          exact Or.inr ⟨hne, u, v, rfl, by simpa using hp⟩
      · rintro (⟨rfl, rfl, hne⟩ | ⟨hne, u, v, rfl, hp⟩)
        · exact ⟨hne, [], s, rfl, (append_nil _).symm⟩
        · exact ⟨hne, b :: u, v, rfl, by simpa using hp⟩
    rw [hlater, ← ih, ancestors, hslash]
    split
    · case isTrue h => simp [h]
    · case isFalse h =>
      constructor
      · exact Or.inr
      · rintro (⟨hb, rfl, hne⟩ | hmem)
        · exact absurd ⟨hb, hne⟩ h
        · exact hmem

theorem dccTruncateToDirname_append {u base : CString} (h : 47 ∉ base) :
    dccTruncateToDirname (u ++ 47 :: base) = u := by
  have hlast : strrchr '/'.toUInt8 (u ++ 47 :: base) = some (47 :: base) := strrchr_append_cons u h
  rw [dccTruncateToDirname, hlast]
  simp

/-- What stands before the last component of a path through the directory. -/
theorem dccTruncateToDirname_through {dirname path : CString} (h : GoesThrough dirname path) :
    dccTruncateToDirname path = dirname ∨ GoesThrough dirname (dccTruncateToDirname path) := by
  obtain ⟨q, rfl, hdots⟩ := h
  cases hq : strrchr 47 q with
  | none => exact Or.inl (dccTruncateToDirname_append (strrchr_eq_none_iff.mp hq))
  | some t =>
    obtain ⟨q₁, base, rfl, rfl, hbase⟩ := strrchr_eq_some hq
    have hpath : dirname ++ 47 :: (q₁ ++ 47 :: base) = (dirname ++ 47 :: q₁) ++ 47 :: base := by
      simp
    rw [hpath] at hdots ⊢
    rw [dccTruncateToDirname_append hbase]
    exact Or.inr ⟨q₁, rfl, (noDots_append_slash.mp hdots).1⟩

variable {dirname path p : CString}

/-- The directories on the way to a place behind the directory. -/
theorem ancestors_through (h : GoesThrough dirname path)
    (hp : p ∈ ancestors [] path) : p ∈ dirname :: ancestors [] dirname ∨ GoesThrough dirname p := by
  obtain ⟨q, rfl, hdots⟩ := h
  obtain ⟨hne, u, v, hsplit, rfl : p = u⟩ := mem_ancestors_iff.mp hp
  obtain ⟨x, rfl, hx⟩ | ⟨x, rfl, hx⟩ := append_eq_append_iff.mp hsplit
  · cases x with
    | nil => exact Or.inl (by simp)
    | cons c x =>
      obtain ⟨rfl, rfl⟩ := List.cons.inj hx
      rw [hsplit, noDots_append_slash] at hdots
      exact Or.inr ⟨x, rfl, hdots.1⟩
  · cases x with
    | nil => exact Or.inl (by simp)
    | cons c x =>
      obtain ⟨rfl, rfl⟩ := List.cons.inj hx
      exact Or.inl (mem_cons_of_mem _ (mem_ancestors_iff.mpr ⟨hne, p, x, rfl, rfl⟩))

/-- The directories on the way to a file are on the way to the directory, or behind it. -/
theorem way_cases (h : GoesThrough dirname path)
    (hp : p ∈ dccTruncateToDirname path :: ancestors [] (dccTruncateToDirname path)) :
    p ∈ dirname :: ancestors [] dirname ∨ GoesThrough dirname p := by
  obtain heq | hthrough := dccTruncateToDirname_through h
  · exact Or.inl (heq ▸ hp)
  · obtain rfl | hp := mem_cons.mp hp
    · exact Or.inr hthrough
    · exact ancestors_through hthrough hp

end Ancestors

/-! ### What a run does -/

section Runs

variable {dirname : CString} {w w' : World}

/-- The directory is there, and those it is in, under a path from the root that does not go
up. -/
structure Ready (dirname : CString) (w : World) : Prop where
  absolute : dirname.head? = some 47
  noDots : NoDots dirname
  there : ∀ p ∈ dirname :: ancestors [] dirname, w.dirs p = true

/-- From where the directory is there, all that happens are tame calls, and it stays. -/
def Uploads (dirname : CString) (w w' : World) : Prop :=
  Ready dirname w → Ready dirname w' ∧
    ∃ calls, w'.calls = w.calls ++ calls ∧ ∀ call ∈ calls, call.Tame dirname

instance : IsPreorder World (Uploads dirname) where
  refl w hw := ⟨hw, [], (append_nil _).symm, fun _ h => nomatch h⟩
  trans w₁ w₂ w₃ h12 h23 hw1 := by
    obtain ⟨hw2, calls, hcalls, htame⟩ := h12 hw1
    obtain ⟨hw3, calls', hcalls', htame'⟩ := h23 hw2
    refine ⟨hw3, calls ++ calls', ?_, fun call hcall => ?_⟩
    · rw [hcalls', hcalls, append_assoc]
    · exact (mem_append.mp hcall).elim (htame call) (htame' call)

/-- What neither makes a call nor changes the directories. -/
theorem Uploads.of_eq (hdirs : w'.dirs = w.dirs) (hcalls : w'.calls = w.calls) :
    Uploads dirname w w' := by
  intro hw
  refine ⟨⟨hw.absolute, hw.noDots, fun p hp => hdirs ▸ hw.there p hp⟩, [], ?_, fun _ h => nomatch h⟩
  rw [hcalls, append_nil]

/-- One call. -/
theorem Uploads.of_call (call : FsCall) (hcall : call.Tame dirname)
    (hdirs : ∀ p, p ≠ call.path → w'.dirs p = w.dirs p) (hcalls : w'.calls = w.calls ++ [call]) :
    Uploads dirname w w' := by
  intro hw
  refine ⟨⟨hw.absolute, hw.noDots, fun p hp => ?_⟩, [call], hcalls, ?_⟩
  · rw [hdirs p ?_]
    · exact hw.there p hp
    -- A path through the directory is longer than those on the way to it.
    · rintro rfl
      obtain ⟨⟨q, hpath, -⟩, -⟩ := hcall
      have hle : call.path.length ≤ dirname.length := by
        obtain heq | hmem := mem_cons.mp hp
        · rw [heq]
        · obtain ⟨-, u, v, hdir, hu⟩ := mem_ancestors_iff.mp hmem
          rw [hu, hdir]
          simp
      rw [hpath, length_append, length_cons] at hle
      omega
  · intro c hc
    obtain rfl := mem_singleton.mp hc
    exact hcall

theorem bystander_uploads : Bystander (Uploads dirname) where
  same _ _ h := by
    rw [h.eq]
    exact .of_eq rfl rfl
  drop _ _ src := by cases src <;> exact .of_eq rfl rfl
  put _ _ _ := .of_eq rfl rfl
  reading _ _ := .of_eq rfl rfl
  log _ _ := .of_eq rfl rfl

variable {path : CString}

section

variable (h : GoesThrough dirname path)
include h

theorem uploads_removed (w : World) : Uploads dirname w (w.removed path) :=
  .of_call (.unlink path) ⟨h, fun _ _ heq => nomatch heq⟩ (fun _ _ => rfl) rfl

theorem uploads_created (w : World) : Uploads dirname w (w.created path) :=
  .of_call (.create path) ⟨h, fun _ _ heq => nomatch heq⟩ (fun _ _ => rfl) rfl

theorem uploads_linked {target : CString}
    (htarget : TameTarget dirname target) (w : World) :
    Uploads dirname w (w.linked target path) := by
  refine .of_call (.symlink target path) ⟨h, ?_⟩ (fun _ _ => rfl) rfl
  rintro _ _ ⟨⟩
  exact htarget

theorem dccMkTmpdir_uploads : (dccMkTmpdir path).Keeps (Uploads dirname) := by
  refine dccMkTmpdir_keeps bystander_uploads.same (fun w => ?_) fun w => ?_
  · exact .of_call (.mkdir path) ⟨h, fun _ _ heq => nomatch heq⟩
      (fun _ hp => Function.update_of_ne hp _ _) rfl
  · exact .of_call (.rmdir path) ⟨h, fun _ _ heq => nomatch heq⟩
      (fun _ hp => Function.update_of_ne hp _ _) rfl

/-- Directories are made behind the directory only: those before it are there. -/
theorem dccMkTmpAncestorDirs_uploads : (dccMkTmpAncestorDirs path).Keeps (Uploads dirname) := by
  refine dccMkTmpAncestorDirs_keeps bystander_uploads.same fun p hp => ?_
  obtain hknown | hthrough := way_cases h hp
  · intro w r w' hrun hw
    exact bystander_uploads.same (dccMkTmpdir_known (hw.there p hknown) hrun) hw
  · exact dccMkTmpdir_uploads hthrough

end

/-! ### Requests without dots -/

/-- What the loop reads next, for an entry, is harmless: a name that starts with a slash
and does not go up, and a target that does not go up. -/
def TameTurn (dirname : CString) (w : World) : Prop :=
  ∀ name w₁, dccRTokenString (lit "NAME") w = some (.ok name, w₁) →
    (name.head? = some 47 ∧ NoDots name) ∧
    ∀ path w₂ len w₃, prependDirToName dirname name w₁ = some (.ok path, w₂) →
      dccRSometokenInt w₂ = some (.ok (lit "LINK", len), w₃) →
      ∀ target w₄, dccRStrAlloc len w₃ = some (.ok target, w₄) → NoDots target

/-- So are the next entries, so many of them. -/
def TameTurns (lzo : Lzo) (dirname : CString) (compr : Compress) : ℕ → World → Prop
  | 0, _ => True
  | n + 1, w => TameTurn dirname w ∧ ∀ w', rManyFilesTurn lzo dirname compr w = some (.ok (), w') →
      TameTurns lzo dirname compr n w'

/-- **A tame request**: all of its entries are harmless. -/
def TameUpload (lzo : Lzo) (dirname : CString) (compr : Compress) (w : World) : Prop :=
  ∀ nFiles w₁, dccRTokenInt (lit "NFIL") w = some (.ok nFiles, w₁) →
    TameTurns lzo dirname compr nFiles w₁

variable {lzo : Lzo} {compr : Compress} {name target : CString} {r : Except Failure Unit}

theorem goesThrough_name (hdir : NoDots dirname) (hslash : name.head? = some 47)
    (hname : NoDots name) : GoesThrough dirname (dirname ++ name) := by
  obtain ⟨q, rfl⟩ : ∃ q, name = 47 :: q := by
    cases name with
    | nil => cases hslash
    | cons b q =>
      obtain rfl := Option.some.inj hslash
      exact ⟨q, rfl⟩
  refine ⟨q, rfl, noDots_append_slash.mpr ⟨hdir, ?_⟩⟩
  exact (noDots_append_slash (p := []).mp hname).2

/-- The target that is made of one without dots. -/
theorem tameTarget_placed (hdir : NoDots dirname) (htarget : NoDots target) :
    TameTarget dirname (placedTarget dirname target) := by
  unfold placedTarget
  split
  · case isTrue hslash =>
    obtain ⟨q, hpath, hdots⟩ := goesThrough_name hdir hslash htarget
    refine ⟨hdots, fun _ => ?_⟩
    rw [hpath, comps_append_slash]
    exact prefix_append _ _
  · case isFalse hslash => exact ⟨htarget, fun habs => absurd habs hslash⟩

theorem prependDirToName_eq (h : prependDirToName dirname name w = some (.ok path, w')) :
    path = dirname ++ name := by
  obtain ⟨room, w₁, -, hrest⟩ := bind_eq_ok_iff.mp h
  split at hrest
  · exact (pure_eq_ok_iff.mp hrest).1.symm
  · cases hrest

theorem placeTarget_eq {target' : CString}
    (h : placeTarget dirname target w = some (.ok target', w')) :
    target' = placedTarget dirname target := by
  unfold placeTarget at h
  unfold placedTarget
  split at h
  · case isTrue hslash => rw [if_pos hslash, prependDirToName_eq h]
  · case isFalse hslash =>
    rw [if_neg hslash]
    exact (pure_eq_ok_iff.mp h).1.symm

/-- A link whose target does not go up. -/
theorem receiveLink_uploads {len : ℕ} (hdir : NoDots dirname) (hpath : GoesThrough dirname path)
    (htarget : ∀ target w₁, dccRStrAlloc len w = some (.ok target, w₁) → NoDots target)
    (h : receiveLink dirname path len w = some (r, w')) : Uploads dirname w w' := by
  have hR : Bystander (Uploads dirname) := bystander_uploads
  refine (dccRStrAlloc_keeps hR len).bind_from h fun target w₁ hread h => ?_
  refine (placeTarget_keeps hR dirname target).bind_from h fun target' w₂ hplace h => ?_
  obtain rfl := placeTarget_eq hplace
  have htame := tameTarget_placed hdir (htarget target w₁ hread)
  refine Prog.Keeps.bind (R := Uploads dirname) (dccMkTmpAncestorDirs_uploads hpath) ?_ h
  intro _
  refine (change_keeps hR.same (uploads_linked hpath htame)).bind fun res => ?_
  rcases res with _ | _
  · exact keeps_fail _
  · exact addCleanupOrUnlink_keeps hR (uploads_removed hpath)

/-- **A turn of the loop**: an entry that is harmless is made in the directory. -/
theorem rManyFilesTurn_uploads (hdir : NoDots dirname)
    (htame : TameTurn dirname w) (h : rManyFilesTurn lzo dirname compr w = some (r, w')) :
    Uploads dirname w w' := by
  have hR : Bystander (Uploads dirname) := bystander_uploads
  refine (dccRTokenString_keeps hR _).bind_from h fun name w₁ hname h => ?_
  obtain ⟨⟨hslash, hdots⟩, hlink⟩ := htame name w₁ hname
  refine (prependDirToName_keeps hR dirname name).bind_from h fun path w₂ hprepend h => ?_
  have hpath : GoesThrough dirname path := by
    rw [prependDirToName_eq hprepend]
    exact goesThrough_name hdir hslash hdots
  refine (dccRSometokenInt_keeps hR).bind_from h fun head w₃ hhead h => ?_
  obtain ⟨token, len⟩ := head
  change receiveEntry lzo dirname path compr token len w₃ = some (r, w') at h
  unfold receiveEntry at h
  split at h
  · case isTrue htoken =>
    subst htoken
    exact receiveLink_uploads hdir hpath (hlink path w₂ len w₃ hprepend hhead) h
  · split at h
    · refine Prog.Keeps.bind (dccRFile_keeps hR (uploads_removed hpath)
        (dccMkTmpAncestorDirs_uploads hpath) (uploads_created hpath) lzo len compr) (fun _ => ?_) h
      exact addCleanupOrUnlink_keeps hR (uploads_removed hpath)
    · exact mismatch_keeps hR h

/-- **The loop.** -/
theorem times_uploads {n : ℕ} {r : Except Failure (List Unit)} (hdir : NoDots dirname)
    (htame : TameTurns lzo dirname compr n w)
    (h : Prog.times (rManyFilesTurn lzo dirname compr) n w = some (r, w')) :
    Uploads dirname w w' := by
  induction n generalizing w r with
  | zero =>
    obtain ⟨-, rfl⟩ := pure_eq_some_iff.mp h
    exact refl w
  | succ n ih =>
    rcases bind_cases h with ⟨e, -, hturn⟩ | ⟨_, w₁, hturn, hrest⟩
    · exact rManyFilesTurn_uploads hdir htame.1 hturn
    · refine IsTrans.trans _ _ _ (rManyFilesTurn_uploads hdir htame.1 hturn) ?_
      rcases bind_cases hrest with ⟨e, -, htimes⟩ | ⟨as, w₂, htimes, hpure⟩
      · exact ih (htame.2 w₁ hturn) htimes
      · obtain ⟨-, rfl⟩ := pure_eq_some_iff.mp hpure
        exact ih (htame.2 w₁ hturn) htimes

/-- **A tame request is confined**: in every run on it, whatever the system answers, all
that is made, overwritten or removed is in the directory. -/
theorem dccRManyFiles_confined {r : Except Failure Unit} (hready : Ready dirname w)
    (htame : TameUpload lzo dirname compr w)
    (h : dccRManyFiles lzo dirname compr w = some (r, w')) :
    ∃ calls, w'.calls = w.calls ++ calls ∧
      ∀ fuel, Confined (home dirname) fuel (fun _ => none) calls := by
  have huploads : Uploads dirname w w' := by
    refine (dccRTokenInt_keeps bystander_uploads _).bind_from h fun nFiles w₁ hn h => ?_
    rcases bind_cases h with ⟨e, -, htimes⟩ | ⟨_, w₂, htimes, hpure⟩
    · exact times_uploads hready.noDots (htame nFiles w₁ hn) htimes
    · obtain ⟨-, rfl⟩ := pure_eq_some_iff.mp hpure
      exact times_uploads hready.noDots (htame nFiles w₁ hn) htimes
  obtain ⟨-, calls, hcalls, hcall⟩ := huploads hready
  exact ⟨calls, hcalls, fun fuel => confined_of_tame hcall fun _ _ hlink => nomatch hlink⟩

end Runs

/-! ### Two requests -/

/-- A request with so many entries. -/
def World.ofUpload (nFiles : ℕ) (entries : CString) : World where
  incoming := packetHead (lit "NFIL") nFiles ++ entries
  dirs p := p ∈ ["/tmp", "/tmp/d", "/tmp/d/..", "/tmp/d/a"].map lit

theorem ready_ofUpload (nFiles : ℕ) (entries : CString) :
    Ready (lit "/tmp/d") (.ofUpload nFiles entries) where
  absolute := rfl
  noDots := by decide
  there p hp := decide_eq_true ((by decide : ∀ p ∈ lit "/tmp/d" :: ancestors [] (lit "/tmp/d"),
    p ∈ ["/tmp", "/tmp/d", "/tmp/d/..", "/tmp/d/a"].map lit) p hp)

/-- Is the next entry of a request not harmless? A test, to be evaluated. -/
def untameTurn (dirname : CString) (w : World) : Bool :=
  (dccRTokenString (lit "NAME")).yields w fun name w₁ =>
    ¬ (name.head? = some 47 ∧ NoDots name) || (prependDirToName dirname name).yields w₁ fun _ w₂ =>
      dccRSometokenInt.yields w₂ fun head w₃ =>
        head.1 = lit "LINK" && (dccRStrAlloc head.2).yields w₃ fun target _ => ¬ NoDots target

theorem tameTurn_of_not_untameTurn {w : World} (h : untameTurn dirname w = false) :
    TameTurn dirname w := by
  intro name w₁ hname
  simp only [untameTurn, yields, hname, Bool.or_eq_false_iff, decide_eq_false_iff_not,
    not_not] at h
  refine ⟨h.1, fun path w₂ len w₃ hpath hhead target w₄ htarget => ?_⟩
  simpa [hpath, hhead, htarget] using h.2

/-- A link, and a file that is reached through it. -/
def linkAndFile : CString :=
  packetString (lit "NAME") (lit "/a") ++ packetString (lit "LINK") (lit "/b") ++
    packetString (lit "NAME") (lit "/a/hello.c") ++
    packetString (lit "FILE") (packRuns (lit "hi"))

theorem tameUpload_linkAndFile :
    TameUpload Lzo.runs (lit "/tmp/d") .lzo1x (.ofUpload 2 linkAndFile) := by
  intro nFiles w₁ hn
  have hreads : (dccRTokenInt (lit "NFIL")).yields (.ofUpload 2 linkAndFile) (fun nFiles w₁ =>
      nFiles = 2 && !untameTurn (lit "/tmp/d") w₁ &&
        (rManyFilesTurn Lzo.runs (lit "/tmp/d") .lzo1x).yields w₁ fun _ w₂ =>
          !untameTurn (lit "/tmp/d") w₂) = true := by
    decide +kernel
  have htest := of_yields hreads hn
  simp only [Bool.and_eq_true, Bool.not_eq_true', decide_eq_true_eq] at htest
  obtain ⟨⟨rfl, hlink⟩, hturn⟩ := htest
  refine ⟨tameTurn_of_not_untameTurn hlink, fun w₂ hturn' => ⟨?_, fun _ _ => trivial⟩⟩
  exact tameTurn_of_not_untameTurn (by simpa using of_yields hturn hturn')

/-- The link and the file are made in the directory. -/
theorem dccRManyFiles_confined_linkAndFile :
    ∃ w' calls, dccRManyFiles Lzo.runs (lit "/tmp/d") .lzo1x (.ofUpload 2 linkAndFile) =
        some (.ok (), w') ∧
      w'.calls = [.symlink (lit "/tmp/d/b") (lit "/tmp/d/a"), .create (lit "/tmp/d/a/hello.c")] ∧
      w'.calls = World.calls (.ofUpload 2 linkAndFile) ++ calls ∧
      ∀ fuel, Confined (home (lit "/tmp/d")) fuel (fun _ => none) calls := by
  have hyields : (dccRManyFiles Lzo.runs (lit "/tmp/d") .lzo1x).yields (.ofUpload 2 linkAndFile)
      (fun _ w' => w'.calls =
        [.symlink (lit "/tmp/d/b") (lit "/tmp/d/a"), .create (lit "/tmp/d/a/hello.c")]) = true := by
    decide +kernel
  obtain ⟨_, w', hrun, hcalls⟩ := exists_of_yields hyields
  obtain ⟨calls, hnew, hconfined⟩ :=
    dccRManyFiles_confined (ready_ofUpload _ _) tameUpload_linkAndFile hrun
  exact ⟨w', calls, hrun, of_decide_eq_true hcalls, hnew, hconfined⟩

/-- A file whose name goes up. -/
def fileAbove : CString := packetString (lit "NAME") (lit "/../x") ++ packetHead (lit "FILE") 0

/-- **A name that goes up leads out** of the directory. -/
theorem dccRManyFiles_escapes :
    Ready (lit "/tmp/d") (.ofUpload 1 fileAbove) ∧
    ∃ w', dccRManyFiles Lzo.runs (lit "/tmp/d") .lzo1x (.ofUpload 1 fileAbove) =
        some (.ok (), w') ∧
      w'.calls = World.calls (.ofUpload 1 fileAbove) ++ [.create (lit "/tmp/d/../x")] ∧
      ¬Confined (home (lit "/tmp/d")) 9 (fun _ => none) [.create (lit "/tmp/d/../x")] := by
  have hyields : (dccRManyFiles Lzo.runs (lit "/tmp/d") .lzo1x).yields
      (.ofUpload 1 fileAbove) (fun _ w' => w'.calls = [.create (lit "/tmp/d/../x")]) = true := by
    decide +kernel
  obtain ⟨_, w', hrun, hcalls⟩ := exists_of_yields hyields
  refine ⟨ready_ofUpload _ _, w', hrun, of_decide_eq_true hcalls, ?_⟩
  rintro ⟨hin, -⟩
  have hout : FsCall.location (fun _ => none) 9 (.create (lit "/tmp/d/../x")) =
      some [lit "tmp", lit "x"] := by decide
  exact absurd (hin _ hout) (by decide)

end Distcc
