import Distcc.IncludeServer.Node

/-!
# What a translation unit includes

Without any cache, a file that was reached by a name includes the files that its includes
resolve to: a quoted one in the directory of the name first, and then in the directories
for quotes, one in angle brackets in those for them, and for `#include_next` the files in
all directories for quotes are taken (`IncludesFile`). The names may
go on for ever, and what counts is which real paths they have.

Two names with the same real path, and the same real path of the directory, are the same
for all that is reached from them (`IncludesFile.same`): the includes
are those of one file, and the directories are one place.
-/

namespace Distcc.IncludeServer

/-- The includes of the file with a real path. -/
def Sources.includes (env : Sources) (real : CString) : Includes :=
  match (env.parse real).result with
  | .ok includes => includes
  | .error _ => ⟨[], [], [], []⟩

/-- **Plain includes**: each file is parsed, and has no computed include. -/
def Sources.Plain (env : Sources) : Prop :=
  ∀ loc, env.fs.entry loc = some .file →
    ∃ includes, (env.parse (render loc)).result = .ok includes ∧ includes.expr = []

section Reaching

variable {env : Sources} {cfg : Config} {p q p₁ : Pair} {fp : CString} {fs : FileSystem}
  {cur : Directory}

/-- A file of one name includes one of another name. -/
inductive IncludesFile (env : Sources) (cfg : Config) : Pair → Pair → Prop
  | quote {p q : Pair} {fp : CString} :
      fp ∈ (env.includes (realOf env.fs cfg.currdir p)).quote →
      search env.fs cfg.currdir (dirOf p :: cfg.quoteDirs) fp = some q → IncludesFile env cfg p q
  | angle {p q : Pair} {fp : CString} :
      fp ∈ (env.includes (realOf env.fs cfg.currdir p)).angle →
      search env.fs cfg.currdir cfg.angleDirs fp = some q → IncludesFile env cfg p q
  | next {p q : Pair} {fp : CString} {d : Directory} :
      fp ∈ (env.includes (realOf env.fs cfg.currdir p)).next → d ∈ cfg.quoteDirs →
      search env.fs cfg.currdir [d] fp = some q → IncludesFile env cfg p q

/-- **The real paths that are reached** from a file. -/
def Reaches (env : Sources) (cfg : Config) (p : Pair) (real : CString) : Prop :=
  ∃ q, Relation.ReflTransGen (IncludesFile env cfg) p q ∧ realOf env.fs cfg.currdir q = real

/-! ### Names of one file in one directory -/

/-- The names have the same real path, and so have their directories. -/
def Same (fs : FileSystem) (cur : Directory) (p q : Pair) : Prop :=
  realOf fs cur p = realOf fs cur q ∧ dirRealOf fs cur p = dirRealOf fs cur q

theorem Same.refl (fs : FileSystem) (cur : Directory) (p : Pair) : Same fs cur p p := ⟨rfl, rfl⟩

theorem Same.symm (h : Same fs cur p q) : Same fs cur q p := ⟨h.1.symm, h.2.symm⟩

theorem Same.trans (h : Same fs cur p q) (h' : Same fs cur q p₁) : Same fs cur p p₁ :=
  ⟨h.1.trans h'.1, h.2.trans h'.2⟩

theorem IncludesFile.found (h : IncludesFile env cfg p q) : Found env.fs cfg.currdir q := by
  cases h with
  | quote _ hsearch => exact found_of_search hsearch
  | angle _ hsearch => exact found_of_search hsearch
  | next _ _ hsearch => exact found_of_search hsearch

/-- **From one directory, whatever its name**, the same files are found. -/
theorem search_same {ds : List Directory}
    (hp : Found fs cur p) (hq : Found fs cur q) (h : dirRealOf fs cur p = dirRealOf fs cur q)
    (hsearch : search fs cur (dirOf p :: ds) fp = some p₁) :
    ∃ q₁, search fs cur (dirOf q :: ds) fp = some q₁ ∧ Same fs cur p₁ q₁ := by
  have hrel : fp.head? ≠ some 47 := by
    intro habs
    rw [search, if_pos habs] at hsearch
    cases hsearch
  -- Both directories are one place.
  obtain ⟨-, dir, -, hdir, -, hreal, hloc⟩ := hp.places
  obtain ⟨-, dir', -, hdir', -, hreal', hloc'⟩ := hq.places
  obtain rfl : dir = dir' := render_inj hdir hdir' (hreal.symm.trans (h.trans hreal'))
  have hbelow := (locate_below hloc hrel).trans (locate_below hloc' hrel).symm
  have hfile : fs.isFile (path cur (dirOf p, fp)) = fs.isFile (path cur (dirOf q, fp)) := by
    rw [FileSystem.isFile, FileSystem.isFile, hbelow]
  rw [search_cons hrel] at hsearch
  rw [search_cons hrel, ← hfile]
  split at hsearch
  · case isTrue hyes =>
    obtain rfl := Option.some.inj hsearch
    rw [if_pos hyes]
    have hfound : Found fs cur (dirOf p, fp) := ⟨hrel, hyes⟩
    have hfound' : Found fs cur (dirOf q, fp) := ⟨hrel, hfile ▸ hyes⟩
    obtain ⟨loc, hpath, -⟩ := FileSystem.isFile_iff.mp hyes
    obtain ⟨-, dir₁, -, -, -, hreal1, hloc1⟩ := hfound.places
    refine ⟨_, rfl, ?_, ?_⟩
    · rw [realOf, realOf, FileSystem.realpath_of_locate hpath,
        FileSystem.realpath_of_locate (hbelow ▸ hpath)]
    · rw [hreal1]
      refine (dirRealOf_of_locate hrel ?_).symm
      rw [locate_dirOf_below hloc' hrel, ← locate_dirOf_below hloc hrel]
      exact hloc1
  · case isFalse hno =>
    rw [if_neg hno]
    exact ⟨p₁, hsearch, Same.refl _ _ _⟩

/-- **Names that are the same include the same.** -/
theorem IncludesFile.same (hp : Found env.fs cfg.currdir p) (hq : Found env.fs cfg.currdir q)
    (h : Same env.fs cfg.currdir p q) (hincludes : IncludesFile env cfg p p₁) :
    ∃ q₁, IncludesFile env cfg q q₁ ∧ Same env.fs cfg.currdir p₁ q₁ := by
  cases hincludes with
  | quote hmem hsearch =>
    obtain ⟨q₁, hsearch', hsame⟩ := search_same hp hq h.2 hsearch
    exact ⟨q₁, .quote (h.1 ▸ hmem) hsearch', hsame⟩
  | angle hmem hsearch => exact ⟨p₁, .angle (h.1 ▸ hmem) hsearch, Same.refl _ _ _⟩
  | next hmem hd hsearch => exact ⟨p₁, .next (h.1 ▸ hmem) hd hsearch, Same.refl _ _ _⟩

end Reaching

end Distcc.IncludeServer
