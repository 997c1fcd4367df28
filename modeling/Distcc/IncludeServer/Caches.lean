import Distcc.IncludeServer.Names
import Mathlib.Logic.Function.Basic

/-!
# The caches of the include server

`BuildStatCache.Resolve` looks for an include path in a list of directories, and it keeps
what it was told about each path. `DirnameCache.Lookup` keeps the directories of names.
In a file system that does not change both give what they would give without a cache
(`BuildStatCache.resolve_eq`,
`DirnameCache.lookup_eq`).
-/

namespace Distcc.IncludeServer

/-! ### Tables -/

/-- What a table remembers is true. -/
def Remembers {κ ν : Type} (P : κ → ν → Prop) (table : κ → Option ν) : Prop :=
  ∀ k v, table k = some v → P k v

theorem remembers_empty {κ ν : Type} {P : κ → ν → Prop} : Remembers P fun _ => none := by
  intro k v h
  cases h

theorem Remembers.update {κ ν : Type} [DecidableEq κ] {P : κ → ν → Prop} {table : κ → Option ν}
    (h : Remembers P table) {k : κ} {v : ν} (hv : P k v) :
    Remembers P (Function.update table k (some v)) := by
  intro k' v' hk'
  by_cases heq : k' = k
  · subst heq
    rw [Function.update_self] at hk'
    exact Option.some.inj hk' ▸ hv
  · rw [Function.update_of_ne heq] at hk'
    exact h k' v' hk'

variable {fs : FileSystem} {cur : Directory} {fp : CString}

/-! ### Resolution -/

/-- **Resolution without a cache**: the directories are tried in turn, for relative paths
only. -/
def search (fs : FileSystem) (cur : Directory) (dirs : List Directory) (fp : CString) :
    Option Pair :=
  if fp.head? = some 47 then none
  else (dirs.find? fun d => fs.isFile (path cur (d, fp))).map fun d => (d, fp)

theorem found_of_search {dirs : List Directory} {p : Pair} (h : search fs cur dirs fp = some p) :
    Found fs cur p := by
  unfold search at h
  split at h
  · cases h
  · case isFalse hrel =>
    obtain ⟨d, hd, rfl⟩ := Option.map_eq_some_iff.mp h
    exact ⟨hrel, by simpa using List.find?_some hd⟩

theorem search_cons {d : Directory} {ds : List Directory} (hrel : fp.head? ≠ some 47) :
    search fs cur (d :: ds) fp =
      if fs.isFile (path cur (d, fp)) then some (d, fp) else search fs cur ds fp := by
  rw [search, search, if_neg hrel, if_neg hrel, List.find?_cons]
  cases fs.isFile (path cur (d, fp)) <;> rfl

/-- What is known of a current directory, an include path and a search directory: nothing,
that there is no file, or the real path of the file. -/
structure BuildStatCache where
  /-- The arrays `build_stat` and `real_stat` in one. -/
  stat : Directory × CString × Directory → Option (Option CString)

/-- Nothing is known. -/
def BuildStatCache.empty : BuildStatCache := ⟨fun _ => none⟩

namespace BuildStatCache

variable {cache : BuildStatCache}

/-- What a call of `stat` and one of `realpath` tell. -/
def statOf (fs : FileSystem) (cur : Directory) (p : Pair) : Option CString :=
  if fs.isFile (path cur p) then some (realOf fs cur p) else none

/-- The loop of `Resolve`. -/
def resolveLoop (fs : FileSystem) (cur : Directory) (fp : CString) :
    List Directory → BuildStatCache → Option (Pair × CString) × BuildStatCache
  | [], cache => (none, cache)
  | d :: ds, cache =>
    match cache.stat (cur, fp, d) with
    | some none => resolveLoop fs cur fp ds cache
    | some (some real) => (some ((d, fp), real), cache)
    | none =>
      if fs.isFile (path cur (d, fp)) then
        let real := realOf fs cur (d, fp)
        (some ((d, fp), real), ⟨Function.update cache.stat (cur, fp, d) (some (some real))⟩)
      else
        resolveLoop fs cur fp ds ⟨Function.update cache.stat (cur, fp, d) (some none)⟩

/-- `BuildStatCache.Resolve`, where its assertions hold. They are in `Site.resolve`. -/
def resolve (fs : FileSystem) (fp : CString) (cur : Directory) (searchdir : Option Directory)
    (searchlist : List Directory) (cache : BuildStatCache) :
    Option (Pair × CString) × BuildStatCache :=
  if fp.head? = some 47 then (none, cache)
  else resolveLoop fs cur fp (searchdir.toList ++ searchlist) cache

/-- What is known is true. -/
def Consistent (fs : FileSystem) (cache : BuildStatCache) : Prop :=
  Remembers (fun key known => known = statOf fs key.1 (key.2.2, key.2.1)) cache.stat

theorem consistent_empty : Consistent fs empty := remembers_empty

theorem resolveLoop_eq (hrel : fp.head? ≠ some 47) {dirs : List Directory}
    (h : Consistent fs cache) :
    (resolveLoop fs cur fp dirs cache).1 =
        (search fs cur dirs fp).map (fun p => (p, realOf fs cur p)) ∧
      Consistent fs (resolveLoop fs cur fp dirs cache).2 := by
  induction dirs generalizing cache with
  | nil =>
    rw [search, if_neg hrel]
    exact ⟨rfl, h⟩
  | cons d ds ih =>
    rw [search_cons hrel, resolveLoop]
    split
    · case h_1 hknown =>
      have hno : fs.isFile (path cur (d, fp)) = false := by
        have hstat : _ = statOf fs cur (d, fp) := h _ _ hknown
        rw [statOf] at hstat
        split at hstat
        · cases hstat
        · case isFalse hno => exact Bool.eq_false_iff.mpr hno
      rw [hno]
      exact ih h
    · case h_2 real hknown =>
      have hstat : _ = statOf fs cur (d, fp) := h _ _ hknown
      rw [statOf] at hstat
      split at hstat
      · case isTrue hfile =>
        rw [if_pos hfile, Option.some.inj hstat]
        exact ⟨rfl, h⟩
      · cases hstat
    · case h_3 =>
      split
      · case isTrue hfile =>
        exact ⟨rfl, Remembers.update h (k := (cur, fp, d)) (if_pos hfile).symm⟩
      · case isFalse hfile =>
        exact ih (Remembers.update h (k := (cur, fp, d)) (if_neg hfile).symm)

/-- **Resolution is not changed by the cache.** -/
theorem resolve_eq (h : Consistent fs cache) (fp : CString) (cur : Directory)
    (searchdir : Option Directory) (searchlist : List Directory) :
    (resolve fs fp cur searchdir searchlist cache).1 =
        (search fs cur (searchdir.toList ++ searchlist) fp).map (fun p => (p, realOf fs cur p)) ∧
      Consistent fs (resolve fs fp cur searchdir searchlist cache).2 := by
  unfold resolve
  split
  · case isTrue habs =>
    rw [search, if_pos habs]
    exact ⟨rfl, h⟩
  · case isFalse hrel => exact resolveLoop_eq hrel h

end BuildStatCache

/-! ### Directories of names -/

/-- The directories of names, and their real paths. -/
structure DirnameCache where
  /-- By the current directory and the pair. -/
  cache : Directory × Pair → Option (Directory × CString)

/-- Nothing is known. -/
def DirnameCache.empty : DirnameCache := ⟨fun _ => none⟩

namespace DirnameCache

variable {cache : DirnameCache}

/-- `DirnameCache.Lookup`. -/
def lookup (fs : FileSystem) (cur : Directory) (p : Pair) (cache : DirnameCache) :
    Except PyExc (Directory × CString) × DirnameCache :=
  match cache.cache (cur, p) with
  | some known => (.ok known, cache)
  | none =>
    match directoryMapIndex (dirname p) with
    | .error e => (.error e, cache)
    | .ok dir =>
      let known := (dir, dirRealOf fs cur p)
      (.ok known, ⟨Function.update cache.cache (cur, p) (some known)⟩)

/-- What is known is true. -/
def Consistent (fs : FileSystem) (cache : DirnameCache) : Prop :=
  Remembers (fun key known => directoryMapIndex (dirname key.2) = .ok known.1 ∧
    known.2 = dirRealOf fs key.1 key.2) cache.cache

theorem consistent_empty : Consistent fs empty := remembers_empty

/-- **The directory of a file that was found.** -/
theorem lookup_eq {p : Pair} (h : Consistent fs cache) (cur : Directory)
    (hrel : p.2.head? ≠ some 47) :
    (lookup fs cur p cache).1 = .ok (dirOf p, dirRealOf fs cur p) ∧
      Consistent fs (lookup fs cur p cache).2 := by
  obtain ⟨d, fp⟩ := p
  have hindex := (directoryMapIndex_dirname (d := d) hrel).1
  unfold lookup
  split
  · case h_1 known hknown =>
    obtain ⟨hdir, hreal⟩ := h _ _ hknown
    refine ⟨?_, h⟩
    rw [← hreal, ← Except.ok.inj (hdir.symm.trans hindex)]
  · rw [hindex]
    exact ⟨rfl, Remembers.update h (k := (cur, (d, fp))) ⟨hindex, rfl⟩⟩

end DirnameCache

end Distcc.IncludeServer
