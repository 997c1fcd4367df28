import Distcc.Base.Prog
import Distcc.IncludeServer.Caches

/-!
# The arrays of the stat cache

`BuildStatCache` keeps its answers in arrays: for a current directory and an include path,
`build_stat` has one entry for each search directory, and `real_stat` another one for the real
path. An array that is too short is made longer in the handler of the `IndexError`. Directories,
include paths and real paths are known by their numbers here, as they are in the source. Where
the assertions hold, what the numbers stand for is what `BuildStatCache.resolve` gives, with
which the include server is modelled (`Site.resolve_refines`).

The cache makes no difference: in every sequence of calls, each call returns what a search
without a cache returns (`Site.resolveAll_eq_uncached_iff`). If Python runs
without `-O`, this takes that `os.getcwd() + '/'` is the string of the current directory. It is
not if this is the root, or a name of a directory that has another real path.
-/

namespace Distcc.IncludeServer

open CString List

/-- What `Resolve` may raise. -/
inductive ResolveExc
  | assertionError
  | indexError
  /-- The one that `_Verify` has for a cache that is wrong. -/
  | systemExit
deriving DecidableEq

/-- `xs[i] = x` -/
def setItem {α : Type} (xs : List α) (i : ℕ) (x : α) : Except ResolveExc (List α) :=
  if i < xs.length then .ok (xs.set i x) else .error .indexError

/-- `realpath_map.Index`, and what the map is then. -/
def realpathIndex (realpaths : List CString) (real : CString) : ℕ × List CString :=
  if real ∈ realpaths then (realpaths.idxOf real + 1, realpaths)
  else (realpaths.length + 1, realpaths ++ [real])

/-- The arrays for a current directory and an include path. -/
structure StatRow where
  /-- `searchdir_stats` -/
  stats : List (Option Bool)
  /-- `searchdir_realpaths` -/
  reals : List (Option ℕ)

/-- What is in the cache, and in the map of real paths. -/
structure StatArrays where
  /-- `build_stat` and `real_stat`: they have the same keys. -/
  rows : ℕ × ℕ → Option StatRow
  /-- `realpath_map` -/
  realpaths : List CString

/-- `DIR_ARRAY_SIZE` -/
def dirArraySize : ℕ := 500

/-- Arrays that say nothing. -/
def StatRow.empty : StatRow := ⟨replicate dirArraySize none, replicate dirArraySize none⟩

/-- "let's double": by different amounts. -/
def StatRow.grow (row : StatRow) (i : ℕ) : StatRow :=
  let stats := row.stats ++ replicate (max i row.stats.length) none
  ⟨stats, row.reals ++ replicate (max i stats.length) none⟩

/-- A call of `Resolve`, in numbers. -/
structure ResolveCall where
  includepath : ℕ
  currdir : ℕ
  searchdir : Option ℕ
  searchlist : List ℕ

/-- The directories that are tried. -/
def ResolveCall.dirs (c : ResolveCall) : List ℕ :=
  (c.searchdir.filter (· ≠ 0)).toList ++ c.searchlist

/-- A directory and an include path, with a real path, or `(None, None)`. -/
abbrev Resolved := Option (ℕ × ℕ) × Option ℕ

/-- What does not change: the files, what the numbers stand for, and how Python runs. -/
structure Site where
  fs : FileSystem
  /-- `includepath_map.string` -/
  includepath : ℕ → CString
  /-- `directory_map.string` -/
  directory : ℕ → Directory
  /-- `__debug__` -/
  debug : Bool

namespace Site

variable (t : Site)

/-- `_OsPathIsFile`, from the current directory. -/
def isFileAt (cur sl fp : ℕ) : Bool :=
  t.fs.isFile (path (t.directory cur) (t.directory sl, t.includepath fp))

/-- The real path of the file. -/
def realAt (cur sl fp : ℕ) : CString :=
  realOf t.fs (t.directory cur) (t.directory sl, t.includepath fp)

/-- `assert os.getcwd() + '/' == dir_map_string[currdir_idx]`, unless Python runs with `-O`. -/
def InPlace (cur : ℕ) : Prop :=
  t.debug = true → t.fs.realpath (t.directory cur).string ++ [47] = (t.directory cur).string
deriving Decidable

/-- `_Verify`, with what the cache says. -/
def verify (cur sl fp : ℕ) (known : Bool) : Except ResolveExc Unit :=
  if t.debug then
    if ¬ t.InPlace cur then .error .assertionError
    else if known ≠ t.isFileAt cur sl fp then .error .systemExit
    else .ok ()
  else .ok ()

/-- "If we get here, result is not cached yet." -/
def askSystem (cur sl fp : ℕ) (row : StatRow) (realpaths : List CString) :
    Except ResolveExc (Option (Option ℕ) × StatRow × List CString) :=
  if t.isFileAt cur sl fp then do
    let stats ← setItem row.stats sl (some true)
    let (i, realpaths) := realpathIndex realpaths (t.realAt cur sl fp)
    let reals ← setItem row.reals sl (some i)
    pure (some (some i), ⟨stats, reals⟩, realpaths)
  else do
    let stats ← setItem row.stats sl (some false)
    pure (none, ⟨stats, row.reals⟩, realpaths)

/-- A turn of the loop: what is to be returned, if the file was found. -/
def tryDirectory (cur sl fp : ℕ) (row : StatRow) (realpaths : List CString) :
    Except ResolveExc (Option (Option ℕ) × StatRow × List CString) :=
  match row.stats[sl]? with
  | some (some false) => do
    t.verify cur sl fp false
    pure (none, row, realpaths)
  | some (some true) => do
    t.verify cur sl fp true
    match row.reals[sl]? with
    | some real => pure (some real, row, realpaths)
    | none => t.askSystem cur sl fp (row.grow sl) realpaths
  | some none => t.askSystem cur sl fp row realpaths
  | none => t.askSystem cur sl fp (row.grow sl) realpaths

/-- The loops of `Resolve`. -/
def resolveLoop (cur fp : ℕ) : List ℕ → StatRow → List CString →
    Except ResolveExc (Resolved × StatRow × List CString)
  | [], row, realpaths => .ok ((none, none), row, realpaths)
  | sl :: rest, row, realpaths => do
    match ← t.tryDirectory cur sl fp row realpaths with
    | (some real, row, realpaths) => pure ((some (sl, fp), real), row, realpaths)
    | (none, row, realpaths) => resolveLoop cur fp rest row realpaths

/-- `BuildStatCache.Resolve` -/
def resolve (c : ResolveCall) (s : StatArrays) : Except ResolveExc (Resolved × StatArrays) :=
  if (t.includepath c.includepath).head? = some 47 then .ok ((none, none), s)
  else if ¬ t.InPlace c.currdir then .error .assertionError
  else do
    let key := (c.currdir, c.includepath)
    let (res, row, realpaths) ← t.resolveLoop c.currdir c.includepath c.dirs
      ((s.rows key).getD .empty) s.realpaths
    pure (res, ⟨Function.update s.rows key (some row), realpaths⟩)

/-- A sequence of calls. -/
def resolveAll : List ResolveCall → StatArrays → Except ResolveExc (List Resolved × StatArrays)
  | [], s => .ok ([], s)
  | c :: cs, s => do
    let (res, s) ← t.resolve c s
    let (results, s) ← resolveAll cs s
    pure (res :: results, s)

/-- **The first directory in which the path is that of a regular file**, and the number of the
real path. -/
def searched (cur fp : ℕ) (dirs : List ℕ) (realpaths : List CString) : Resolved × List CString :=
  match dirs.find? (t.isFileAt cur · fp) with
  | none => ((none, none), realpaths)
  | some sl =>
    let (i, realpaths) := realpathIndex realpaths (t.realAt cur sl fp)
    ((some (sl, fp), some i), realpaths)

/-- What a search without a cache returns. -/
def uncached (c : ResolveCall) (realpaths : List CString) : Resolved × List CString :=
  if (t.includepath c.includepath).head? = some 47 then ((none, none), realpaths)
  else t.searched c.currdir c.includepath c.dirs realpaths

/-- The same for a sequence of calls. -/
def uncachedAll : List ResolveCall → List CString → List Resolved × List CString
  | [], realpaths => ([], realpaths)
  | c :: cs, realpaths =>
    let (res, realpaths) := t.uncached c realpaths
    let (results, realpaths) := uncachedAll cs realpaths
    (res :: results, realpaths)

/-! ### What the arrays hold -/

variable {t} {cur sl fp i : ℕ} {row : StatRow} {realpaths more realpaths' : List CString}
  {real : CString} {s : StatArrays} {cs : List ResolveCall}

/-- The real path has the number `i`. -/
def IsNumber (realpaths : List CString) (real : CString) (i : ℕ) : Prop :=
  real ∈ realpaths ∧ i = realpaths.idxOf real + 1

theorem IsNumber.mono (h : IsNumber realpaths real i)
    (hle : realpaths <+: realpaths') : IsNumber realpaths' real i := by
  obtain ⟨more, rfl⟩ := hle
  exact ⟨mem_append_left _ h.1, by rw [h.2, idxOf_append_of_mem h.1]⟩

theorem IsNumber.index (h : IsNumber realpaths real i) :
    realpathIndex realpaths real = (i, realpaths) := by
  rw [realpathIndex, if_pos h.1, h.2]

/-- A real path gets a number, and the others keep theirs. -/
theorem realpathIndex_spec (realpaths : List CString) (real : CString) :
    IsNumber (realpathIndex realpaths real).2 real (realpathIndex realpaths real).1 ∧
      realpaths <+: (realpathIndex realpaths real).2 := by
  rw [realpathIndex]
  split
  · case isTrue hmem => exact ⟨⟨hmem, rfl⟩, prefix_rfl⟩
  · case isFalse hmem =>
    refine ⟨⟨mem_append_right _ mem_cons_self, ?_⟩, prefix_append _ _⟩
    rw [idxOf_append_of_notMem hmem, idxOf_cons_self]

/-- **The entries are true**, and there is room for a real path wherever there is an entry. -/
structure IsRow (t : Site) (cur fp : ℕ) (realpaths : List CString) (row : StatRow) : Prop where
  nonempty : 0 < row.stats.length
  room : row.stats.length ≤ row.reals.length
  known : ∀ sl b, row.stats[sl]? = some (some b) → b = t.isFileAt cur sl fp
  real : ∀ sl, row.stats[sl]? = some (some true) →
    ∃ i, row.reals[sl]? = some (some i) ∧ IsNumber realpaths (t.realAt cur sl fp) i

theorem isRow_empty : t.IsRow cur fp realpaths .empty := by
  have hlen : (replicate dirArraySize (none : Option Bool)).length = 500 := length_replicate
  refine ⟨hlen ▸ Nat.succ_pos _, ?_, fun sl b h => ?_, fun sl h => ?_⟩
  · exact hlen.le.trans (length_replicate (a := (none : Option ℕ))).ge
  all_goals cases eq_of_mem_replicate (mem_of_getElem? h)

theorem IsRow.mono (h : t.IsRow cur fp realpaths row)
    (hle : realpaths <+: realpaths') : t.IsRow cur fp realpaths' row := by
  refine ⟨h.nonempty, h.room, h.known, fun sl hsl => ?_⟩
  obtain ⟨i, hi, hnumber⟩ := h.real sl hsl
  exact ⟨i, hi, hnumber.mono hle⟩

/-- The new entries say nothing. -/
theorem getElem?_append_replicate {α : Type} {xs : List (Option α)} {n i : ℕ} {a : α} :
    (xs ++ replicate n none)[i]? = some (some a) ↔ xs[i]? = some (some a) := by
  rw [getElem?_append]
  split
  · rfl
  · case isFalse hge =>
    rw [getElem?_eq_none (not_lt.mp hge)]
    constructor
    · intro h
      cases eq_of_mem_replicate (mem_of_getElem? h)
    · intro h
      cases h

theorem IsRow.grow (h : t.IsRow cur fp realpaths row) (i : ℕ) :
    t.IsRow cur fp realpaths (row.grow i) ∧ i < (row.grow i).stats.length := by
  have hpos := h.nonempty
  have hroom := h.room
  have hlen : (row.grow i).stats.length = row.stats.length + max i row.stats.length := by
    rw [StatRow.grow, length_append, length_replicate]
  refine ⟨⟨by omega, ?_, fun sl b hb => ?_, fun sl hsl => ?_⟩, by omega⟩
  · rw [hlen, StatRow.grow]
    simp only [length_append, length_replicate]
    omega
  · exact h.known sl b (getElem?_append_replicate.mp hb)
  · obtain ⟨j, hj, hnumber⟩ := h.real sl (getElem?_append_replicate.mp hsl)
    exact ⟨j, getElem?_append_replicate.mpr hj, hnumber⟩

/-- An entry that is true can be made. -/
theorem IsRow.set (h : t.IsRow cur fp realpaths row) (hsl : sl < row.stats.length) {b : Bool}
    (hb : b = t.isFileAt cur sl fp) {reals : List (Option ℕ)}
    (hlen : reals.length = row.reals.length) (hother : ∀ sl' ≠ sl, reals[sl']? = row.reals[sl']?)
    (hreal : b = true → ∃ i, reals[sl]? = some (some i) ∧
      IsNumber realpaths (t.realAt cur sl fp) i) :
    t.IsRow cur fp realpaths ⟨row.stats.set sl (some b), reals⟩ := by
  refine ⟨?_, ?_, fun sl' b' hb' => ?_, fun sl' hsl' => ?_⟩
  · rw [length_set]
    exact h.nonempty
  · rw [length_set, hlen]
    exact h.room
  · by_cases heq : sl' = sl
    · subst heq
      rw [getElem?_set_self hsl] at hb'
      rw [← Option.some.inj (Option.some.inj hb')]
      exact hb
    · rw [getElem?_set_ne (Ne.symm heq)] at hb'
      exact h.known sl' b' hb'
  · by_cases heq : sl' = sl
    · subst heq
      rw [getElem?_set_self hsl] at hsl'
      exact hreal (Option.some.inj (Option.some.inj hsl'))
    · rw [getElem?_set_ne (Ne.symm heq)] at hsl'
      rw [hother sl' heq]
      exact h.real sl' hsl'

/-! ### Turns and calls -/

/-- What a turn gives for a directory, and the map of real paths after it. -/
def answer (t : Site) (cur sl fp : ℕ) (realpaths : List CString) :
    Option (Option ℕ) × List CString :=
  if t.isFileAt cur sl fp then
    let (i, realpaths) := realpathIndex realpaths (t.realAt cur sl fp)
    (some (some i), realpaths)
  else (none, realpaths)

theorem setItem_eq {α : Type} {xs : List α} {x : α} (h : i < xs.length) :
    setItem xs i x = .ok (xs.set i x) := if_pos h

theorem askSystem_spec (h : t.IsRow cur fp realpaths row) (hsl : sl < row.stats.length) :
    ∃ row', t.askSystem cur sl fp row realpaths =
        .ok ((t.answer cur sl fp realpaths).1, row', (t.answer cur sl fp realpaths).2) ∧
      t.IsRow cur fp (t.answer cur sl fp realpaths).2 row' := by
  have hsl' : sl < row.reals.length := hsl.trans_le h.room
  rw [askSystem, answer]
  split
  · case isTrue hfile =>
    obtain ⟨hnumber, hle⟩ := realpathIndex_spec realpaths (t.realAt cur sl fp)
    refine ⟨⟨row.stats.set sl (some true), row.reals.set sl (some _)⟩, ?_,
      (h.mono hle).set hsl hfile.symm length_set (fun sl' hne => getElem?_set_ne (Ne.symm hne))
        fun _ => ⟨_, getElem?_set_self hsl', hnumber⟩⟩
    rw [setItem_eq hsl, Except.ok_bind]
    dsimp only
    rw [setItem_eq hsl']
    rfl
  · case isFalse hfile =>
    have hno := (Bool.eq_false_iff.mpr hfile).symm
    refine ⟨⟨row.stats.set sl (some false), row.reals⟩, ?_,
      h.set hsl hno rfl (fun _ _ => rfl) nofun⟩
    rw [setItem_eq hsl]
    rfl

theorem verify_eq (hin : t.InPlace cur) {b : Bool} (hb : b = t.isFileAt cur sl fp) :
    t.verify cur sl fp b = .ok () := by
  rw [verify, if_neg (not_not.mpr hin), if_neg (not_not.mpr hb), ite_self]

/-- **A turn does what it would do without a cache**, and keeps the entries true. -/
theorem tryDirectory_spec (hin : t.InPlace cur) (h : t.IsRow cur fp realpaths row) (sl : ℕ) :
    ∃ row', t.tryDirectory cur sl fp row realpaths =
        .ok ((t.answer cur sl fp realpaths).1, row', (t.answer cur sl fp realpaths).2) ∧
      t.IsRow cur fp (t.answer cur sl fp realpaths).2 row' := by
  unfold tryDirectory
  split
  · case h_1 hknown =>
    have hno := h.known sl false hknown
    refine ⟨row, ?_, ?_⟩
    · rw [verify_eq hin hno, answer, ← hno]
      rfl
    · rw [answer, ← hno]
      exact h
  · case h_2 hknown =>
    have hyes := h.known sl true hknown
    obtain ⟨i, hreal, hnumber⟩ := h.real sl hknown
    refine ⟨row, ?_, ?_⟩
    · rw [verify_eq hin hyes, hreal, answer, ← hyes, hnumber.index]
      rfl
    · rw [answer, ← hyes, hnumber.index]
      exact h
  · case h_3 hknown => exact askSystem_spec h (List.getElem?_eq_some_iff.mp hknown).1
  · obtain ⟨hrow, hlt⟩ := h.grow sl
    exact askSystem_spec hrow hlt

theorem resolveLoop_spec (hin : t.InPlace cur) (h : t.IsRow cur fp realpaths row)
    (dirs : List ℕ) : ∃ row', t.resolveLoop cur fp dirs row realpaths =
        .ok ((t.searched cur fp dirs realpaths).1, row', (t.searched cur fp dirs realpaths).2) ∧
      t.IsRow cur fp (t.searched cur fp dirs realpaths).2 row' := by
  induction dirs generalizing row with
  | nil => exact ⟨row, rfl, h⟩
  | cons sl dirs ih =>
    obtain ⟨row₁, hturn, hrow1⟩ := tryDirectory_spec hin h sl
    rw [resolveLoop, hturn]
    rw [answer] at hrow1 ⊢
    rw [searched, find?_cons]
    cases hfile : t.isFileAt cur sl fp with
    | true =>
      rw [hfile] at hrow1
      exact ⟨row₁, rfl, hrow1⟩
    | false =>
      rw [hfile] at hrow1
      exact ih hrow1

theorem searched_prefix (t : Site) (cur fp : ℕ) (dirs : List ℕ) (realpaths : List CString) :
    realpaths <+: (t.searched cur fp dirs realpaths).2 := by
  rw [searched]
  split
  · exact prefix_rfl
  · exact (realpathIndex_spec _ _).2

/-- All entries of all arrays are true. -/
def IsCache (t : Site) (s : StatArrays) : Prop :=
  Remembers (fun key => t.IsRow key.1 key.2 s.realpaths) s.rows

/-- The include path is absolute, or the assertion holds. -/
def Checked (t : Site) (c : ResolveCall) : Prop :=
  (t.includepath c.includepath).head? = some 47 ∨ t.InPlace c.currdir

/-- **A call returns what it would return without a cache**, and keeps the entries true. -/
theorem resolve_spec {c : ResolveCall} (hc : t.Checked c) (h : t.IsCache s) :
    ∃ s', t.resolve c s = .ok ((t.uncached c s.realpaths).1, s') ∧
      s'.realpaths = (t.uncached c s.realpaths).2 ∧ t.IsCache s' := by
  rw [resolve, uncached]
  split
  · exact ⟨s, rfl, rfl, h⟩
  · case isFalse hrel =>
    have hin := hc.resolve_left hrel
    have hrow : t.IsRow c.currdir c.includepath s.realpaths
        ((s.rows (c.currdir, c.includepath)).getD .empty) := by
      cases hrows : s.rows (c.currdir, c.includepath) with
      | none => exact isRow_empty
      | some row => exact h _ row hrows
    obtain ⟨row', hloop, hrow'⟩ := resolveLoop_spec hin hrow c.dirs
    rw [if_neg (not_not.mpr hin)]
    dsimp only
    rw [hloop]
    refine ⟨_, rfl, rfl, Remembers.update ?_ hrow'⟩
    exact fun key row hrow => (h key row hrow).mono (t.searched_prefix ..)

/-- What is returned, with numbers of this map of real paths. -/
def meaning (t : Site) (realpaths : List CString) : Resolved → Option (Pair × CString)
  | (some (sl, fp), some i) =>
    realpaths[i - 1]?.map fun real => ((t.directory sl, t.includepath fp), real)
  | _ => none

/-- **The arrays are a cache**: a call returns the numbers of what the table of all paths gives,
whatever is in either of them already. -/
theorem resolve_refines {c : ResolveCall} (hc : t.Checked c) (h : t.IsCache s)
    {cache : BuildStatCache} (hcache : cache.Consistent t.fs) :
    ∃ res s', t.resolve c s = .ok (res, s') ∧ t.IsCache s' ∧ t.meaning s'.realpaths res =
      (cache.resolve t.fs (t.includepath c.includepath) (t.directory c.currdir)
        ((c.searchdir.filter (· ≠ 0)).map t.directory) (c.searchlist.map t.directory)).1 := by
  obtain ⟨s', hrun, hmap, hs'⟩ := resolve_spec hc h
  refine ⟨_, s', hrun, hs', ?_⟩
  have hdirs : ((c.searchdir.filter (· ≠ 0)).map t.directory).toList ++
      c.searchlist.map t.directory = c.dirs.map t.directory := by
    rw [ResolveCall.dirs, map_append, Option.toList_map]
  rw [hmap, (BuildStatCache.resolve_eq hcache ..).1, hdirs, search, uncached]
  split
  · rfl
  · have hfind : ((c.dirs.map t.directory).find? fun d =>
        t.fs.isFile (path (t.directory c.currdir) (d, t.includepath c.includepath))) =
        (c.dirs.find? (t.isFileAt c.currdir · c.includepath)).map t.directory := find?_map
    rw [hfind, searched]
    cases c.dirs.find? (t.isFileAt c.currdir · c.includepath) with
    | none => rfl
    | some sl =>
      obtain ⟨hmem, hi⟩ := (realpathIndex_spec s.realpaths
        (t.realAt c.currdir sl c.includepath)).1
      dsimp only
      rw [meaning, hi, Nat.add_sub_cancel, getElem?_idxOf hmem]
      rfl

theorem resolveAll_spec (hcs : ∀ c ∈ cs, t.Checked c)
    (h : t.IsCache s) : ∃ s', t.resolveAll cs s = .ok ((t.uncachedAll cs s.realpaths).1, s') ∧
      s'.realpaths = (t.uncachedAll cs s.realpaths).2 := by
  induction cs generalizing s with
  | nil => exact ⟨s, rfl, rfl⟩
  | cons c cs ih =>
    obtain ⟨s₁, hfirst, hmap, hs1⟩ := resolve_spec (hcs c mem_cons_self) h
    obtain ⟨s', hothers, hmap'⟩ := ih (fun c' hc' => hcs c' (mem_cons_of_mem _ hc')) hs1
    refine ⟨s', ?_, ?_⟩
    · rw [resolveAll, hfirst, Except.ok_bind]
      dsimp only
      rw [hothers, hmap]
      rfl
    · rw [hmap', hmap]
      rfl

/-- The calls of a sequence that returns are checked. -/
theorem checked_of_resolveAll
    {results : List Resolved × StatArrays} (h : t.resolveAll cs s = .ok results) :
    ∀ c ∈ cs, t.Checked c := by
  induction cs generalizing s results with
  | nil => exact fun c hc => absurd hc not_mem_nil
  | cons c cs ih =>
    obtain ⟨⟨res, s₁⟩, hfirst, hrest⟩ := Except.bind_eq_ok_iff.mp h
    obtain ⟨_, hothers, -⟩ := Except.bind_eq_ok_iff.mp hrest
    refine forall_mem_cons.mpr ⟨?_, ih hothers⟩
    rw [resolve] at hfirst
    split at hfirst
    · case isTrue habs => exact Or.inl habs
    · split at hfirst
      · cases hfirst
      · case isFalse hin => exact Or.inr (not_not.mp hin)

/-- **Transparency of the stat cache**: with nothing in the cache, a sequence of calls returns
what it would return without a cache, if and only if the assertion holds for each of them that
is not about an absolute path. -/
theorem resolveAll_eq_uncached_iff (t : Site) (cs : List ResolveCall) (realpaths : List CString) :
    (∃ s', t.resolveAll cs ⟨fun _ => none, realpaths⟩ =
        .ok ((t.uncachedAll cs realpaths).1, s') ∧
      s'.realpaths = (t.uncachedAll cs realpaths).2) ↔ ∀ c ∈ cs, t.Checked c := by
  constructor
  · rintro ⟨s', hrun, -⟩
    exact checked_of_resolveAll hrun
  · intro hcs
    exact resolveAll_spec hcs remembers_empty

/-- The root, with a file, where Python runs without `-O`. -/
def inRoot : Site :=
  ⟨.ofTable [([lit "a.h"], .file)] (by decide), fun _ => lit "a.h", fun _ => ⟨[47], rfl⟩, true⟩

/-- **In the root there is one slash too many**: the file is not found. -/
theorem inRoot_not_uncached :
    ¬ ∃ s', inRoot.resolveAll [⟨1, 1, none, [1]⟩] ⟨fun _ => none, []⟩ =
        .ok ((inRoot.uncachedAll [⟨1, 1, none, [1]⟩] []).1, s') ∧
      s'.realpaths = (inRoot.uncachedAll [⟨1, 1, none, [1]⟩] []).2 := by
  rintro ⟨s', hrun, -⟩
  have hraised : inRoot.resolveAll [⟨1, 1, none, [1]⟩] ⟨fun _ => none, []⟩ =
      .error .assertionError := rfl
  cases hraised.symm.trans hrun

end Site

end Distcc.IncludeServer
