import Distcc.Base.Path
import Mathlib.Data.List.DropRight

/-!
# File systems with symbolic links

A file system says what there is at each place (`FileSystem`): a directory, a
file or a symbolic link. A path leads through directories only, and where it comes upon
a link it goes where the link leads first (`FileSystem.lead`). A link that leads
into itself leads nowhere, and it is enough to bound how deep links are nested in the
targets of links: there is no bound on how many a path comes upon one after the other.

Two things make the places independent of the names by which they were reached. A path
that goes on below a directory leads where its rest leads from there
(`FileSystem.locate_append`), and different places have different real paths
(`render_inj`).
-/

namespace Distcc

open CString List Option

/-! ### Places -/

/-- What there can be at a place. -/
inductive FsEntry where
  | directory
  | file
  | link (target : CString)
  | other
deriving DecidableEq

/-- A finite file system. -/
structure FileSystem where
  /-- What there is at a place. -/
  entry : Loc → Option FsEntry
  /-- How deep links may be nested in the targets of links. -/
  nesting : ℕ
  /-- The places, and maybe some more. -/
  places : List Loc
  mem_places : ∀ loc, entry loc ≠ none → loc ∈ places
  root : entry [] = some .directory
  parent : ∀ loc c, entry (loc ++ [c]) ≠ none → entry loc = some .directory
  name : ∀ loc c, entry (loc ++ [c]) ≠ none → isName c = true ∧ 47 ∉ c

namespace FileSystem

variable {fs : FileSystem} {follow : Loc → List CString → Option Loc} {loc loc' : Loc}
  {cs ds : List CString} {n : ℕ}

/-- Where the components lead from a place, if it is known where the targets of links
lead. -/
def leadBy (fs : FileSystem) (follow : Loc → List CString → Option Loc) :
    Loc → List CString → Option Loc
  | loc, [] => some loc
  | loc, c :: cs =>
    if fs.entry loc = some .directory then
      if c = lit ".." then leadBy fs follow loc.dropLast cs
      else if isName c then
        match fs.entry (loc ++ [c]) with
        | none => none
        | some (.link target) =>
          (follow (if target.head? = some 47 then [] else loc) (comps target)).bind fun loc' =>
            leadBy fs follow loc' cs
        | some _ => leadBy fs follow (loc ++ [c]) cs
      else leadBy fs follow loc cs
    else none

/-- Where the components lead from a place, with links nested no deeper than that. -/
def lead (fs : FileSystem) : ℕ → Loc → List CString → Option Loc
  | 0 => fs.leadBy fun _ _ => none
  | n + 1 => fs.leadBy (fs.lead n)

theorem leadBy_append :
    fs.leadBy follow loc (cs ++ ds) =
      (fs.leadBy follow loc cs).bind fun loc' => fs.leadBy follow loc' ds := by
  induction cs generalizing loc with
  | nil => rfl
  | cons c cs ih =>
    rw [cons_append, leadBy, leadBy]
    split
    · split
      · exact ih
      · split
        · split
          · rfl
          · simp only [ih, bind_assoc]
          · exact ih
        · exact ih
    · rfl

/-- **A way in two parts.** -/
theorem lead_append :
    fs.lead n loc (cs ++ ds) = (fs.lead n loc cs).bind fun loc' => fs.lead n loc' ds := by
  cases n with
  | zero => exact leadBy_append
  | succ n => exact leadBy_append

theorem entry_dropLast (h : fs.entry loc ≠ none) : fs.entry loc.dropLast ≠ none := by
  obtain rfl | ⟨parent, c, rfl⟩ := eq_nil_or_concat loc
  · exact h
  · rw [concat_eq_append] at h ⊢
    rw [dropLast_concat, fs.parent parent c h]
    exact some_ne_none _

theorem leadBy_exists
    (hfollow : ∀ loc cs loc', fs.entry loc ≠ none → follow loc cs = some loc' →
      fs.entry loc' ≠ none)
    (hloc : fs.entry loc ≠ none) (h : fs.leadBy follow loc cs = some loc') :
    fs.entry loc' ≠ none := by
  induction cs generalizing loc with
  | nil => exact some.inj h ▸ hloc
  | cons c cs ih =>
    rw [leadBy] at h
    split at h
    · split at h
      · exact ih (entry_dropLast hloc) h
      · split at h
        · split at h
          · cases h
          · obtain ⟨loc₁, hlink, hrest⟩ := bind_eq_some_iff.mp h
            refine ih (hfollow _ _ _ ?_ hlink) hrest
            split
            · exact fs.root ▸ some_ne_none _
            · exact hloc
          · case h_3 he => exact ih (he ▸ some_ne_none _) h
        · exact ih hloc h
    · cases h

/-- A way that leads somewhere leads to a place that there is. -/
theorem lead_exists (hloc : fs.entry loc ≠ none) (h : fs.lead n loc cs = some loc') :
    fs.entry loc' ≠ none := by
  induction n generalizing loc cs loc' with
  | zero => exact leadBy_exists (fun _ _ _ _ hnone => by cases hnone) hloc h
  | succ n ih => exact leadBy_exists (fun _ _ _ hloc hrun => ih hloc hrun) hloc h

theorem lead_cons_of_not_directory {c : CString} (h : fs.entry loc ≠ some .directory) :
    fs.lead n loc (c :: cs) = none := by
  cases n with
  | zero => exact if_neg h
  | succ n => exact if_neg h

theorem lead_blank_cons (h : fs.entry loc = some .directory) :
    fs.lead n loc ([] :: cs) = fs.lead n loc cs := by
  cases n with
  | zero => exact if_pos h
  | succ n => exact if_pos h

/-- An empty component leads on from a directory, and from nowhere else. -/
theorem lead_blank :
    fs.lead n loc [[]] = if fs.entry loc = some .directory then some loc else none := by
  split
  · case isTrue h =>
    rw [lead_blank_cons h]
    cases n <;> rfl
  · case isFalse h => exact lead_cons_of_not_directory h

/-! ### Paths -/

/-- The place that an absolute path leads to. -/
def locate (fs : FileSystem) (path : CString) : Option Loc := fs.lead fs.nesting [] (comps path)

/-- Is the path that of a regular file? -/
def isFile (fs : FileSystem) (path : CString) : Bool :=
  (fs.locate path).bind fs.entry = some .file

theorem isFile_iff {path : CString} :
    fs.isFile path = true ↔ ∃ loc, fs.locate path = some loc ∧ fs.entry loc = some .file := by
  rw [isFile, decide_eq_true_iff, bind_eq_some_iff]

theorem locate_exists {path : CString} (h : fs.locate path = some loc) : fs.entry loc ≠ none :=
  lead_exists (fs.root ▸ some_ne_none _) h

end FileSystem

/-- The path of a directory, with a slash at the end, or nothing at all. -/
def Slashed (dir : CString) : Prop := dir = [] ∨ ∃ d : CString, dir = d ++ [47]

namespace FileSystem

variable {fs : FileSystem} {loc : Loc} {dir : CString}

/-- **Below a directory** a path leads where its rest leads from there. -/
theorem locate_append (hdir : Slashed dir) (rest : CString) :
    fs.locate (dir ++ rest) =
      (fs.locate dir).bind fun loc => fs.lead fs.nesting loc (comps rest) := by
  obtain ⟨c, cs, hcs⟩ := exists_cons_of_ne_nil (comps_ne_nil rest)
  obtain rfl | ⟨d, rfl⟩ := hdir
  · have hroot : fs.locate [] = some [] := lead_blank.trans (if_pos fs.root)
    rw [hroot]
    rfl
  · rw [locate, locate, append_assoc, singleton_append, comps_append_slash,
      comps_append_slash, lead_append, lead_append]
    cases fs.lead fs.nesting [] (comps d) with
    | none => rfl
    | some loc =>
      change fs.lead fs.nesting loc (comps rest) =
        (fs.lead fs.nesting loc [[]]).bind fun loc => fs.lead fs.nesting loc (comps rest)
      rw [lead_blank]
      split
      · rfl
      · case isFalse h =>
        rw [hcs, lead_cons_of_not_directory h]
        rfl

/-- The path of a directory leads to a directory. -/
theorem locate_directory (hdir : Slashed dir) (h : fs.locate dir = some loc) :
    fs.entry loc = some .directory := by
  have hblank := fs.locate_append hdir []
  rw [append_nil, h] at hblank
  replace hblank : some loc = fs.lead fs.nesting loc [[]] := hblank
  rw [lead_blank] at hblank
  by_contra hne
  rw [if_neg hne] at hblank
  cases hblank

/-- The slash at the end does no harm to a directory. -/
theorem locate_of_slash {path : CString} (h : fs.locate (path ++ [47]) = some loc) :
    fs.locate path = some loc := by
  rw [locate, comps_append_slash, lead_append] at h
  obtain ⟨loc', hpath, hblank⟩ := bind_eq_some_iff.mp h
  replace hblank : fs.lead fs.nesting loc' [[]] = some loc := hblank
  rw [lead_blank] at hblank
  split at hblank
  · rw [← some.inj hblank]
    exact hpath
  · cases hblank

/-- More slashes at the end do not matter. -/
theorem locate_slashes (hdir : Slashed dir) (k : ℕ) :
    fs.locate (dir ++ List.replicate k 47) = fs.locate dir := by
  induction k generalizing dir with
  | zero => rw [replicate_zero, append_nil]
  | succ k ih =>
    rw [replicate_succ, ← singleton_append, ← append_assoc,
      ih (Or.inr ⟨dir, rfl⟩), locate_append hdir]
    cases hloc : fs.locate dir with
    | none => rfl
    | some loc =>
      change fs.lead fs.nesting loc [[], []] = some loc
      have hentry := fs.locate_directory hdir hloc
      rw [lead_blank_cons hentry, lead_blank, if_pos hentry]

/-! ### Paths from the current directory -/

/-- Where a path leads from the current directory. The empty path leads nowhere. -/
def locateFrom (fs : FileSystem) (cur : Loc) (path : CString) : Option Loc :=
  if path = [] then none
  else fs.lead fs.nesting (if path.head? = some 47 then [] else cur) (comps path)

/-- A component that says nothing can be left out, unless it is the last one. -/
theorem lead_skip {n : ℕ} {c : CString} {cs : List CString} (hc : c = [] ∨ c = lit ".")
    (hcs : cs ≠ []) : fs.lead n loc (c :: cs) = fs.lead n loc cs := by
  by_cases hloc : fs.entry loc = some .directory
  · have hdots : c ≠ lit ".." := by rcases hc with rfl | rfl <;> decide
    have hname : ¬ isName c = true := by rcases hc with rfl | rfl <;> decide
    cases n with
    | zero => exact (if_pos hloc).trans ((if_neg hdots).trans (if_neg hname))
    | succ n => exact (if_pos hloc).trans ((if_neg hdots).trans (if_neg hname))
  · obtain ⟨d, ds, rfl⟩ := exists_cons_of_ne_nil hcs
    rw [lead_cons_of_not_directory hloc, lead_cons_of_not_directory hloc]

/-- **Components that say nothing** can be left out, if others follow. -/
theorem lead_skips {n : ℕ} {cs ds : List CString} (hcs : ∀ c ∈ cs, c = [] ∨ c = lit ".")
    (hds : ds ≠ []) : fs.lead n loc (cs ++ ds) = fs.lead n loc ds := by
  induction cs with
  | nil => rfl
  | cons c cs ih =>
    obtain ⟨hc, hcs⟩ := forall_mem_cons.mp hcs
    rw [cons_append, lead_skip hc (append_ne_nil_of_right_ne_nil cs hds), ih hcs]

end FileSystem

/-! ### Real paths -/

/-- The path without links and dots that leads to a place. -/
def render (loc : Loc) : CString := if loc = [] then [47] else loc.flatMap fun c => 47 :: c

theorem comps_of_not_mem {c : CString} (h : 47 ∉ c) : comps c = [c] := by
  induction c with
  | nil => rfl
  | cons b c ih =>
    rw [mem_cons, not_or] at h
    rw [comps, if_neg (Ne.symm h.1), ih h.2]

variable {loc : Loc} {table : List (Loc × FsEntry)} {a b : CString} {cs : List CString}

theorem comps_flatMap_slash (h : ∀ c ∈ loc, 47 ∉ c) :
    comps (loc.flatMap fun c => 47 :: c) = [] :: loc := by
  have hhead : ∀ p : CString, comps (47 :: p) = [] :: comps p := fun p => rfl
  induction loc with
  | nil => rfl
  | cons c loc ih =>
    have hc := comps_of_not_mem (h c mem_cons_self)
    have hloc := ih fun d hd => h d (mem_cons_of_mem _ hd)
    cases loc with
    | nil => rw [flatMap_singleton, hhead, hc]
    | cons d loc =>
      rw [flatMap_cons] at hloc
      rw [flatMap_cons, flatMap_cons, cons_append, hhead, cons_append,
        comps_append_slash, hc]
      rw [cons_append, hhead] at hloc
      rw [(List.cons.inj hloc).2]
      rfl

namespace FileSystem

variable {fs : FileSystem} {loc loc' : Loc}

/-- The names on the way to a place that there is. -/
theorem name_of_mem (h : fs.entry loc ≠ none) {c : CString} (hc : c ∈ loc) :
    isName c = true ∧ 47 ∉ c := by
  induction loc using List.reverseRecOn with
  | nil => cases hc
  | append_singleton loc d ih =>
    rw [mem_append, mem_singleton] at hc
    obtain hc | rfl := hc
    · exact ih (fs.parent _ _ h ▸ some_ne_none _) hc
    · exact fs.name _ _ h

end FileSystem

/-- **Places that have the same real path are the same.** -/
theorem render_inj {fs : FileSystem} {loc loc' : Loc} (hloc : fs.entry loc ≠ none)
    (hloc' : fs.entry loc' ≠ none) (h : render loc = render loc') : loc = loc' := by
  have hcomps : ∀ l : Loc, fs.entry l ≠ none →
      comps (render l) = [] :: (if l = [] then [[]] else l) := by
    intro l hl
    rw [render]
    split
    · rfl
    · exact comps_flatMap_slash fun c hc => (fs.name_of_mem hl hc).2
  have hnames : ∀ l : Loc, fs.entry l ≠ none → l ≠ [[]] := by
    rintro _ hl rfl
    have := (fs.name_of_mem hl mem_cons_self).1
    revert this
    decide
  have heq : (if loc = [] then [[]] else loc) = if loc' = [] then [[]] else loc' := by
    have hboth := (hcomps loc hloc).symm.trans ((congrArg comps h).trans (hcomps loc' hloc'))
    exact (List.cons.inj hboth).2
  split at heq <;> split at heq
  · case isTrue.isTrue hnil hnil' => rw [hnil, hnil']
  · exact absurd heq.symm (hnames loc' hloc')
  · exact absurd heq (hnames loc hloc)
  · exact heq

/-- `realpath`: the real path, or the path itself if it leads nowhere. -/
def FileSystem.realpath (fs : FileSystem) (path : CString) : CString :=
  (fs.locate path).elim path render

theorem FileSystem.realpath_of_locate {fs : FileSystem} {path : CString}
    (h : fs.locate path = some loc) : fs.realpath path = render loc := by
  rw [realpath, h]
  rfl

/-! ### Tables -/

/-- What a table says of a place. The root is a directory without being in it. -/
def tableEntry (table : List (Loc × FsEntry)) (loc : Loc) : Option FsEntry :=
  if loc = [] then some .directory else (table.find? (·.1 = loc)).map Prod.snd

/-- Each row is that of a name in a directory. -/
def tableOk (table : List (Loc × FsEntry)) : Bool :=
  table.all fun row => isName (row.1.getLastD []) ∧ 47 ∉ row.1.getLastD [] ∧
    tableEntry table row.1.dropLast = some .directory

theorem row_of_tableEntry
    (h : tableEntry table loc ≠ none) (hne : loc ≠ []) : ∃ e, (loc, e) ∈ table := by
  rw [tableEntry, if_neg hne] at h
  obtain ⟨e, he⟩ := ne_none_iff_exists'.mp h
  obtain ⟨row, hrow, -⟩ := map_eq_some_iff.mp he
  have hloc : row.1 = loc := by simpa using find?_some hrow
  exact ⟨row.2, hloc ▸ mem_of_find?_eq_some hrow⟩

theorem tableOk_row (hok : tableOk table = true)
    {c : CString} (h : tableEntry table (loc ++ [c]) ≠ none) :
    isName c = true ∧ 47 ∉ c ∧ tableEntry table loc = some .directory := by
  obtain ⟨e, he⟩ := row_of_tableEntry h (by simp)
  simpa using all_eq_true.mp hok _ he

/-- The file system of a table. -/
def FileSystem.ofTable (table : List (Loc × FsEntry)) (hok : tableOk table = true) :
    FileSystem where
  entry := tableEntry table
  nesting := table.length
  places := [] :: table.map Prod.fst
  mem_places loc h := by
    by_cases hne : loc = []
    · exact hne ▸ mem_cons_self
    · obtain ⟨e, he⟩ := row_of_tableEntry h hne
      exact mem_cons_of_mem _ (mem_map.mpr ⟨_, he, rfl⟩)
  root := rfl
  parent _ _ h := (tableOk_row hok h).2.2
  name _ _ h := ⟨(tableOk_row hok h).1, (tableOk_row hok h).2.1⟩

/-! ### All directories -/

/-- Where the components lead if there is a directory wherever one is looked for. -/
def lexical : Loc → List CString → Loc
  | loc, [] => loc
  | loc, c :: cs =>
    if c = lit ".." then lexical loc.dropLast cs
    else if isName c then lexical (loc ++ [c]) cs
    else lexical loc cs

/-- The places that have so many of these names on the way to them, or fewer. -/
def allLocs (names : List CString) : ℕ → List Loc
  | 0 => [[]]
  | n + 1 => [] :: names.flatMap fun c => (allLocs names n).map (c :: ·)

theorem mem_allLocs {names : List CString} {n : ℕ} (hlength : loc.length ≤ n)
    (hnames : ∀ c ∈ loc, c ∈ names) : loc ∈ allLocs names n := by
  induction n generalizing loc with
  | zero => exact mem_singleton.mpr (eq_nil_of_length_eq_zero (Nat.le_zero.mp hlength))
  | succ n ih =>
    cases loc with
    | nil => exact mem_cons_self
    | cons c loc =>
      obtain ⟨hc, hloc⟩ := forall_mem_cons.mp hnames
      refine mem_cons_of_mem _ (mem_flatMap.mpr ⟨c, hc, mem_map.mpr ⟨loc, ?_, rfl⟩⟩)
      exact ih (Nat.le_of_succ_le_succ hlength) hloc

namespace FileSystem

/-- What there is if all the names are names of directories, down to a depth. -/
def fullEntry (names : List CString) (depth : ℕ) (loc : Loc) : Option FsEntry :=
  if loc.length ≤ depth ∧ ∀ c ∈ loc, c ∈ names then some .directory else none

variable {names : List CString}

theorem fullEntry_ne_none {depth : ℕ} {loc : Loc} :
    fullEntry names depth loc ≠ none ↔ loc.length ≤ depth ∧ ∀ c ∈ loc, c ∈ names := by
  rw [fullEntry]
  split
  · case isTrue h => exact ⟨fun _ => h, fun _ => some_ne_none _⟩
  · case isFalse h => exact ⟨fun hne => absurd rfl hne, fun h' => absurd h' h⟩

/-- **Directories everywhere**, of these names and down to a depth. -/
def full (names : List CString) (depth : ℕ) (hnames : ∀ c ∈ names, isName c = true ∧ 47 ∉ c) :
    FileSystem where
  entry := fullEntry names depth
  nesting := 0
  places := allLocs names depth
  mem_places loc h := by
    obtain ⟨hlength, hloc⟩ := fullEntry_ne_none.mp h
    exact mem_allLocs hlength hloc
  root := if_pos ⟨Nat.zero_le depth, forall_mem_nil _⟩
  parent loc c h := by
    obtain ⟨hlength, hloc⟩ := fullEntry_ne_none.mp h
    rw [length_append] at hlength
    exact if_pos ⟨by omega, fun d hd => hloc d (mem_append_left _ hd)⟩
  name loc c h :=
    hnames c ((fullEntry_ne_none.mp h).2 c (mem_append_right _ mem_cons_self))

theorem lead_full {depth : ℕ}
    {hnames : ∀ c ∈ names, isName c = true ∧ 47 ∉ c} {n : ℕ} {loc : Loc} {cs : List CString}
    (hlength : loc.length + cs.length ≤ depth) (hloc : ∀ c ∈ loc, c ∈ names)
    (hcs : ∀ c ∈ cs, isName c = true → c ∈ names) :
    (full names depth hnames).lead n loc cs = some (lexical loc cs) := by
  have hlead : ∀ follow, (full names depth hnames).leadBy follow loc cs =
      some (lexical loc cs) := by
    intro follow
    induction cs generalizing loc with
    | nil => rfl
    | cons c cs ih =>
      obtain ⟨hc, hcs⟩ := forall_mem_cons.mp hcs
      rw [length_cons] at hlength
      have hhere : (full names depth hnames).entry loc = some .directory :=
        if_pos ⟨by omega, hloc⟩
      rw [leadBy, if_pos hhere, lexical]
      split
      · refine ih ?_ (fun d hd => hloc d (dropLast_subset loc hd)) hcs
        rw [length_dropLast]
        omega
      · split
        · case isTrue hname =>
          have hbelow : ∀ d ∈ loc ++ [c], d ∈ names := by
            intro d hd
            rcases mem_append.mp hd with hd | hd
            · exact hloc d hd
            · exact mem_singleton.mp hd ▸ hc hname
          have hlen : (loc ++ [c]).length + cs.length ≤ depth := by
            rw [length_append, length_singleton]
            omega
          have hthere : (full names depth hnames).entry (loc ++ [c]) = some .directory :=
            if_pos ⟨by omega, hbelow⟩
          rw [hthere]
          exact ih hlen hbelow hcs
        · exact ih (by omega) hloc hcs
  cases n with
  | zero => exact hlead _
  | succ n => exact hlead _

end FileSystem

/-- A name that is not met stays away. -/
theorem not_mem_lexical {x : CString} (hloc : x ∉ loc) (hcs : x ∉ cs) : x ∉ lexical loc cs := by
  induction cs generalizing loc with
  | nil => exact hloc
  | cons c cs ih =>
    rw [mem_cons, not_or] at hcs
    rw [lexical]
    split
    · exact ih (fun hx => hloc (dropLast_subset loc hx)) hcs.2
    · split
      · refine ih (fun hx => ?_) hcs.2
        rcases mem_append.mp hx with hx | hx
        · exact hloc hx
        · exact hcs.1 (mem_singleton.mp hx)
      · exact ih hloc hcs.2

/-- A name that stands often enough on the way is not lost by going up. -/
theorem mem_lexical {x : CString}
    (h : List.replicate (cs.length + 1) x <+: loc) : x ∈ lexical loc cs := by
  induction cs generalizing loc with
  | nil => exact h.subset mem_cons_self
  | cons c cs ih =>
    have hless : List.replicate (cs.length + 1) x <+: loc.dropLast := by
      obtain ⟨t, rfl⟩ := h
      rw [length_cons, replicate_succ' (n := cs.length + 1), append_assoc,
        dropLast_append_of_ne_nil (append_ne_nil_of_left_ne_nil (cons_ne_nil _ _) t)]
      exact prefix_append _ _
    rw [lexical]
    split
    · exact ih hless
    · split
      · exact ih ((hless.trans (List.dropLast_prefix loc)).trans (prefix_append loc [c]))
      · exact ih (hless.trans (List.dropLast_prefix loc))

/-! ### Names and directories -/

/-- `os.path.join`. -/
def pathJoin (a b : CString) : CString :=
  if b.head? = some 47 then b
  else if a = [] ∨ a.getLast? = some 47 then a ++ b
  else a ++ 47 :: b

/-- A path up to its last slash. -/
def dirPart (path : CString) : CString := path.rdropWhile (· ≠ 47)

/-- `os.path.dirname`. -/
def pathDirname (path : CString) : CString :=
  if (dirPart path).all (· = 47) then dirPart path else (dirPart path).rdropWhile (· = 47)

theorem pathJoin_of_absolute (h : b.head? = some 47) : pathJoin a b = b := if_pos h

theorem pathJoin_of_relative (ha : Slashed a) (h : b.head? ≠ some 47) : pathJoin a b = a ++ b := by
  rw [pathJoin, if_neg h, if_pos]
  obtain rfl | ⟨d, rfl⟩ := ha
  · exact Or.inl rfl
  · exact Or.inr getLast?_concat

/-- Joining is from the left. -/
theorem pathJoin_append {a b c : CString} (ha : Slashed a) (hb : b = [] → c.head? ≠ some 47) :
    pathJoin a (b ++ c) = pathJoin a b ++ c := by
  by_cases habs : b.head? = some 47
  · rw [pathJoin_of_absolute habs, pathJoin_of_absolute (by simp [head?_append, habs])]
  · rw [pathJoin_of_relative ha habs, pathJoin_of_relative ha, append_assoc]
    cases b with
    | nil => exact hb rfl
    | cons x b => exact habs

theorem slashed_pathJoin (ha : Slashed a) (hb : Slashed b) : Slashed (pathJoin a b) := by
  by_cases habs : b.head? = some 47
  · rwa [pathJoin_of_absolute habs]
  · rw [pathJoin_of_relative ha habs]
    obtain rfl | ⟨d, rfl⟩ := hb
    · rwa [append_nil]
    · exact Or.inr ⟨a ++ d, (append_assoc _ _ _).symm⟩

theorem dirPart_concat (path : CString) (b : UInt8) :
    dirPart (path ++ [b]) = if b = 47 then path ++ [b] else dirPart path := by
  rw [dirPart, rdropWhile_concat]
  by_cases hb : b = 47 <;> simp [hb, dirPart]

/-- A path is cut behind its last slash. -/
theorem exists_dirPart_append (path : CString) :
    Slashed (dirPart path) ∧ ∃ last : CString, path = dirPart path ++ last ∧ 47 ∉ last := by
  induction path using List.reverseRecOn with
  | nil => exact ⟨Or.inl rfl, [], rfl, not_mem_nil⟩
  | append_singleton path b ih =>
    rw [dirPart_concat]
    split
    · case isTrue hb =>
      exact ⟨Or.inr ⟨path, by rw [hb]⟩, [], (append_nil _).symm, not_mem_nil⟩
    · case isFalse hb =>
      obtain ⟨hslash, last, hpath, hlast⟩ := ih
      refine ⟨hslash, last ++ [b], ?_, ?_⟩
      · rw [← append_assoc, ← hpath]
      · rw [mem_append, mem_singleton, not_or]
        exact ⟨hlast, Ne.symm hb⟩

theorem dirPart_append {dir : CString} (hdir : Slashed dir) (path : CString) :
    dirPart (dir ++ path) = dir ++ dirPart path := by
  induction path using List.reverseRecOn with
  | nil =>
    obtain rfl | ⟨d, rfl⟩ := hdir
    · rfl
    · rw [append_nil, dirPart_concat, if_pos rfl]
      exact (append_nil _).symm
  | append_singleton path b ih =>
    rw [← append_assoc, dirPart_concat, dirPart_concat, ih]
    split
    · exact append_assoc _ _ _
    · rfl

/-- **The name of a directory** is what stands before the last slashes. -/
theorem exists_pathDirname {path : CString} (h : (dirPart path).all (· = 47) = false) :
    ∃ (d : CString) (b : UInt8) (k : ℕ), b ≠ 47 ∧ pathDirname path = d ++ [b] ∧
      dirPart path = pathDirname path ++ [47] ++ List.replicate k 47 := by
  have hname : pathDirname path = (dirPart path).rdropWhile (· = 47) := by
    rw [pathDirname, h]
    rfl
  -- Something is left without the slashes, and it does not end in one.
  have hne : (dirPart path).rdropWhile (· = 47) ≠ [] := by
    intro hnil
    rw [rdropWhile_eq_nil_iff] at hnil
    rw [all_eq_true.mpr hnil] at h
    cases h
  have hlast := rdropWhile_last_not (fun b : UInt8 => decide (b = 47)) (dirPart path) hne
  have hslashes : (dirPart path).rtakeWhile (· = 47) =
      List.replicate ((dirPart path).rtakeWhile (· = 47)).length 47 :=
    eq_replicate_of_mem fun b hb => by simpa using mem_rtakeWhile_imp hb
  have hsplit : dirPart path = (dirPart path).rdropWhile (· = 47) ++
      List.replicate ((dirPart path).rtakeWhile (· = 47)).length 47 := by
    rw [← hslashes]
    exact rdropWhile_append_rtakeWhile.symm
  obtain ⟨d, b, hd⟩ := (eq_nil_or_concat _).resolve_left hne
  rw [concat_eq_append] at hd
  have hb : b ≠ 47 := by simpa [hd] using hlast
  rw [hname]
  cases hk : ((dirPart path).rtakeWhile (· = 47)).length with
  | zero =>
    rw [hk, replicate_zero, append_nil, hd] at hsplit
    obtain hnil | ⟨d', hd'⟩ := (exists_dirPart_append path).1
    · rw [hnil] at hsplit
      exact absurd hsplit.symm (by simp)
    · rw [hd'] at hsplit
      exact absurd (append_inj' hsplit rfl).2 (by simpa using Ne.symm hb)
  | succ k =>
    rw [hk, replicate_succ, ← singleton_append, ← append_assoc] at hsplit
    exact ⟨d, b, k, hb, hd, hsplit⟩

end Distcc
