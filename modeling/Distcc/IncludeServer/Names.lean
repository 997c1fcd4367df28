import Distcc.Base.FileSystem

/-!
# The names of included files

The include server knows a file by a search directory and an include path. It stands
for the path that is made of the two, from the current directory. Strings are kept in
maps that number them (`MapToIndex`); equal strings have equal numbers and different ones
different numbers, and a number is modelled by its string. What the maps make of a string
before they number it is here: `directoryMapIndex` puts the slash
behind a directory, and a real path is looked up in the file system.

When a file includes another one, what counts is the directory of its name
(`dirOf`). It has many names, too. Whatever is included from it
depends on its place only (`locate_below`,
`locate_dirOf_below`).
-/

namespace Distcc.IncludeServer

open CString List

/-- What is raised. -/
inductive PyExc where
  | notCoveredError (message : CString)
  | assertionError
  | typeError
  | attributeError
  | osError
deriving DecidableEq

/-! ### Directories -/

/-- A string that the map of directories holds: it is empty, or a slash, or it ends in one
slash. -/
def isDirectory (s : CString) : Bool :=
  match s.reverse with
  | [] => true
  | [b] => b = 47
  | b :: c :: _ => b = 47 ∧ c ≠ 47

theorem isDirectory_nil : isDirectory [] = true := rfl

theorem isDirectory_concat {s : CString} :
    isDirectory (s ++ [47]) = true ↔ s.getLast? ≠ some 47 := by
  rw [isDirectory, reverse_append, getLast?_eq_head?_reverse]
  cases s.reverse <;> simp

/-- A directory, by the string that the map holds. -/
structure Directory where
  /-- The string. -/
  string : CString
  wellFormed : isDirectory string = true
deriving DecidableEq

/-- `DirectoryMapToIndex.Index`. -/
def directoryMapIndex (directory : CString) : Except PyExc Directory :=
  if h : directory = [] ∨ directory = [47] then
    .ok ⟨directory, by rcases h with rfl | rfl <;> rfl⟩
  else if h' : directory.getLast? = some 47 then .error .assertionError
  else .ok ⟨directory ++ [47], isDirectory_concat.mpr h'⟩

theorem isDirectory_cases {s : CString} (h : isDirectory s = true) :
    s = [] ∨ s = [47] ∨ ∃ (x : CString) (b : UInt8), b ≠ 47 ∧ s = x ++ [b] ++ [47] := by
  obtain rfl | ⟨t, b, rfl⟩ := eq_nil_or_concat s
  · exact Or.inl rfl
  · right
    rw [concat_eq_append] at h ⊢
    obtain rfl | ⟨x, c, rfl⟩ := eq_nil_or_concat t
    · left
      simpa [isDirectory] using h
    · right
      rw [concat_eq_append] at h ⊢
      have hbc : b = 47 ∧ c ≠ 47 := by simpa [isDirectory] using h
      exact ⟨x, c, hbc.2, by rw [hbc.1]⟩

theorem Directory.slashed (d : Directory) : Slashed d.string := by
  obtain hnil | hroot | ⟨x, b, -, hx⟩ := isDirectory_cases d.wellFormed
  · exact Or.inl hnil
  · exact Or.inr ⟨[], hroot⟩
  · exact Or.inr ⟨x ++ [b], hx⟩

/-! ### Files -/

/-- A file by a search directory and an include path: a filepath pair. -/
abbrev Pair := Directory × CString

/-- The path from the current directory. -/
def path (cur : Directory) (p : Pair) : CString := pathJoin cur.string (p.1.string ++ p.2)

/-- The name of the directory of a file. -/
def dirname (p : Pair) : CString := pathDirname (pathJoin p.1.string p.2)

/-- The directory of a file, by the name of the file. There is one if the include path is
relative (`directoryMapIndex_dirname`). -/
def dirOf (p : Pair) : Directory :=
  match directoryMapIndex (dirname p) with
  | .ok d => d
  | .error _ => ⟨[], isDirectory_nil⟩

/-- The real path of a file. -/
def realOf (fs : FileSystem) (cur : Directory) (p : Pair) : CString := fs.realpath (path cur p)

/-- The real path of the directory of a file. -/
def dirRealOf (fs : FileSystem) (cur : Directory) (p : Pair) : CString :=
  fs.realpath (pathJoin cur.string (dirname p))

/-- The pair is the name of a regular file, and the include path is relative. -/
def Found (fs : FileSystem) (cur : Directory) (p : Pair) : Prop :=
  p.2.head? ≠ some 47 ∧ fs.isFile (path cur p) = true

section Directories

variable {fs : FileSystem} {cur d : Directory} {fp : CString} {loc : Loc}

section

variable (h : fp.head? ≠ some 47)
include h

theorem head?_dirPart : (dirPart fp).head? ≠ some 47 := by
  obtain ⟨-, last, hfp, -⟩ := exists_dirPart_append fp
  intro hhead
  apply h
  rw [hfp, head?_append, hhead]
  rfl

/-- The directory part of a name, in slashes only, is that of a file in the current
directory or in the root. -/
theorem dirPart_eq_nil_of_all (hall : (d.string ++ dirPart fp).all (· = 47) = true) :
    dirPart fp = [] ∧ (d.string = [] ∨ d.string = [47]) := by
  rw [all_append, Bool.and_eq_true] at hall
  constructor
  · cases hpart : dirPart fp with
    | nil => rfl
    | cons b s =>
      have hb := all_eq_true.mp hall.2 b (hpart ▸ mem_cons_self)
      have hhead := head?_dirPart h
      rw [hpart, of_decide_eq_true hb] at hhead
      exact absurd rfl hhead
  · obtain hnil | hroot | ⟨x, b, hb, hx⟩ := isDirectory_cases d.wellFormed
    · exact Or.inl hnil
    · exact Or.inr hroot
    · have hmem := all_eq_true.mp hall.1 b (by simp [hx])
      exact absurd (of_decide_eq_true hmem) hb

/-- **The directory of a name**: what comes before the last slash, with one slash. -/
theorem directoryMapIndex_dirname : directoryMapIndex (dirname (d, fp)) = .ok (dirOf (d, fp)) ∧
      ((dirname (d, fp) = d.string ∧ (dirOf (d, fp)).string = d.string ∧ dirPart fp = []) ∨
        ∃ k, dirname (d, fp) ≠ [] ∧ (dirOf (d, fp)).string = dirname (d, fp) ++ [47] ∧
          d.string ++ dirPart fp = (dirOf (d, fp)).string ++ List.replicate k 47) := by
  have hname : dirname (d, fp) = pathDirname (d.string ++ fp) := by
    rw [dirname, pathJoin_of_relative d.slashed h]
  have hpart := dirPart_append d.slashed fp
  cases hall : (d.string ++ dirPart fp).all (· = 47) with
  | true =>
    obtain ⟨hfp, hd⟩ := dirPart_eq_nil_of_all h hall
    have hstring : dirname (d, fp) = d.string := by
      rw [hname, pathDirname, hpart, if_pos hall, hfp, append_nil]
    have hindex : directoryMapIndex (dirname (d, fp)) = .ok d := by
      rw [directoryMapIndex, dif_pos (hstring ▸ hd)]
      congr
    rw [dirOf, hindex]
    exact ⟨rfl, Or.inl ⟨hstring, rfl, hfp⟩⟩
  | false =>
    obtain ⟨x, b, k, hb, hx, hk⟩ := exists_pathDirname (hpart ▸ hall)
    rw [hpart, ← hname] at hk
    rw [← hname] at hx
    have hlast : (dirname (d, fp)).getLast? ≠ some 47 := by
      rw [hx, getLast?_concat]
      simpa using hb
    have hindex : directoryMapIndex (dirname (d, fp)) =
        .ok ⟨dirname (d, fp) ++ [47], isDirectory_concat.mpr hlast⟩ := by
      rw [directoryMapIndex, dif_neg, dif_neg hlast]
      rintro (hnil | hroot)
      · exact absurd (hx.symm.trans hnil) (by simp)
      · exact hlast (hroot ▸ rfl)
    rw [dirOf, hindex]
    exact ⟨rfl, Or.inr ⟨k, by simp [hx], rfl, hk⟩⟩

/-- The directory of a name is the place that comes before the last slash. -/
theorem locate_dirOf : fs.locate (pathJoin cur.string (dirOf (d, fp)).string) =
      fs.locate (pathJoin cur.string (d.string ++ dirPart fp)) := by
  obtain ⟨-, ⟨-, hdir, hpart⟩ | ⟨k, hne, hdir, hk⟩⟩ := directoryMapIndex_dirname (d := d) h
  · rw [hdir, hpart, append_nil]
  · rw [hk, pathJoin_append cur.slashed (fun hnil => absurd hnil (by simp [hdir])),
      fs.locate_slashes (slashed_pathJoin cur.slashed (Directory.slashed _))]

/-- Its real path is that of its name. -/
theorem dirRealOf_of_locate
    (hloc : fs.locate (pathJoin cur.string (dirOf (d, fp)).string) = some loc) :
    dirRealOf fs cur (d, fp) = render loc := by
  obtain ⟨-, ⟨hname, hdir, -⟩ | ⟨k, hne, hdir, -⟩⟩ := directoryMapIndex_dirname (d := d) h
  · rw [hdir, ← hname] at hloc
    exact FileSystem.realpath_of_locate hloc
  · rw [hdir, pathJoin_append cur.slashed (fun hnil => absurd hnil hne)] at hloc
    exact FileSystem.realpath_of_locate (fs.locate_of_slash hloc)

end

section

variable (hd : fs.locate (pathJoin cur.string d.string) = some loc)
include hd

/-- **What is below a directory** depends on where the directory is. -/
theorem locate_below (h : fp.head? ≠ some 47) :
    fs.locate (path cur (d, fp)) = fs.lead fs.nesting loc (comps fp) := by
  rw [path, pathJoin_append cur.slashed fun _ => h,
    fs.locate_append (slashed_pathJoin cur.slashed d.slashed), hd]
  rfl

theorem locate_dirOf_below (h : fp.head? ≠ some 47) :
    fs.locate (pathJoin cur.string (dirOf (d, fp)).string) =
      fs.lead fs.nesting loc (comps (dirPart fp)) := by
  rw [locate_dirOf h]
  exact locate_below hd (head?_dirPart h)

end

/-- A file that is found has a place, and so has its directory. -/
theorem Found.places {p : Pair} (h : Found fs cur p) :
    ∃ file dir, fs.entry file = some .file ∧ fs.entry dir ≠ none ∧
      realOf fs cur p = render file ∧ dirRealOf fs cur p = render dir ∧
      fs.locate (pathJoin cur.string (dirOf p).string) = some dir := by
  obtain ⟨d, fp⟩ := p
  obtain ⟨hrel, hfile⟩ := h
  obtain ⟨file, hloc, hentry⟩ := FileSystem.isFile_iff.mp hfile
  -- On the way to the file is its directory.
  obtain ⟨hslash, last, hfp, -⟩ := exists_dirPart_append fp
  have hpath : path cur (d, fp) = pathJoin cur.string (d.string ++ dirPart fp) ++ last := by
    rw [path, ← pathJoin_append cur.slashed, append_assoc, ← hfp]
    intro hnil hhead
    apply hrel
    obtain ⟨-, hpart⟩ := append_eq_nil_iff.mp hnil
    rw [hfp, hpart, nil_append, hhead]
  have hdirs : Slashed (pathJoin cur.string (d.string ++ dirPart fp)) := by
    refine slashed_pathJoin cur.slashed ?_
    obtain hnil | ⟨e, he⟩ := hslash
    · rw [hnil, append_nil]
      exact d.slashed
    · exact Or.inr ⟨d.string ++ e, by rw [he, append_assoc]⟩
  have hlocate := hloc
  rw [hpath, fs.locate_append hdirs] at hlocate
  obtain ⟨dir, hdir, -⟩ := Option.bind_eq_some_iff.mp hlocate
  rw [← locate_dirOf hrel] at hdir
  exact ⟨file, dir, hentry, FileSystem.locate_exists hdir,
    FileSystem.realpath_of_locate hloc, dirRealOf_of_locate hrel hdir, hdir⟩

end Directories

end Distcc.IncludeServer
