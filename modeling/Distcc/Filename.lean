import Distcc.Base.CString

/-!
# What a name says about a file

Model of `src/filename.c`: everything the program knows about C file names. A
name is judged by its extension alone – the piece from its last dot on, and only
when something follows that dot.

`ENABLE_REMOTE_ASSEMBLE` is defined by no build file of the repository, so
assembler sources are never among the sources here.
-/

namespace Distcc

open CString

/-- `dcc_find_extension`: the extension of a name, its dot included. -/
def dccFindExtension (sfile : CString) : Option CString :=
  match strrchr '.'.toUInt8 sfile with
  | none => none
  -- a dot with nothing after it is no extension
  | some dot => if dot.tail = [] then none else some dot

/-- `dcc_find_basename`: everything after the last slash, unless nothing is. -/
def dccFindBasename (sfile : CString) : CString :=
  match strrchr '/'.toUInt8 sfile with
  | none => sfile
  | some slash => if slash.tail = [] then sfile else slash.tail

/-- `dcc_truncate_to_dirname`: everything before the last slash. -/
def dccTruncateToDirname (file : CString) : CString :=
  match strrchr '/'.toUInt8 file with
  | none => []
  | some slash => file.take (file.length - slash.length)

/-- The extensions `dcc_is_source` answers yes to. -/
def sourceExtens : List CString :=
  ["i", "ii", "c", "cc", "cpp", "cxx", "cp", "c++", "C", "m", "mm", "mi", "mii", "M"].map lit

/-- The extensions `dcc_is_preprocessed` answers yes to. -/
def preprocessedExtens : List CString := ["i", "ii", "mi", "mii"].map lit

/-- Does the extension of `sfile` stand in `extens`? -/
def hasExten (extens : List CString) (sfile : CString) : Bool :=
  match dccFindExtension sfile with
  | none => false
  | some dot => extens.contains dot.tail

/-- `dcc_is_source`: is `sfile` a source file, by its extension? -/
def dccIsSource : CString → Bool := hasExten sourceExtens

/-- `dcc_is_preprocessed`: is `sfile` already preprocessed, by its extension? -/
def dccIsPreprocessed : CString → Bool := hasExten preprocessedExtens

/-- `dcc_source_needs_local`: the files of a configure test are built locally. -/
def dccSourceNeedsLocal (filename : CString) : Bool :=
  startsWith (lit "conftest.") (dccFindBasename filename) ||
    startsWith (lit "tmp.conftest.") (dccFindBasename filename)

/-- `dcc_set_file_extension`: `sfile` with `newExt` written over its extension,
for which there must be room. -/
def dccSetFileExtension (sfile newExt : CString) : Option CString :=
  match dccFindExtension sfile with
  | none => none
  | some dot =>
    if dot.length < newExt.length then none
    else some (sfile.take (sfile.length - dot.length) ++ newExt)

/-- `dcc_output_from_source`: the object file a compiler writes when it is told
no name, in the current directory whatever the directory of the source. -/
def dccOutputFromSource (sfile outExtn : CString) : Option CString :=
  let sfile := match strrchr '/'.toUInt8 sfile with
    | none => sfile
    | some slash => slash.tail
  if sfile.length < 3 then none else dccSetFileExtension sfile outExtn

/-- `dcc_preproc_exten`: the extension of what preprocessing a file of extension
`e` gives. -/
def dccPreprocExten (e : CString) : Option CString :=
  if e.head? ≠ some '.'.toUInt8 then none
  else
    let e := e.tail
    if e ∈ ["i", "c"].map lit then some (lit ".i")
    else if e ∈ ["c", "cc", "cpp", "cxx", "cp", "c++", "C", "ii"].map lit then some (lit ".ii")
    else if e ∈ ["mi", "m"].map lit then some (lit ".mi")
    else if e ∈ ["mii", "mm", "M"].map lit then some (lit ".mii")
    else if e ∈ ["s", "S"].map lit then some (lit ".s")
    else none

/-! ### Objects are not sources -/

/-- An object name is never taken for a source: its last dot is that of `.o`. -/
theorem dccIsSource_of_endsWith_o {a : CString} (h : endsWith (lit ".o") a = true) :
    dccIsSource a = false := by
  obtain ⟨p, rfl⟩ := endsWith_iff.mp h
  have hdot : strrchr '.'.toUInt8 (p ++ lit ".o") = some (lit ".o") :=
    strrchr_append_cons p (by decide)
  have hext : dccFindExtension (p ++ lit ".o") = some (lit ".o") := by
    rw [dccFindExtension, hdot]
    decide
  rw [dccIsSource, hasExten, hext]
  decide

/-- A source has a dot in its name. -/
theorem dot_mem_of_dccIsSource {a : CString} (h : dccIsSource a = true) : '.'.toUInt8 ∈ a := by
  by_contra hc
  rw [dccIsSource, hasExten, dccFindExtension, strrchr_eq_none_iff.mpr hc] at h
  exact Bool.noConfusion h

end Distcc
