import Distcc.Base.CString
import Distcc.Base.Prog

/-!
# Dependencies that are fresh

Model of `dcc_fresh_dependency_exists` (`src/compile.c`). After a compilation on a server, the
client looks through the names in the file of dependencies for one that was changed since the
compilation started. Its content, sent before, may then not have been the one that is on disk
now.

The file is read character by character, with one that may be put back: up to the first
colon, and from there on name by name. In front of a name, white space and backslashes are
skipped; in a name, a backslash and a newline after it are left out. What the function is
given is what is left of the file, and so putting a character back is not taking it off.

A text that lists names is read name by name (`loop_depTurn`). The search ends with
the first name that is not excluded and has no file, as if there were no more names. So what
it finds is the first fresh one if no such name is in front of it
(`freshFound_iff`). Memory suffices, and lengths are natural numbers.
-/

namespace Distcc

open CString List

/-! ### The function -/

/-- What `dcc_fresh_dependency_exists` gets from the system. -/
structure DepsEnv where
  /-- The time the file of dependencies was modified, and its content, if there is one. -/
  dotd : Option (ℤ × CString)
  /-- Can it be opened? -/
  opens : Bool
  /-- `st_ctime` of a file, if there is one. -/
  ctime : CString → Option ℤ

/-- The loop over the characters of a name, `depName` being those it has so far. It ends with
what is left of the file, or with `none` at its end; and it is `none` without enough room. -/
def readDepName (size : ℕ) (depName : CString) : CString → Option (CString × Option CString)
  | [] => some (depName, none)
  | c :: rest =>
    if isSpace c && c ≠ '\\'.toUInt8 then some (depName, some rest)
    else if depName.length ≥ size then none
    else if c = '\\'.toUInt8 then
      match rest with
      | [] => some (depName, none)
      | c' :: rest' =>
        if c' = '\n'.toUInt8 then readDepName size depName rest'
        else readDepName size depName (c' :: rest')
    else readDepName size (depName ++ [c]) rest

section Search

variable (env : DepsEnv) (excludePattern : Option (CString → Bool)) (referenceTime : ℤ)

/-- Is the name to be left out? What matches a pattern is what `fnmatch` says. -/
def isExcluded (depName : CString) : Bool := excludePattern.any fun fnmatch => fnmatch depName

/-- A turn of the loop over the names. -/
def depTurn (size : ℕ) (input : CString) : Prog Unit Fault (CString ⊕ Option CString) :=
  match readDepName size [] (input.dropWhile fun c => isSpace c || c = '\\'.toUInt8) with
  | none => pure (.inr none)
  | some (depName, next) =>
    -- the loop goes on unless `c` is `EOF`
    let goOn : Prog Unit Fault (CString ⊕ Option CString) := pure (next.elim (.inr none) .inl)
    if depName.length = 0 then goOn
    -- `dep_name[i] = '\0'`
    else if depName.length ≥ size then Prog.fail .bounds
    else if isExcluded excludePattern (ofBuffer depName) then goOn
    else match env.ctime (ofBuffer depName) with
    | none => pure (.inr none)
    | some ctime => if ctime ≥ referenceTime then pure (.inr (some (ofBuffer depName))) else goOn

/-- `dcc_fresh_dependency_exists` gives what `*result` is in the end. -/
def dccFreshDependencyExists : Prog Unit Fault (Option CString) :=
  match env.dotd with
  | none => pure none
  | some (mtime, content) =>
    if mtime < referenceTime then pure none
    else if env.opens = false then pure none
    else match content.dropWhile (· ≠ ':'.toUInt8) with
    | [] => pure none
    | _ :: rest =>
      Prog.loop (depTurn env excludePattern referenceTime content.length) (rest.length + 1) rest

end Search

/-! ### What the function is for -/

/-- White space and backslashes. -/
def IsBlank (s : CString) : Prop := ∀ c ∈ s, isSpace c = true ∨ c = '\\'.toUInt8
deriving Decidable

/-- A name of a file, without white space and backslashes. -/
structure IsDepName (name : CString) : Prop where
  ne_nil : name ≠ []
  plain : ∀ c ∈ name, isSpace c = false ∧ c ≠ '\\'.toUInt8
  nulFree : name.NulFree

/-- **A text lists these names.** What separates two of them begins with white space, and
backslashes may follow, as before a newline. -/
inductive Lists : List CString → CString → Prop where
  | nil {blank : CString} : IsBlank blank → Lists [] blank
  | last {blank name : CString} : IsBlank blank → IsDepName name → Lists [name] (blank ++ name)
  | cons {blank name rest : CString} {c : UInt8} {names : List CString} : IsBlank blank →
      IsDepName name → isSpace c = true → Lists names rest →
      Lists (name :: names) (blank ++ name ++ c :: rest)

/-- **A file is fresh**: it is there, was changed since, and is not left out. -/
def IsFresh (env : DepsEnv) (excludePattern : Option (CString → Bool)) (referenceTime : ℤ)
    (name : CString) : Bool :=
  !isExcluded excludePattern name && (env.ctime name).any (referenceTime ≤ ·)

/-! ### Reading -/

variable {env : DepsEnv} {excludePattern : Option (CString → Bool)} {referenceTime : ℤ}
  {name : CString} {size : ℕ} {names : List CString}

theorem readDepName_space {c : UInt8} (hc : isSpace c = true) (size : ℕ) (depName rest : CString) :
    readDepName size depName (c :: rest) = some (depName, some rest) := by
  have hslash : c ≠ '\\'.toUInt8 := by
    rintro rfl
    cases hc
  rw [readDepName.eq_def]
  simp [hc, hslash]

theorem readDepName_plain {c : UInt8} (hspace : isSpace c = false) (hslash : c ≠ '\\'.toUInt8)
    {depName : CString} (hsize : depName.length < size) (rest : CString) :
    readDepName size depName (c :: rest) = readDepName size (depName ++ [c]) rest := by
  rw [readDepName.eq_def]
  simp [hspace, hslash, Nat.not_le.mpr hsize]

/-- A name is read to its end. -/
theorem readDepName_append {depName name : CString}
    (hname : ∀ c ∈ name, isSpace c = false ∧ c ≠ '\\'.toUInt8)
    (hsize : depName.length + name.length ≤ size) (rest : CString) :
    readDepName size depName (name ++ rest) = readDepName size (depName ++ name) rest := by
  induction name generalizing depName with
  | nil => simp
  | cons c name ih =>
    obtain ⟨⟨hspace, hslash⟩, hrest⟩ := forall_mem_cons.mp hname
    rw [length_cons] at hsize
    rw [cons_append, readDepName_plain hspace hslash (by omega),
      ih hrest (by rw [length_append, length_singleton]; omega), append_assoc,
      singleton_append]

/-- What is in front of a name is skipped. -/
theorem dropWhile_blank_append {blank name : CString} (hblank : IsBlank blank)
    (hname : IsDepName name) (rest : CString) :
    (blank ++ name ++ rest).dropWhile (fun c => isSpace c || c = '\\'.toUInt8) = name ++ rest := by
  have hpos : ∀ c ∈ blank, (isSpace c || decide (c = '\\'.toUInt8)) = true := fun c hc => by
    simpa using hblank c hc
  rw [append_assoc, dropWhile_append_of_pos hpos]
  cases name with
  | nil => exact absurd rfl hname.ne_nil
  | cons c name =>
    obtain ⟨hspace, hslash⟩ := hname.plain c mem_cons_self
    exact dropWhile_cons_of_neg (by simp [hspace, hslash])

theorem dropWhile_blank {blank : CString} (hblank : IsBlank blank) :
    blank.dropWhile (fun c => isSpace c || c = '\\'.toUInt8) = [] :=
  dropWhile_eq_nil_iff.mpr fun c hc => by simpa using hblank c hc

/-! ### The search -/

/-- What becomes of a name: the search may end with it. -/
def checkDep (env : DepsEnv) (excludePattern : Option (CString → Bool)) (referenceTime : ℤ)
    (name : CString) : Option (Option CString) :=
  if isExcluded excludePattern name then none
  else match env.ctime name with
  | none => some none
  | some ctime => if ctime ≥ referenceTime then some (some name) else none

/-- The search, on the names. -/
def searchDeps (env : DepsEnv) (excludePattern : Option (CString → Bool)) (referenceTime : ℤ) :
    List CString → Option CString
  | [] => none
  | name :: names =>
    (checkDep env excludePattern referenceTime name).getD
      (searchDeps env excludePattern referenceTime names)

/-- A turn that reads a name. -/
theorem depTurn_of_name {input name : CString} {next : Option CString}
    (hread : readDepName size [] (input.dropWhile fun c => isSpace c || c = '\\'.toUInt8) =
      some (name, next))
    (hname : IsDepName name) (hsize : name.length < size) :
    depTurn env excludePattern referenceTime size input () =
      some (.ok ((checkDep env excludePattern referenceTime name).elim
        (next.elim (.inr none) .inl) .inr), ()) := by
  have hlen : name.length ≠ 0 := fun h => hname.ne_nil (length_eq_zero_iff.mp h)
  simp only [depTurn, hread, hlen, if_false, ge_iff_le, Nat.not_le.mpr hsize,
    ofBuffer_eq_self hname.nulFree, checkDep]
  cases isExcluded excludePattern name with
  | true => rfl
  | false =>
    cases env.ctime name with
    | none => rfl
    | some ctime =>
      by_cases hfresh : referenceTime ≤ ctime
      · simp only [Bool.false_eq_true, if_false, if_pos hfresh]
        rfl
      · simp only [Bool.false_eq_true, if_false, if_neg hfresh]
        rfl

/-- **A text that lists names is searched name by name.** -/
theorem loop_depTurn {text : CString} (h : Lists names text) {size k : ℕ}
    (hsize : text.length < size) (hk : text.length < k) :
    Prog.loop (depTurn env excludePattern referenceTime size) k text () =
      some (.ok (searchDeps env excludePattern referenceTime names), ()) := by
  obtain ⟨k, rfl⟩ := Nat.exists_eq_add_one.mpr (Nat.zero_lt_of_lt hk)
  induction h generalizing k with
  | nil hblank =>
    refine Prog.loop_done ?_
    simp only [depTurn, dropWhile_blank hblank]
    rfl
  | @last blank name hblank hname =>
    rw [length_append] at hsize
    have hread : readDepName size [] ((blank ++ name).dropWhile fun c =>
        isSpace c || c = '\\'.toUInt8) = some (name, none) := by
      have hdrop := dropWhile_blank_append hblank hname []
      rw [append_nil] at hdrop
      rw [hdrop, readDepName_append hname.plain (by rw [length_nil]; omega)]
      rfl
    refine Prog.loop_done ((depTurn_of_name hread hname (by omega)).trans ?_)
    rw [searchDeps, searchDeps]
    cases checkDep env excludePattern referenceTime name <;> rfl
  | @cons blank name rest c names hblank hname hc hrest ih =>
    rw [length_append, length_append, length_cons] at hsize hk
    have hread : readDepName size [] ((blank ++ name ++ c :: rest).dropWhile fun c =>
        isSpace c || c = '\\'.toUInt8) = some (name, some rest) := by
      rw [dropWhile_blank_append hblank hname,
        readDepName_append hname.plain (by rw [length_nil]; omega), readDepName_space hc]
      rfl
    have hturn := @depTurn_of_name env excludePattern referenceTime _ _ _ _ hread hname (by omega)
    rw [searchDeps]
    cases hcheck : checkDep env excludePattern referenceTime name with
    | none =>
      rw [hcheck] at hturn
      obtain ⟨k, rfl⟩ := Nat.exists_eq_add_one_of_ne_zero (show k ≠ 0 by omega)
      exact (Prog.loop_next hturn).trans (ih (by omega) k (by omega))
    | some result =>
      rw [hcheck] at hturn
      exact Prog.loop_done hturn

/-- A file of dependencies that is not too old is searched. -/
theorem dccFreshDependencyExists_eq {mtime : ℤ} {target body : CString}
    (hdotd : env.dotd = some (mtime, target ++ ':'.toUInt8 :: body)) (hopens : env.opens = true)
    (htime : mtime ≥ referenceTime) (htarget : ':'.toUInt8 ∉ target) (hlists : Lists names body) :
    dccFreshDependencyExists env excludePattern referenceTime () =
      some (.ok (searchDeps env excludePattern referenceTime names), ()) := by
  have hpos : ∀ c ∈ target, decide (c ≠ ':'.toUInt8) = true := fun c hc =>
    decide_eq_true fun h => htarget (h ▸ hc)
  have hcolon : (target ++ ':'.toUInt8 :: body).dropWhile (· ≠ ':'.toUInt8) =
      ':'.toUInt8 :: body := by
    rw [dropWhile_append_of_pos hpos]
    exact dropWhile_cons_of_neg (by simp)
  simp only [dccFreshDependencyExists, hdotd, Int.not_lt.mpr htime, if_false, hopens,
    Bool.true_eq_false, hcolon]
  refine loop_depTurn hlists ?_ (Nat.lt_succ_self _)
  rw [length_append, length_cons]
  omega

/-! ### Fresh dependencies are found -/

/-- The names that are not left out and have no file. -/
def IsMissing (env : DepsEnv) (excludePattern : Option (CString → Bool)) (name : CString) : Bool :=
  !isExcluded excludePattern name && (env.ctime name).isNone

theorem checkDep_of_fresh (h : IsFresh env excludePattern referenceTime name = true) :
    checkDep env excludePattern referenceTime name = some (some name) := by
  rw [IsFresh, Bool.and_eq_true, Bool.not_eq_true', Option.any_eq_true] at h
  obtain ⟨hexcluded, ctime, hctime, hle⟩ := h
  simp [checkDep, hexcluded, hctime, of_decide_eq_true hle]

theorem checkDep_of_missing (h : IsMissing env excludePattern name = true) :
    checkDep env excludePattern referenceTime name = some none := by
  rw [IsMissing, Bool.and_eq_true, Bool.not_eq_true', Option.isNone_iff_eq_none] at h
  simp [checkDep, h.1, h.2]

theorem checkDep_of_neither (hfresh : IsFresh env excludePattern referenceTime name = false)
    (hmissing : IsMissing env excludePattern name = false) :
    checkDep env excludePattern referenceTime name = none := by
  rw [checkDep]
  cases hexcluded : isExcluded excludePattern name with
  | true => rfl
  | false =>
    cases hctime : env.ctime name with
    | none => simp [IsMissing, hexcluded, hctime] at hmissing
    | some ctime =>
      rw [if_neg Bool.false_ne_true]
      refine if_neg fun hle => ?_
      simp [IsFresh, hexcluded, hctime, hle] at hfresh

/-- **No missing file hides a fresh one**: none of those in front of the first fresh one is
missing. -/
def NothingHidden (env : DepsEnv) (excludePattern : Option (CString → Bool)) (referenceTime : ℤ)
    (names : List CString) : Prop :=
  ∀ pre name post, names = pre ++ name :: post →
    IsFresh env excludePattern referenceTime name = true →
    (∀ other ∈ pre, IsFresh env excludePattern referenceTime other = false) →
    ∀ other ∈ pre, IsMissing env excludePattern other = false

section Hidden

variable {name : CString} {names : List CString}

/-- Nothing is in front of the first name. -/
theorem nothingHidden_of_fresh (h : IsFresh env excludePattern referenceTime name = true) :
    NothingHidden env excludePattern referenceTime (name :: names) := by
  rintro (_ | ⟨first, pre⟩) other post hsplit - hpre
  · exact forall_mem_nil _
  · obtain ⟨rfl, -⟩ := List.cons.inj hsplit
    cases h.symm.trans (hpre name mem_cons_self)

theorem nothingHidden_of_missing (hmissing : IsMissing env excludePattern name = true)
    (hfresh : IsFresh env excludePattern referenceTime name = false) :
    NothingHidden env excludePattern referenceTime (name :: names) ↔
      names.find? (IsFresh env excludePattern referenceTime) = none := by
  constructor
  · intro h
    by_contra hfind
    obtain ⟨first, hfirst⟩ := Option.ne_none_iff_exists'.mp hfind
    obtain ⟨hfound, pre, post, rfl, hpre⟩ := find?_eq_some_iff_append.mp hfirst
    have hnot := h (name :: pre) first post rfl hfound
      (forall_mem_cons.mpr ⟨hfresh, fun other ho => by simpa using hpre other ho⟩)
      name mem_cons_self
    cases hmissing.symm.trans hnot
  · rintro hfind (_ | ⟨first, pre⟩) other post hsplit hother -
    · exact forall_mem_nil _
    · obtain ⟨rfl, rfl⟩ := List.cons.inj hsplit
      have hmem : other ∈ pre ++ other :: post := mem_append_right pre mem_cons_self
      exact absurd hother (find?_eq_none.mp hfind other hmem)

theorem nothingHidden_of_neither (hmissing : IsMissing env excludePattern name = false)
    (hfresh : IsFresh env excludePattern referenceTime name = false) :
    NothingHidden env excludePattern referenceTime (name :: names) ↔
      NothingHidden env excludePattern referenceTime names := by
  constructor
  · intro h pre other post hsplit hother hpre
    exact (forall_mem_cons.mp (h (name :: pre) other post (congrArg _ hsplit) hother
      (forall_mem_cons.mpr ⟨hfresh, hpre⟩))).2
  · rintro h (_ | ⟨first, pre⟩) other post hsplit hother hpre
    · exact forall_mem_nil _
    · obtain ⟨rfl, hrest⟩ := List.cons.inj hsplit
      exact forall_mem_cons.mpr
        ⟨hmissing, h pre other post hrest hother (forall_mem_cons.mp hpre).2⟩

end Hidden

theorem searchDeps_eq_find?_iff (names : List CString) :
    searchDeps env excludePattern referenceTime names =
        names.find? (IsFresh env excludePattern referenceTime) ↔
      NothingHidden env excludePattern referenceTime names := by
  induction names with
  | nil =>
    refine iff_of_true rfl fun pre name post hsplit => ?_
    exact absurd hsplit.symm (append_ne_nil_of_right_ne_nil pre (cons_ne_nil name post))
  | cons name names ih =>
    rw [searchDeps]
    cases hfresh : IsFresh env excludePattern referenceTime name with
    | true =>
      rw [checkDep_of_fresh hfresh, find?_cons_of_pos hfresh]
      exact iff_of_true rfl (nothingHidden_of_fresh hfresh)
    | false =>
      rw [find?_cons_of_neg (ne_true_of_eq_false hfresh)]
      cases hmissing : IsMissing env excludePattern name with
      | true =>
        rw [checkDep_of_missing hmissing, nothingHidden_of_missing hmissing hfresh]
        exact eq_comm
      | false =>
        rw [checkDep_of_neither hfresh hmissing, nothingHidden_of_neither hmissing hfresh]
        exact ih

/-- **When the first fresh dependency is found**, for every file that lists names after a
target. -/
theorem freshFound_iff {mtime : ℤ} {target body : CString} {names : List CString}
    (hdotd : env.dotd = some (mtime, target ++ ':'.toUInt8 :: body)) (hopens : env.opens = true)
    (htime : mtime ≥ referenceTime) (htarget : ':'.toUInt8 ∉ target) (hlists : Lists names body) :
    dccFreshDependencyExists env excludePattern referenceTime () =
        some (.ok (names.find? (IsFresh env excludePattern referenceTime)), ()) ↔
      NothingHidden env excludePattern referenceTime names := by
  rw [dccFreshDependencyExists_eq hdotd hopens htime htarget hlists,
    ← searchDeps_eq_find?_iff]
  simp

/-- A file of dependencies with two names, one of which was changed at the time 20. -/
def twoNames (ctime : Option ℤ) : DepsEnv where
  dotd := some (15, lit "a.o" ++ ':'.toUInt8 :: lit " a.c \\\n a.h\n")
  opens := true
  ctime name := if name = lit "a.h" then some 20 else ctime

theorem lists_twoNames : Lists [lit "a.c", lit "a.h"] (lit " a.c \\\n a.h\n") := by
  have hc : IsDepName (lit "a.c") := ⟨by decide, by decide, by decide⟩
  have hh : IsDepName (lit "a.h") := ⟨by decide, by decide, by decide⟩
  have hlast : Lists [lit "a.h"] (lit "\\\n a.h\n") :=
    @Lists.cons (lit "\\\n ") _ [] '\n'.toUInt8 _ (by decide) hh (by decide) (.nil (by decide))
  exact @Lists.cons (lit " ") _ _ ' '.toUInt8 _ (by decide) hc (by decide) hlast

theorem freshFound_iff_header :
    dccFreshDependencyExists (twoNames (some 5)) none 10 () =
      some (.ok (some (lit "a.h")), ()) := by
  refine (freshFound_iff rfl rfl (by decide) (by decide) lists_twoNames).mpr ?_
  intro pre name post hsplit _ _ other hother
  have hpresent : ∀ other ∈ [lit "a.c", lit "a.h"],
      IsMissing (twoNames (some 5)) none other = false := by decide
  exact hpresent other (hsplit ▸ mem_append_left _ hother)

/-- **A missing file hides a fresh one.** -/
theorem missing_hides_fresh :
    IsFresh (twoNames none) none 10 (lit "a.h") = true ∧
      dccFreshDependencyExists (twoNames none) none 10 () = some (.ok none, ()) :=
  ⟨by decide, dccFreshDependencyExists_eq rfl rfl (by decide) (by decide) lists_twoNames⟩

end Distcc
