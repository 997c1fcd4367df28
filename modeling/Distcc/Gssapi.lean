import Distcc.Base.Lines
import Distcc.Base.Prog
import Distcc.Base.Search
import Mathlib.Data.List.Sort

/-!
# The list of principals

Model of the part of `src/auth_distccd.c` that admits or refuses clients by a list of the
names of principals. `dcc_gssapi_obtain_list` reads the list from a file, one name on a
line, and sorts it. The file is read twice, first to count the lines and then to fill an
array of as many slots. `dcc_gssapi_check_list` looks for the name of a client by
bisection.

Every access to the array is checked, and so are the sums of integers that may become too
large. What `qsort` does is a parameter. Memory suffices.

With at most `2 ^ 30` lines the answer is right for every client. If there are more, the
search for a name that is greater than all of them comes to the last slot, where the sum of
the two ends of the window is not an `int` any more (`decides_iff`).
-/

namespace Distcc

open CString List Prog

/-! ### The functions -/

/-- The greatest `int`. -/
def intMax : ℤ := 2 ^ 31 - 1

/-- `strcmp`, the sign of it. -/
def strcmp (a b : CString) : Ordering := compare a b

/-- The variables `list` and `list_count`. The slots of the array are empty until they are
written to. -/
structure PrincipalList where
  /-- `list` -/
  list : List (Option CString) := []
  /-- `list_count` -/
  listCount : ℤ := 0
  deriving DecidableEq, Repr

/-- What a turn of the first loop of `dcc_gssapi_obtain_list` does. -/
def countLineTurn (file : CString) : Prog PrincipalList Fault (CString ⊕ Unit) :=
  match getline file with
  | none => pure (.inr ())
  | some (_, file) => do
    let st ← Prog.get
    if st.listCount + 1 ≤ intMax then
      Prog.modify fun st => { st with listCount := st.listCount + 1 }
      pure (.inl file)
    else Prog.fail .overflow

/-- What a turn of the second loop does. The pointer `list` has come to slot `k`. -/
def copyLineTurn (st : CString × ℕ) : Prog PrincipalList Fault (CString × ℕ ⊕ Unit) :=
  match getline st.1 with
  | none => pure (.inr ())
  | some (line, file) => do
    let v ← Prog.get
    if st.2 < v.list.length then
      -- the line is a string, and is cut at the newline
      let name := (ofBuffer line).takeWhile (· ≠ 10)
      Prog.modify fun v => { v with list := v.list.set st.2 (some name) }
      pure (.inl (file, st.2 + 1))
    else Prog.fail .bounds

/-- `dcc_gssapi_obtain_list`, of a file with this content. -/
def dccGssapiObtainList (qsort : List CString → List CString) (content : CString) :
    Prog PrincipalList Fault Unit := do
  Prog.loop countLineTurn (content.length + 1) content
  Prog.modify fun st => { st with list := List.replicate st.listCount.toNat none }
  Prog.loop copyLineTurn (content.length + 1) (content, 0)
  let st ← Prog.get
  match st.list.mapM id with
  | some names => Prog.modify fun st => { st with list := (qsort names).map some }
  | none => Prog.fail .unset

/-- What a turn of the search does, with the variables `bottom` and `top`. -/
def searchTurn (key : CString) (st : ℤ × ℤ) : Prog PrincipalList Fault (ℤ × ℤ ⊕ ℤ) := do
  let (bottom, top) := st
  if bottom ≤ top then
    if bottom + top ≤ intMax then
      let middle := (bottom + top).tdiv 2
      let v ← Prog.get
      match v.list[middle.toNat]? with
      | some (some name) =>
        match strcmp key name with
        | .lt => pure (.inl (bottom, middle - 1))
        | .gt => pure (.inl (middle + 1, top))
        | .eq => pure (.inr middle)
      | some none => Prog.fail .unset
      | none => Prog.fail .bounds
    else Prog.fail .overflow
  else pure (.inr (-1))

/-- `dcc_gssapi_bin_search` -/
def dccGssapiBinSearch (key : CString) : Prog PrincipalList Fault ℤ := do
  let st ← Prog.get
  Prog.loop (searchTurn key) (st.listCount.toNat + 1) (0, st.listCount - 1)

/-- `EXIT_GSSAPI_FAILED` -/
def exitGssapiFailed : ℤ := 119

/-- `dcc_gssapi_check_list`, where `notified` is what `dcc_gssapi_notify_client` returns. -/
def dccGssapiCheckList (optBlacklistEnabled : Bool) (notified : ℤ) (principal : CString) :
    Prog PrincipalList Fault ℤ := do
  let location ← dccGssapiBinSearch (principal.takeWhile (· ≠ 64))
  if optBlacklistEnabled then
    if location ≥ 0 then pure exitGssapiFailed
    else if notified ≠ 0 then pure notified
    else pure 0
  else
    if location ≥ 0 then
      if notified ≠ 0 then pure notified
      else pure 0
    else pure exitGssapiFailed

/-! ### Reading the list -/

/-- What is kept of a line. -/
def lineName (line : CString) : CString := (ofBuffer line).takeWhile (· ≠ 10)

/-- **The first loop** counts the lines. -/
theorem countLine_loop {k : ℕ} {file : CString} (hk : file.length < k)
    {list : List (Option CString)}
    {count : ℤ} (hcount : count ≤ intMax) :
    Prog.loop countLineTurn k file ⟨list, count⟩ =
      if count + (rawFrom file []).length ≤ intMax then
        some (.ok (), ⟨list, count + (rawFrom file []).length⟩)
      else some (.error .overflow, ⟨list, intMax⟩) := by
  induction k generalizing file count with
  | zero => exact absurd hk (Nat.not_lt_zero _)
  | succ k ih =>
    rcases getline_cases file with ⟨hline, hraw⟩ | ⟨l, rest, hline, hraw, hlen⟩
    · have hturn : countLineTurn file ⟨list, count⟩ = some (.ok (.inr ()), ⟨list, count⟩) := by
        rw [countLineTurn, hline]
        rfl
      rw [loop_done hturn, hraw, if_pos (by simpa using hcount)]
      simp
    · by_cases hroom : count + 1 ≤ intMax
      · have hturn : countLineTurn file ⟨list, count⟩ =
            some (.ok (.inl rest), ⟨list, count + 1⟩) := by
          rw [countLineTurn, hline]
          dsimp only
          rw [get_bind, if_pos hroom]
          rfl
        rw [loop_next hturn, ih (by omega) hroom, hraw, length_cons]
        have hsum : count + ((rawFrom rest []).length + 1 : ℕ) =
            count + 1 + (rawFrom rest []).length := by omega
        rw [hsum]
      · have hturn : countLineTurn file ⟨list, count⟩ =
            some (.error .overflow, ⟨list, count⟩) := by
          rw [countLineTurn, hline]
          dsimp only
          rw [get_bind, if_neg hroom]
          rfl
        have hmax : count = intMax := by omega
        rw [hraw, length_cons, if_neg (by omega), ← hmax]
        exact bind_of_error hturn

/-- **The second loop** fills the slots with the names. -/
theorem copyLine_loop {k : ℕ} {file : CString} (hk : file.length < k)
    {before hole : List (Option CString)} (hhole : hole.length = (rawFrom file []).length)
    {count : ℤ} :
    Prog.loop copyLineTurn k (file, before.length) ⟨before ++ hole, count⟩ =
      some (.ok (), ⟨before ++ (rawFrom file []).map fun l => some (lineName l), count⟩) := by
  induction k generalizing file before hole with
  | zero => exact absurd hk (Nat.not_lt_zero _)
  | succ k ih =>
    rcases getline_cases file with ⟨hline, hraw⟩ | ⟨l, rest, hline, hraw, hlen⟩
    · rw [hraw] at hhole ⊢
      obtain rfl := length_eq_zero_iff.mp hhole
      refine loop_done ?_
      simp only [copyLineTurn, hline]
      rfl
    · rw [hraw] at hhole ⊢
      obtain ⟨slot, hole, rfl⟩ := exists_cons_of_length_eq_add_one hhole
      have hturn : copyLineTurn (file, before.length) ⟨before ++ slot :: hole, count⟩ =
          some (.ok (.inl (rest, (before ++ [some (lineName l)]).length)),
            ⟨before ++ [some (lineName l)] ++ hole, count⟩) := by
        simp only [copyLineTurn, hline]
        rw [get_bind, if_pos (by simp), modify_bind]
        simp [lineName, pure]
      rw [loop_next hturn, ih (by omega) (Nat.succ.inj hhole)]
      simp

/-- The names in the list of a file. -/
def listNames (content : CString) : List CString := (rawFrom content []).map lineName

/-- **The list is read** if the lines can be counted. -/
theorem dccGssapiObtainList_eq (qsort : List CString → List CString) (content : CString) :
    dccGssapiObtainList qsort content {} =
      if ((listNames content).length : ℤ) ≤ intMax then
        some (.ok (), ⟨(qsort (listNames content)).map some, (listNames content).length⟩)
      else some (.error .overflow, ⟨[], intMax⟩) := by
  have hcount := @countLine_loop (content.length + 1) content (Nat.lt_succ_self _) [] 0 (by decide)
  rw [listNames, length_map]
  rw [Int.zero_add] at hcount
  split
  · case isTrue hle =>
    rw [if_pos hle] at hcount
    rw [dccGssapiObtainList, bind_of_ok hcount, modify_bind]
    have hcopy := @copyLine_loop (content.length + 1) content (Nat.lt_succ_self _) []
      (List.replicate (rawFrom content []).length none) (by simp) ((rawFrom content []).length)
    rw [Int.toNat_natCast]
    refine (bind_of_ok hcopy).trans ?_
    have hnames : ((rawFrom content []).map fun l => some (lineName l)).mapM id =
        some ((rawFrom content []).map lineName) := by
      rw [mapM_map]
      exact mapM_pure
    rw [get_bind, nil_append, hnames]
    rfl
  · case isFalse hgt =>
    rw [if_neg hgt] at hcount
    exact bind_of_error hcount

/-! ### The search -/

instance : Std.OrientedCmp strcmp :=
  inferInstanceAs (Std.OrientedCmp (compare : CString → CString → Ordering))

instance : Std.TransCmp strcmp :=
  inferInstanceAs (Std.TransCmp (compare : CString → CString → Ordering))

instance : Std.LawfulEqCmp strcmp :=
  inferInstanceAs (Std.LawfulEqCmp (compare : CString → CString → Ordering))

/-- The variables after the list was read. -/
def PrincipalList.ofNames (names : List CString) : PrincipalList :=
  ⟨names.map some, names.length⟩

section Search

variable {names : List CString} {key : CString} {bottom top : ℤ}

/-- One comparison, with the element in the middle of the window. -/
theorem searchTurn_eq (hbottom : 0 ≤ bottom) (hle : bottom ≤ top) (htop : top < names.length)
    (hsum : bottom + top ≤ intMax) :
    ∃ (m : ℕ) (name : CString), names[m]? = some name ∧ bottom ≤ m ∧ (m : ℤ) ≤ top ∧
      (bottom < top → (m : ℤ) < top) ∧
      searchTurn key (bottom, top) (.ofNames names) = some (.ok (match strcmp key name with
        | .lt => .inl (bottom, m - 1)
        | .gt => .inl (m + 1, top)
        | .eq => .inr m), .ofNames names) := by
  have hdiv : (bottom + top).tdiv 2 = (bottom + top) / 2 :=
    Int.tdiv_eq_ediv_of_nonneg (by omega)
  obtain ⟨m, hm⟩ : ∃ m : ℕ, (m : ℤ) = (bottom + top) / 2 := ⟨((bottom + top) / 2).toNat, by omega⟩
  have hmlt : m < names.length := by omega
  refine ⟨m, names[m], getElem?_eq_getElem hmlt, by omega, by omega, by omega, ?_⟩
  have hslot : (PrincipalList.ofNames names).list[m]? = some (some names[m]) := by
    simp [PrincipalList.ofNames, hmlt]
  simp only [searchTurn, if_pos hle, if_pos hsum, hdiv, ← hm, Int.toNat_natCast]
  rw [get_bind, hslot]
  dsimp only
  cases strcmp key names[m] <;> rfl

/-- **The search in a list that is not too long** finds the key if it is there. -/
theorem search_loop (hsorted : SortedBy strcmp names) (hlen : names.length ≤ 2 ^ 30)
    (hwindow : Window names key bottom top) (hends : bottom ≤ top + 1) {k : ℕ}
    (hk : top - bottom + 1 < k) :
    ∃ r, Prog.loop (searchTurn key) k (bottom, top) (.ofNames names) =
      some (.ok r, .ofNames names) ∧ (0 ≤ r ↔ key ∈ names) := by
  induction k generalizing bottom top with
  | zero => omega
  | succ k ih =>
    have hbottom := hwindow.bottom_nonneg
    have htop := hwindow.top_lt
    by_cases hle : bottom ≤ top
    · obtain ⟨m, name, hm, hlow, hhigh, -, hturn⟩ :=
        @searchTurn_eq names key bottom top hbottom hle htop (by unfold intMax; omega)
      cases hcmp : strcmp key name with
      | lt =>
        rw [hcmp] at hturn
        rw [loop_next hturn]
        exact ih (hwindow.lower hsorted hm hcmp) (by omega) (by omega)
      | gt =>
        rw [hcmp] at hturn
        rw [loop_next hturn]
        exact ih (hwindow.upper hsorted hm hcmp) (by omega) (by omega)
      | eq =>
        rw [hcmp] at hturn
        obtain rfl := Std.LawfulEqCmp.eq_of_compare hcmp
        exact ⟨m, loop_done hturn, iff_of_true (by omega) (mem_of_getElem? hm)⟩
    · refine ⟨-1, loop_done ?_, iff_of_false (by omega) (hwindow.not_mem (by omega))⟩
      simp only [searchTurn, if_neg hle]
      rfl

/-- **The search in a longer list** does not come to an end if the key is greater than
everything in it: the ends of the window become too large to be added. -/
theorem search_overflows (hgt : ∀ name ∈ names, strcmp key name = .gt)
    (hlen : 2 ^ 30 < names.length) (hbottom : 0 ≤ bottom) (hle : bottom < names.length) {k : ℕ}
    (hk : names.length - bottom ≤ k) :
    Prog.loop (searchTurn key) k (bottom, names.length - 1) (.ofNames names) =
      some (.error .overflow, .ofNames names) := by
  induction k generalizing bottom with
  | zero => omega
  | succ k ih =>
    by_cases hsum : bottom + (names.length - 1) ≤ intMax
    · obtain ⟨m, name, hm, hlow, hhigh, hlast, hturn⟩ :=
        @searchTurn_eq names key bottom (names.length - 1) hbottom (by omega) (by omega) hsum
      rw [hgt name (mem_of_getElem? hm)] at hturn
      rw [loop_next hturn]
      unfold intMax at hsum
      exact ih (by omega) (by omega) (by omega)
    · refine bind_of_error ?_
      simp only [searchTurn, if_neg hsum, if_pos (show bottom ≤ names.length - 1 by omega)]
      rfl

end Search

/-! ### The answer -/

/-- What is assumed of `qsort`: it sorts. -/
structure Sorts (qsort : List CString → List CString) : Prop where
  perm : ∀ l, (qsort l).Perm l
  sorted : ∀ l, SortedBy strcmp (qsort l)

/-- The answer is right: the search ends, and a client is refused in blacklist mode, and
admitted in whitelist mode, exactly if the name up to the first `@` is on the list. -/
def Decides (lines : List CString) (st : PrincipalList) : Prop :=
  ∀ principal : CString, principal.NulFree → ∀ optBlacklistEnabled, ∃ ret,
    dccGssapiCheckList optBlacklistEnabled 0 principal st = some (.ok ret, st) ∧
    if optBlacklistEnabled then ret ≠ 0 ↔ principal.takeWhile (· ≠ 64) ∈ lines
    else ret = 0 ↔ principal.takeWhile (· ≠ 64) ∈ lines

/-- What is kept of the lines of a file without NULs is all but the newlines. -/
theorem listNames_eq_fileLines {content : CString} (hnul : content.NulFree) :
    listNames content = fileLines content := by
  rw [listNames, fileLines, linesFrom_eq_map content not_mem_nil]
  refine map_congr_left fun l hl => ?_
  have hline : l.NulFree := fun b hb => hnul b (mem_of_mem_rawFrom content hl hb)
  rw [lineName, ofBuffer_eq_self hline]
  obtain ⟨t, ht, rfl | rfl⟩ := rawFrom_shape content not_mem_nil l hl
  · rw [stripNewline_eq_self ht, takeWhile_eq_self_iff]
    exact fun b hb => decide_eq_true (ne_of_mem_of_not_mem hb ht)
  · rw [stripNewline_append, takeWhile_append_of_pos]
    · simp
    · exact fun b hb => decide_eq_true (ne_of_mem_of_not_mem hb ht)

section Answer

variable {names : List CString}

theorem dccGssapiBinSearch_eq (key : CString) : dccGssapiBinSearch key (.ofNames names) =
    Prog.loop (searchTurn key) (names.length + 1) (0, names.length - 1) (.ofNames names) := rfl

theorem decides_of_le (hsorted : SortedBy strcmp names) (hlen : names.length ≤ 2 ^ 30) :
    Decides names (.ofNames names) := by
  intro principal _ optBlacklistEnabled
  have hfuel : (names.length : ℤ) - 1 - 0 + 1 < (names.length + 1 : ℕ) := by omega
  obtain ⟨location, hrun, hlocation⟩ := search_loop hsorted hlen
    (window_whole names (principal.takeWhile (· ≠ 64))) (by omega) hfuel
  rw [← dccGssapiBinSearch_eq] at hrun
  rw [dccGssapiCheckList, bind_of_ok hrun, ← hlocation]
  cases optBlacklistEnabled with
  | true =>
    by_cases hfound : location ≥ 0
    · exact ⟨exitGssapiFailed, by simp [hfound], by simp [exitGssapiFailed, hfound]⟩
    · exact ⟨0, by simp [hfound], by simpa using hfound⟩
  | false =>
    by_cases hfound : location ≥ 0
    · exact ⟨0, by simp [hfound], by simpa using hfound⟩
    · exact ⟨exitGssapiFailed, by simp [hfound], by simpa [exitGssapiFailed] using hfound⟩

/-- Enough of the greatest byte is greater than any other string. -/
theorem strcmp_replicate {name : CString} {n : ℕ} (h : name.length < n) :
    strcmp (List.replicate n 255) name = .gt := by
  have hbyte : ∀ b : UInt8, (compare 255 b).then .gt = .gt := forall_byte (by decide +kernel)
  induction n generalizing name with
  | zero => omega
  | succ n ih =>
    cases name with
    | nil => rfl
    | cons b name =>
      have hrest : List.compareLex compare (List.replicate n 255) name = .gt :=
        ih (Nat.lt_of_succ_lt_succ h)
      show List.compareLex compare (255 :: List.replicate n 255) (b :: name) = .gt
      rw [List.compareLex_cons_cons, hrest, hbyte]

/-- There is a name that is greater than those in the list. -/
theorem exists_greater (names : List CString) : ∃ key : CString, key.NulFree ∧ 64 ∉ key ∧
    ∀ name ∈ names, strcmp key name = .gt := by
  refine ⟨List.replicate (names.flatten.length + 1) 255, fun b hb => ?_, fun hat => ?_,
    fun name hname => ?_⟩
  · rw [eq_of_mem_replicate hb]
    decide
  · exact absurd (eq_of_mem_replicate hat) (by decide)
  · exact strcmp_replicate (Nat.lt_succ_of_le (sublist_flatten_of_mem hname).length_le)

theorem not_decides_of_lt {lines : List CString} (hlen : 2 ^ 30 < names.length) :
    ¬Decides lines (.ofNames names) := by
  intro h
  obtain ⟨key, hnul, hat, hgt⟩ := exists_greater names
  obtain ⟨ret, hrun, -⟩ := h key hnul true
  have hwhole : key.takeWhile (· ≠ 64) = key :=
    takeWhile_eq_self_iff.mpr fun b hb => decide_eq_true (ne_of_mem_of_not_mem hb hat)
  have hsearch : dccGssapiBinSearch key (.ofNames names) =
      some (.error .overflow, .ofNames names) := by
    rw [dccGssapiBinSearch_eq]
    exact search_overflows hgt hlen (Int.le_refl 0) (by omega) (by omega)
  rw [dccGssapiCheckList, hwhole, bind_of_error hsearch] at hrun
  cases hrun

end Answer

/-- **The answer is right for all clients exactly if there are at most `2 ^ 30` lines.** -/
theorem decides_iff {qsort : List CString → List CString} (hqsort : Sorts qsort)
    {content : CString} (hnul : content.NulFree) {st : PrincipalList}
    (hobtain : dccGssapiObtainList qsort content {} = some (.ok (), st)) :
    Decides (fileLines content) st ↔ (fileLines content).length ≤ 2 ^ 30 := by
  rw [dccGssapiObtainList_eq, listNames_eq_fileLines hnul] at hobtain
  split at hobtain
  · have hlen := (hqsort.perm (fileLines content)).length_eq
    have hmem : Decides (fileLines content) st ↔ Decides (qsort (fileLines content)) st := by
      simp only [Decides, (hqsort.perm (fileLines content)).mem_iff]
    obtain rfl : PrincipalList.ofNames (qsort (fileLines content)) = st := by
      simpa [PrincipalList.ofNames, hlen] using hobtain
    rw [hmem, ← hlen]
    refine ⟨fun h => ?_, decides_of_le (hqsort.sorted _)⟩
    by_contra hgt
    exact not_decides_of_lt (Nat.lt_of_not_le hgt) h
  · cases hobtain

/-- The order of names. -/
def NameLE (a b : CString) : Prop := strcmp a b ≠ .gt
deriving Decidable

instance : Std.Total NameLE where
  total a b := by
    have hswap : strcmp b a = (strcmp a b).swap := Std.OrientedCmp.eq_swap
    unfold NameLE
    rw [hswap]
    cases strcmp a b <;> simp

instance : IsTrans CString NameLE where
  trans _ _ _ hab hbc :=
    Ordering.isLE_iff_ne_gt.mp
      (Std.TransCmp.isLE_trans (Ordering.isLE_iff_ne_gt.mpr hab) (Ordering.isLE_iff_ne_gt.mpr hbc))

/-- A `qsort`. -/
def sortNames (l : List CString) : List CString := l.insertionSort NameLE

theorem sorts_sortNames : Sorts sortNames where
  perm l := perm_insertionSort NameLE l
  sorted l := pairwise_insertionSort NameLE l

theorem obtain_two : dccGssapiObtainList sortNames (lit "root\nalice") {} =
    some (.ok (), .ofNames [lit "alice", lit "root"]) := by
  rw [dccGssapiObtainList_eq]
  decide +kernel

theorem decides_iff_two :
    Decides (fileLines (lit "root\nalice")) (.ofNames [lit "alice", lit "root"]) :=
  (decides_iff sorts_sortNames (by decide) obtain_two).mpr (by decide)

/-- So many empty lines. -/
theorem listNames_newlines (n : ℕ) : listNames (List.replicate n 10) = List.replicate n [] := by
  have hraw : rawFrom (List.replicate n 10) [] = List.replicate n [10] := by
    induction n with
    | zero => rfl
    | succ n ih =>
      rw [replicate_succ, rawFrom, if_pos rfl, ih]
      rfl
  rw [listNames, hraw, map_replicate]
  rfl

/-- In a list of more than `2 ^ 30` empty names, the search for another one fails. -/
theorem check_newlines {n : ℕ} (hlen : 2 ^ 30 < n) (hmax : n ≤ intMax) :
    ∃ st, dccGssapiObtainList sortNames (List.replicate n 10) {} = some (.ok (), st) ∧
      dccGssapiCheckList true 0 (lit "a") st = some (.error .overflow, st) := by
  have hsort : sortNames (List.replicate n []) = List.replicate n [] :=
    perm_replicate.mp (sorts_sortNames.perm _)
  refine ⟨.ofNames (List.replicate n []), ?_, ?_⟩
  · rw [dccGssapiObtainList_eq, listNames_newlines, length_replicate, if_pos hmax, hsort,
      PrincipalList.ofNames, length_replicate]
  · refine bind_of_error ?_
    rw [dccGssapiBinSearch_eq]
    refine search_overflows (fun name hname => ?_) (by simpa using hlen) (Int.le_refl 0) ?_ ?_
    · rw [eq_of_mem_replicate hname]
      rfl
    · rw [length_replicate]
      omega
    · rw [length_replicate]
      omega

/-- A name cannot be looked up in a file of `2 ^ 30 + 1` empty lines. -/
theorem check_overflows :
    ∃ st, dccGssapiObtainList sortNames (List.replicate (2 ^ 30 + 1) 10) {} = some (.ok (), st) ∧
      dccGssapiCheckList true 0 (lit "a") st = some (.error .overflow, st) :=
  check_newlines (by decide) (by decide)

end Distcc
