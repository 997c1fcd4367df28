import Distcc.Base.Buffer
import Distcc.Base.Cancel
import Distcc.Base.Tree
import Distcc.Request.Client

/-!
# Absolute paths

The model of `dcc_abspath` of `src/util.c`. The path is put into a buffer, behind the current
directory if it is relative, and as long as there is a `/../` in it, this is taken out together
with what stands in front of it up to the slash before.

A path with a slash in front is a sequence of components with a slash before each of them
(`Abspath.slashed`). On these, a turn of the loop takes away a component of two dots and
the one before it, whatever that is (`Abspath.turn_up`), so that an empty component and
one of a single dot count as components (`Abspath.dropDotDots_eq`). The path that is
meant counts only names. The two agree if every name that is to go still goes
(`Abspath.abspath_iff`).
-/

namespace Distcc.Abspath

open CString List Option

/-! ### The model -/

/-- The `/../` at `p` is taken out with what is in front of it, from the slash on that is the
last one before `p`, if there is one. The text is copied from the left to the right. -/
def takeOut (buf : CString) (p : ℕ) : CString × ℕ :=
  let slash := p - ((strrchr 47 (buf.take p)).getD []).length
  (buf.take slash ++ buf.drop (p + 3), slash)

/-- A turn of the loop, with the place where the next one starts. -/
def turn (buf : CString) (p : ℕ) : Option (CString × ℕ) :=
  (strstr (lit "/../") (buf.drop p)).map fun i => takeOut buf (p + i)

/-- The loop, with so many turns at most. -/
def dropDotDots : ℕ → CString → ℕ → CString
  | 0, buf, _ => buf
  | turns + 1, buf, p =>
    match turn buf p with
    | none => buf
    | some (buf, slash) => dropDotDots turns buf slash

/-- `dcc_abspath`, in the current directory `cwd`. If the path is too long for the buffer, the
program exits. Every turn of the loop makes the text shorter. -/
def dccAbspath (cwd path : CString) (pathLen : ℤ) : Option CString :=
  let start := if path.head? = some 47 then [] else cwd ++ [47]
  let pathLen := if pathLen ≤ 0 then path.length else pathLen.toNat
  let skip := if 2 ≤ pathLen ∧ startsWith (lit "./") path then 2 else 0
  if start.length + (pathLen - skip) ≥ maxPathLen then none
  else
    let buf := start ++ (path.drop skip).take (pathLen - skip)
    some (dropDotDots buf.length buf (start.length - 1))

/-! ### What is asked of it -/

/-- A component that goes up. -/
def isUp (c : CString) : Bool := c = lit ".."

/-- Where the components lead: each `..` cancels the one before it, and at the root it is
dropped. -/
def resolve (cs : List CString) : List CString := settle isUp isName [] cs

/-- The path taken relative to the current directory. -/
def relativeTo (cwd path : CString) : CString :=
  if path.head? = some 47 then path else cwd ++ 47 :: path

/-- The current directory has a name without links and dots. -/
def IsDirectory (cwd : CString) : Prop :=
  ∃ names : Loc, (∀ c ∈ names, isName c = true ∧ 47 ∉ c) ∧ cwd = render names

/-- `./` at the beginning is left out. -/
def dropDotSlash (path : CString) : CString :=
  if startsWith (lit "./") path then path.drop 2 else path

/-- What is put into the buffer. -/
def bufferText (cwd path : CString) : CString :=
  if path.head? = some 47 then path else cwd ++ 47 :: dropDotSlash path

/-- **Nothing but names is cancelled in vain**: each name that the components behind it cancel
is cancelled also if the empty components and those of one dot count, except that a `..` at the
end cancels names only. -/
def Harmless (cs : List CString) : Prop :=
  ∀ pre c rest last, cs = pre ++ c :: (rest ++ [last]) → isName c = true →
    Exhausts isUp isName 0 (rest ++ [last]) →
      StillCancelled isUp (fun c => !isUp c) isName rest last

/-! ### Components with slashes -/

/-- A slash in front of each component. -/
def slashed (cs : List CString) : CString := cs.flatMap fun c => 47 :: c

theorem slashed_append (cs ds : List CString) : slashed (cs ++ ds) = slashed cs ++ slashed ds :=
  flatMap_append

theorem slashed_cons (c : CString) (cs : List CString) :
    slashed (c :: cs) = 47 :: c ++ slashed cs := rfl

theorem slashed_comps (s : CString) : slashed (comps s) = 47 :: s := by
  induction s with
  | nil => rfl
  | cons b s ih =>
    rw [comps]
    split
    case isTrue hb => rw [slashed_cons, ih, hb]; rfl
    case isFalse hb =>
      obtain ⟨c, cs, hcs⟩ := exists_cons_of_ne_nil (comps_ne_nil s)
      rw [hcs, slashed_cons] at ih
      rw [hcs, slashed_cons]
      exact congrArg (47 :: b :: ·) (List.cons.inj ih).2

theorem length_le_slashed (cs : List CString) : cs.length ≤ (slashed cs).length := by
  induction cs with
  | nil => exact le_rfl
  | cons c cs ih =>
    rw [slashed_cons, length_append, length_cons, length_cons]
    omega

/-! ### Looking for two dots -/

section Search

variable {c needle hay : CString}

/-- What has no slash in it is skipped. -/
theorem strstr_append (hc : 47 ∉ c) :
    strstr (47 :: needle) (c ++ hay) = (strstr (47 :: needle) hay).map (· + c.length) := by
  induction c with
  | nil => exact Option.map_id.symm ▸ rfl
  | cons b c ih =>
    obtain ⟨hb, hc⟩ := not_or.mp (mem_cons.not.mp hc)
    have hstart : ¬(47 :: needle).isPrefixOf (b :: (c ++ hay)) = true := fun h =>
      hb (cons_prefix_cons.mp (List.isPrefixOf_iff_prefix.mp h)).1
    rw [cons_append, strstr, if_neg hstart, ih hc, Option.map_map]
    rfl

theorem strstr_eq_none_iff (hne : needle ≠ []) : strstr needle hay = none ↔ ¬needle <:+: hay := by
  induction hay with
  | nil =>
    rw [infix_nil]
    exact iff_of_true (if_neg hne) hne
  | cons b hay ih =>
    rw [infix_cons_iff, not_or, ← ih, strstr]
    split
    case isTrue h =>
      exact iff_of_false (some_ne_none _) fun hn => hn.1 (List.isPrefixOf_iff_prefix.mp h)
    case isFalse h =>
      rw [map_eq_none_iff, and_iff_right fun hp => h (List.isPrefixOf_iff_prefix.mpr hp)]

/-- The last component is no match, whatever it is. -/
theorem strstr_last (hc : 47 ∉ c) : strstr (lit "/../") (47 :: c) = none := by
  have hstart : ¬(lit "/../").isPrefixOf (47 :: c) = true := fun h => by
    obtain ⟨t, ht⟩ := isPrefixOf_iff_prefix.mp h
    have hmem : (47 : UInt8) ∈ lit "../" ++ t := mem_append_left _ (by decide)
    exact hc ((List.cons.inj ht).2 ▸ hmem)
  have hrest := @strstr_append c (lit "../") [] hc
  rw [append_nil] at hrest
  rw [strstr, if_neg hstart]
  exact congrArg (Option.map _) hrest

/-- A component goes up to the slash behind it. -/
theorem takeWhile_slash (hc : 47 ∉ c) {t : CString} :
    (c ++ 47 :: t).takeWhile (· ∉ [(47 : UInt8)]) = c := by
  refine (span_free (fun b hb hb' => ?_) fun b hb => ?_).1
  · obtain rfl := mem_singleton.mp hb'
    exact hc hb
  · exact mem_singleton.mpr (some.inj hb).symm

/-- A component before another one is a match if it is two dots. -/
theorem strstr_component (hc : 47 ∉ c) (t : CString) :
    strstr (lit "/../") (47 :: c ++ 47 :: t) =
      if c = lit ".." then some 0
      else (strstr (lit "/../") (47 :: t)).map (· + (c.length + 1)) := by
  split
  case isTrue h => rw [h]; rfl
  case isFalse h =>
    have hstart : ¬(lit "/../").isPrefixOf (47 :: (c ++ 47 :: t)) = true := fun hp => by
      obtain ⟨u, hu⟩ := isPrefixOf_iff_prefix.mp hp
      have hcut : (lit ".." ++ 47 :: u).takeWhile (· ∉ [47]) =
          (c ++ 47 :: t).takeWhile (· ∉ [47]) := congrArg _ (List.cons.inj hu).2
      rw [takeWhile_slash (by decide), takeWhile_slash hc] at hcut
      exact h hcut.symm
    rw [cons_append, strstr, if_neg hstart]
    refine (congrArg (Option.map _) (@strstr_append c (lit "../") (47 :: t) hc)).trans ?_
    rw [Option.map_map]
    rfl

end Search

/-! ### The loop -/

section Loop

variable {c : CString} {pre rest : List CString}

theorem drop_slashed (pre rest : List CString) :
    (slashed (pre ++ rest)).drop (slashed pre).length = slashed rest := by
  rw [slashed_append, drop_left]

theorem exists_slash (hrest : rest ≠ []) : ∃ t, slashed rest = 47 :: t := by
  obtain ⟨c, cs, rfl⟩ := exists_cons_of_ne_nil hrest
  exact ⟨_, rfl⟩

theorem turn_last (hc : 47 ∉ c) (pre : List CString) :
    turn (slashed (pre ++ [c])) (slashed pre).length = none := by
  have hlast : slashed [c] = 47 :: c := append_nil _
  rw [turn, drop_slashed, hlast, strstr_last hc]
  rfl

/-- Other components are passed by. -/
theorem turn_skip (hc : 47 ∉ c) (hup : c ≠ lit "..") (hrest : rest ≠ []) :
    turn (slashed (pre ++ c :: rest)) (slashed pre).length =
      turn (slashed (pre ++ c :: rest)) (slashed (pre ++ [c])).length := by
  obtain ⟨t, ht⟩ := exists_slash hrest
  have hskip : slashed (pre ++ c :: rest) = slashed ((pre ++ [c]) ++ rest) := by
    rw [append_assoc]
    rfl
  have hlength : (slashed (pre ++ [c])).length = (slashed pre).length + (c.length + 1) := by
    rw [slashed_append, length_append, slashed_cons]
    simp [slashed]
  have hfound : (slashed (pre ++ c :: rest)).drop (slashed (pre ++ [c])).length = 47 :: t := by
    rw [hskip, drop_slashed, ht]
  rw [turn, turn, drop_slashed, hfound, slashed_cons, ht, strstr_component hc, if_neg hup,
    Option.map_map]
  refine congrArg (Option.map · _) (funext fun i => congrArg (takeOut _) ?_)
  dsimp only
  omega

/-- **Two dots, and the component before them**, are taken out. -/
theorem turn_up (hpre : ∀ c ∈ pre, 47 ∉ c) (hrest : rest ≠ []) :
    turn (slashed (pre ++ lit ".." :: rest)) (slashed pre).length =
      some (slashed (pre.dropLast ++ rest), (slashed pre.dropLast).length) := by
  obtain ⟨t, ht⟩ := exists_slash hrest
  have hfound : strstr (lit "/../") (slashed (lit ".." :: rest)) = some 0 := by
    rw [slashed_cons, ht, strstr_component (by decide), if_pos rfl]
  have htake : (slashed (pre ++ lit ".." :: rest)).take (slashed pre).length = slashed pre := by
    rw [slashed_append, take_left]
  have hdrop : (slashed (pre ++ lit ".." :: rest)).drop ((slashed pre).length + 3) =
      slashed rest := by
    rw [← drop_drop, drop_slashed]
    rfl
  have hslash : (slashed pre).length - ((strrchr 47 (slashed pre)).getD []).length =
      (slashed pre.dropLast).length := by
    obtain rfl | ⟨init, d, rfl⟩ := eq_nil_or_concat' pre
    · rfl
    · have hd : 47 ∉ d := hpre d (by simp)
      rw [dropLast_concat, slashed_append]
      have hlast : slashed [d] = 47 :: d := append_nil _
      rw [hlast, strrchr_append_cons _ hd, getD_some, length_append, Nat.add_sub_cancel]
  have hkeep : (slashed (pre ++ lit ".." :: rest)).take (slashed pre.dropLast).length =
      slashed pre.dropLast := by
    obtain rfl | ⟨init, d, rfl⟩ := eq_nil_or_concat' pre
    · rfl
    · rw [dropLast_concat, slashed_append, slashed_append, append_assoc, take_left]
  rw [turn, drop_slashed, hfound, map_some, Nat.add_zero, takeOut, htake, hslash, hkeep,
    hdrop, slashed_append]

/-- **The loop on components**: those that go up take away the one before them, except for one
at the end. -/
theorem dropDotDots_eq {turns : ℕ} {last : CString} (hpre : ∀ c ∈ pre, 47 ∉ c)
    (hrest : ∀ c ∈ rest, 47 ∉ c) (hlast : 47 ∉ last) (hturns : rest.length ≤ turns) :
    dropDotDots turns (slashed (pre ++ (rest ++ [last]))) (slashed pre).length =
      slashed (settle isUp (fun c => !isUp c) pre rest ++ [last]) := by
  induction rest generalizing pre turns with
  | nil =>
    cases turns with
    | zero => rfl
    | succ turns =>
      rw [nil_append, dropDotDots, turn_last hlast pre]
      rfl
  | cons c rest ih =>
    obtain ⟨hc, hrest'⟩ := forall_mem_cons.mp hrest
    have hne : rest ++ [last] ≠ [] := by simp
    by_cases hup : c = lit ".."
    · obtain ⟨turns, rfl⟩ := Nat.exists_eq_add_of_le' (Nat.le_trans (Nat.le_add_left 1 _) hturns)
      subst hup
      rw [dropDotDots, cons_append, turn_up hpre hne]
      exact ih (fun d hd => hpre d (mem_of_mem_dropLast hd)) hrest'
        (Nat.le_of_succ_le_succ hturns)
    · have hskip : dropDotDots turns (slashed (pre ++ (c :: rest ++ [last]))) (slashed pre).length =
          dropDotDots turns (slashed (pre ++ [c] ++ (rest ++ [last])))
            (slashed (pre ++ [c])).length := by
        rw [append_assoc pre]
        cases turns with
        | zero => rfl
        | succ turns =>
          rw [dropDotDots, cons_append, turn_skip hc hup hne]
          rfl
      have hsettle : settle isUp (fun c => !isUp c) pre (c :: rest) =
          settle isUp (fun c => !isUp c) (pre ++ [c]) rest := by
        have hnot : isUp c = false := decide_eq_false hup
        simp only [settle, foldl_cons, hnot, Bool.false_eq_true, Bool.not_false, if_true,
          if_false]
      rw [hskip, hsettle]
      refine ih (fun d hd => ?_) hrest' (Nat.le_of_succ_le hturns)
      obtain hd | hd := mem_append.mp hd
      · exact hpre d hd
      · exact mem_singleton.mp hd ▸ hc

end Loop

/-! ### Where the path leads -/

section Resolve

variable {c cwd path last : CString} {pre rest cs : List CString}

/-- An empty component, or one dot, leads nowhere. -/
theorem settle_blank (hup : isUp c = false) (hname : isName c = false) (left cs : List CString) :
    settle isUp isName left (c :: cs) = settle isUp isName left cs := by
  simp only [settle, foldl_cons, hup, hname, Bool.false_eq_true, if_false]

theorem resolve_comps_slashed (hcs : ∀ c ∈ cs, 47 ∉ c) :
    resolve (comps (slashed cs)) = resolve cs := by
  have hcomps : comps (slashed cs) = [] :: cs := comps_flatMap_slash hcs
  rw [hcomps, resolve, settle_blank rfl rfl]
  rfl

theorem settle_dropDotSlash (left : List CString) (path : CString) :
    settle isUp isName left (comps (dropDotSlash path)) = settle isUp isName left (comps path) := by
  unfold dropDotSlash
  split
  case isTrue h =>
    obtain ⟨t, rfl⟩ := startsWith_iff.mp h
    have hcomps : comps (lit "./" ++ t) = lit "." :: comps t := comps_append_slash (lit ".") t
    rw [hcomps, settle_blank rfl rfl]
    rfl
  case isFalse => rfl

/-- The text has two dots between slashes only at its end. -/
theorem strstr_slashed (hcs : ∀ c ∈ cs, 47 ∉ c ∧ c ≠ lit "..") (hlast : 47 ∉ last) :
    strstr (lit "/../") (slashed (cs ++ [last])) = none := by
  induction cs with
  | nil =>
    have heq : slashed [last] = 47 :: last := append_nil _
    rw [nil_append, heq, strstr_last hlast]
  | cons c cs ih =>
    obtain ⟨⟨hc, hup⟩, hcs⟩ := forall_mem_cons.mp hcs
    obtain ⟨t, ht⟩ := @exists_slash (cs ++ [last]) (by simp)
    have hih := ih hcs
    rw [ht] at hih
    rw [cons_append, slashed_cons, ht, strstr_component hc, if_neg hup, hih, map_none]

/-- **What is put into the buffer**, as components: those of the current directory, if it is
needed, none of which goes up, and those of the path. -/
theorem bufferText_eq (hcwd : IsDirectory cwd) (path : CString) :
    ∃ pre rest last, (∀ c ∈ pre, 47 ∉ c ∧ isUp c = false) ∧ (∀ c ∈ rest, 47 ∉ c) ∧ 47 ∉ last ∧
      bufferText cwd path = slashed (pre ++ (rest ++ [last])) ∧
      (slashed pre).length = (if path.head? = some 47 then [] else cwd ++ [47]).length - 1 ∧
      resolve (comps (relativeTo cwd path)) = resolve (pre ++ (rest ++ [last])) := by
  have hlast (s : CString) : ∃ rest last, comps s = rest ++ [last] ∧ (∀ c ∈ rest, 47 ∉ c) ∧
      47 ∉ last := by
    obtain hnil | ⟨rest, last, hcomps⟩ := eq_nil_or_concat' (comps s)
    · exact absurd hnil (comps_ne_nil s)
    · refine ⟨rest, last, hcomps, fun c hc => ?_, ?_⟩
      · exact not_mem_of_mem_comps (hcomps ▸ mem_append_left _ hc)
      · exact not_mem_of_mem_comps (hcomps ▸ mem_append_right _ (mem_singleton_self _))
  by_cases habs : path.head? = some 47
  · obtain ⟨p, rfl⟩ : ∃ p, path = 47 :: p := by
      cases path with
      | nil => cases habs
      | cons b p => exact ⟨p, congrArg (· :: p) (some.inj habs)⟩
    obtain ⟨rest, last, hcomps, hrest, hlast⟩ := hlast p
    refine ⟨[], rest, last, by simp, hrest, hlast, ?_, ?_, ?_⟩
    · rw [bufferText, if_pos habs, nil_append, ← hcomps, slashed_comps]
    · rw [if_pos habs]
      rfl
    · rw [relativeTo, if_pos habs, nil_append, ← hcomps, resolve, resolve]
      exact settle_blank rfl rfl [] (comps p)
  · obtain ⟨names, hnames, rfl⟩ := hcwd
    obtain ⟨rest, last, hcomps, hrest, hlast⟩ := hlast (dropDotSlash path)
    obtain ⟨pre, hpre, hrender⟩ : ∃ pre : List CString, (∀ c ∈ pre, 47 ∉ c ∧ isUp c = false) ∧
        render names = slashed pre := by
      by_cases hroot : names = []
      · exact ⟨[[]], by decide, if_pos hroot⟩
      · refine ⟨names, fun c hc => ⟨(hnames c hc).2, decide_eq_false fun hup => ?_⟩, if_neg hroot⟩
        exact absurd (hnames c hc).1 (by rw [hup]; decide)
    refine ⟨pre, rest, last, hpre, hrest, hlast, ?_, ?_, ?_⟩
    · rw [bufferText, if_neg habs, slashed_append, ← hcomps, slashed_comps, hrender]
    · rw [if_neg habs, hrender, length_append]
      rfl
    · rw [relativeTo, if_neg habs, comps_append_slash, hrender, resolve, settle_append,
        ← settle_dropDotSlash, ← settle_append, hcomps]
      have hcwd : comps (slashed pre) = [] :: pre := comps_flatMap_slash fun c hc => (hpre c hc).1
      rw [hcwd, cons_append, settle_blank rfl rfl]
      rfl

/-- What is left of the path, if `./` is skipped. -/
theorem drop_skip (path : CString) :
    path.drop (if 2 ≤ path.length ∧ startsWith (lit "./") path = true then 2 else 0) =
      dropDotSlash path := by
  unfold dropDotSlash
  by_cases h : startsWith (lit "./") path = true
  · obtain ⟨t, rfl⟩ := startsWith_iff.mp h
    rw [if_pos ⟨by simp [lit], h⟩, if_pos h]
  · rw [if_neg fun hboth => h hboth.2, if_neg h]
    rfl

theorem start_append (cwd path : CString) :
    (if path.head? = some 47 then [] else cwd ++ [47]) ++ dropDotSlash path =
      bufferText cwd path := by
  unfold bufferText
  split
  case isTrue habs =>
    rw [nil_append, dropDotSlash, if_neg]
    rintro hstart
    obtain ⟨t, rfl⟩ := startsWith_iff.mp hstart
    exact absurd habs (by simp [lit])
  case isFalse => rw [append_assoc]; rfl

theorem dccAbspath_eq (hfits : (bufferText cwd path).length < maxPathLen) :
    dccAbspath cwd path 0 = some (dropDotDots (bufferText cwd path).length (bufferText cwd path)
      ((if path.head? = some 47 then [] else cwd ++ [47]).length - 1)) := by
  rw [← start_append, ← drop_skip] at hfits ⊢
  rw [length_append, length_drop] at hfits
  rw [dccAbspath, if_pos le_rfl]
  dsimp only
  rw [if_neg (Nat.not_le.mpr hfits), ← length_drop, take_length]

/-- The empty component in front makes no difference. -/
theorem harmless_cons_iff {words : List CString} : Harmless ([] :: (words ++ [last])) ↔
      ∀ pre c rest, words = pre ++ c :: rest → isName c = true →
        Exhausts isUp isName 0 (rest ++ [last]) →
          StillCancelled isUp (fun c => !isUp c) isName rest last := by
  constructor
  · rintro h pre c rest rfl
    refine h ([] :: pre) c rest last ?_
    rw [append_assoc]
    rfl
  · intro h pre c rest last' heq hname
    cases pre with
    | nil =>
      obtain ⟨rfl, -⟩ := List.cons.inj heq
      exact absurd hname (by decide)
    | cons d pre =>
      have hwords : words ++ [last] = (pre ++ c :: rest) ++ [last'] := by
        rw [(List.cons.inj heq).2, append_assoc]
        rfl
      obtain ⟨rfl, hlast⟩ := append_inj' hwords rfl
      obtain rfl := singleton_inj.mp hlast
      exact h pre c rest rfl hname

/-- What the loop leaves: components without slashes, none of which goes up. -/
theorem mem_left (hpre : ∀ c ∈ pre, 47 ∉ c ∧ isUp c = false) (hrest : ∀ c ∈ rest, 47 ∉ c)
    (hc : c ∈ settle isUp (fun c => !isUp c) pre rest) : 47 ∉ c ∧ isUp c = false := by
  constructor
  · exact (mem_of_mem_settle hc).elim (fun h => (hpre c h).1) (hrest c)
  · have hcounts : (!isUp c) = true :=
      @counts_of_mem_settle _ isUp (fun c => !isUp c) c pre rest
        (fun d hd => by rw [(hpre d hd).2]; rfl) hc
    exact (Bool.not_eq_true' _).mp hcounts

/-- Where the result leads: what the loop left is settled as names, with the last component. -/
theorem resolve_left (hpre : ∀ c ∈ pre, 47 ∉ c ∧ isUp c = false)
    (hrest : ∀ c ∈ rest, 47 ∉ c) (hlast : 47 ∉ last) :
    resolve (comps (slashed (settle isUp (fun c => !isUp c) pre rest ++ [last]))) =
      settle isUp isName ((settle isUp (fun c => !isUp c) [] (pre ++ rest)).filter isName)
        [last] := by
  have hall : ∀ c ∈ settle isUp (fun c => !isUp c) pre rest ++ [last], 47 ∉ c := by
    intro c hc
    obtain hc | hc := mem_append.mp hc
    · exact (mem_left hpre hrest hc).1
    · exact mem_singleton.mp hc ▸ hlast
  have hstart : settle isUp (fun c => !isUp c) [] pre = pre := by
    rw [settle_of_not_up fun c hc => (hpre c hc).2, nil_append]
    exact filter_eq_self.mpr fun c hc => by rw [(hpre c hc).2]; rfl
  rw [resolve_comps_slashed hall, resolve, settle_append, settle_append, hstart,
    settle_of_not_up fun c hc => (mem_left hpre hrest hc).2, nil_append]

/-- **The absolute path is the one that is meant** exactly if nothing but names is cancelled in
vain. -/
theorem abspath_iff (hcwd : IsDirectory cwd)
    (hfits : (bufferText cwd path).length < maxPathLen) :
    (∃ r, dccAbspath cwd path 0 = some r ∧ r.head? = some 47 ∧ ¬lit "/../" <:+: r ∧
        resolve (comps r) = resolve (comps (relativeTo cwd path))) ↔
      Harmless (comps (bufferText cwd path)) := by
  obtain ⟨pre, rest, last, hpre, hrest, hlast, htext, hstart, hresolve⟩ := bufferText_eq hcwd path
  have hslash : ∀ c ∈ pre ++ (rest ++ [last]), 47 ∉ c := by
    simp only [mem_append, mem_singleton]
    rintro c (hc | hc | rfl)
    exacts [(hpre c hc).1, hrest c hc, hlast]
  have hturns : rest.length ≤ (bufferText cwd path).length := by
    rw [htext]
    refine Nat.le_trans ?_ (length_le_slashed _)
    simp only [length_append]
    omega
  have hrun : dccAbspath cwd path 0 =
      some (slashed (settle isUp (fun c => !isUp c) pre rest ++ [last])) := by
    rw [dccAbspath_eq hfits, ← hstart]
    nth_rewrite 2 [htext]
    rw [dropDotDots_eq (fun c hc => (hpre c hc).1) hrest hlast hturns]
  -- The first two properties always hold, and the third one is about the names that are left.
  have hnone : ¬lit "/../" <:+: slashed (settle isUp (fun c => !isUp c) pre rest ++ [last]) := by
    refine (strstr_eq_none_iff (by decide)).mp (strstr_slashed (fun c hc => ?_) hlast)
    obtain ⟨hc, hup⟩ := mem_left hpre hrest hc
    exact ⟨hc, of_decide_eq_false hup⟩
  have hcomps : comps (bufferText cwd path) = [] :: ((pre ++ rest) ++ [last]) := by
    rw [htext, append_assoc]
    exact comps_flatMap_slash hslash
  have hdisj (c : CString) (hc : isUp c = true) : (!isUp c) = false := by rw [hc]; rfl
  have hnames (c : CString) (hc : isName c = true) : (!isUp c) = true := by
    rw [Bool.not_eq_true', isUp]
    refine decide_eq_false ?_
    rintro rfl
    exact absurd hc (by decide)
  rw [hcomps, harmless_cons_iff, ← settle_names_iff hdisj hnames, ← resolve_left hpre hrest hlast,
    append_assoc, hresolve]
  constructor
  · rintro ⟨r, hr, -, -, heq⟩
    obtain rfl := some.inj (hrun.symm.trans hr)
    exact heq
  · intro heq
    obtain ⟨t, ht⟩ := @exists_slash (settle isUp (fun c => !isUp c) pre rest ++ [last]) (by simp)
    exact ⟨_, hrun, by rw [ht]; rfl, hnone, heq⟩

end Resolve

/-! ### Two paths -/

theorem abspath_iff_sibling :
    ∃ r, dccAbspath (lit "/home") (lit "./a/../b") 0 = some r ∧ r.head? = some 47 ∧
      ¬lit "/../" <:+: r ∧
        resolve (comps r) = resolve (comps (relativeTo (lit "/home") (lit "./a/../b"))) := by
  have hcwd : IsDirectory (lit "/home") := ⟨[lit "home"], by decide, by decide⟩
  refine (abspath_iff hcwd (by decide)).mpr ?_
  have hcomps : comps (bufferText (lit "/home") (lit "./a/../b")) =
      [] :: ([lit "home", lit "a", lit ".."] ++ [lit "b"]) := by decide
  rw [hcomps, harmless_cons_iff]
  rintro (_ | ⟨_, _ | ⟨_, _ | ⟨_, pre⟩⟩⟩) c rest heq hname hexhausts
  · cases heq
    exact absurd hexhausts (by decide)
  · cases heq
    exact .inl (by decide)
  · cases heq
    exact absurd hname (by decide)
  · cases pre <;> cases heq

/-- **A dot is cancelled**, and the directory in front of it is not. -/
theorem dot_not_resolved :
    ¬∃ r, dccAbspath (lit "/") (lit "/a/./../b") 0 = some r ∧ r.head? = some 47 ∧
      ¬lit "/../" <:+: r ∧
        resolve (comps r) = resolve (comps (relativeTo (lit "/") (lit "/a/./../b"))) := by
  have hrun : dccAbspath (lit "/") (lit "/a/./../b") 0 = some (lit "/a/b") := by decide
  rintro ⟨r, hr, -, -, heq⟩
  obtain rfl := some.inj (hrun.symm.trans hr)
  exact absurd heq (by decide)

end Distcc.Abspath
