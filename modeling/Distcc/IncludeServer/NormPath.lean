import Distcc.Base.Tree
import Distcc.IncludeServer.ParseFile

/-!
# Names that are made shorter

Before a search directory is numbered, `SafeNormPath` takes `./` away in front and slashes
at the end; `DirectoryMapToIndex.Index` puts one slash behind it. `RelpathMapToIndex.Index`
takes `./` away in front of an include path. A file is then known by the two strings, one
after the other.

Most of the time they lead where the directory and the include path would lead with a slash
between them. They do not if what is taken away is all that there is or all that keeps a
slash from the front (`keepsMeaning_iff`): `/` becomes the current
directory, and `.//a` becomes `/a`.
-/

namespace Distcc.IncludeServer

open CString List

variable {d f s t : CString}

/-! ### What is taken away -/

/-- `SafeNormPath`. -/
def safeNormPath (path : CString) : CString :=
  if path = lit "." then [] else (stripCurrent path).rdropWhile (· = 47)

/-- `./`, so many times. -/
def dotSlashes (k : ℕ) : CString := (List.replicate k (lit "./")).flatten

theorem dotSlashes_succ (k : ℕ) : dotSlashes (k + 1) = 46 :: 47 :: dotSlashes k := rfl

theorem exists_stripCurrent (s : CString) : ∃ k, s = dotSlashes k ++ stripCurrent s := by
  fun_induction stripCurrent s with
  | case1 s ih =>
    obtain ⟨k, hk⟩ := ih
    refine ⟨k + 1, ?_⟩
    rw [dotSlashes_succ, cons_append, cons_append, ← hk]
  | case2 s => exact ⟨0, rfl⟩

theorem comps_dotSlashes (k : ℕ) (t : CString) :
    comps (dotSlashes k ++ t) = List.replicate k (lit ".") ++ comps t := by
  induction k with
  | zero => rfl
  | succ k ih =>
    have hslash := comps_append_slash (lit ".") (dotSlashes k ++ t)
    rw [ih] at hslash
    exact hslash

theorem comps_slashes (m : ℕ) (t : CString) :
    comps (List.replicate m 47 ++ t) = List.replicate m [] ++ comps t := by
  induction m with
  | zero => rfl
  | succ m ih => exact congrArg ([] :: ·) ih

theorem stripCurrent_dotSlashes (k : ℕ) (t : CString) :
    stripCurrent (dotSlashes k ++ t) = stripCurrent t := by
  induction k with
  | zero => rfl
  | succ k ih => exact ih

/-- What is behind the slashes at the end. -/
theorem exists_rdropWhile (s : CString) :
    ∃ m, s = s.rdropWhile (· = 47) ++ List.replicate m 47 := by
  have hslashes : s.rtakeWhile (· = 47) = List.replicate (s.rtakeWhile (· = 47)).length 47 :=
    eq_replicate_of_mem fun b hb => by simpa using mem_rtakeWhile_imp hb
  refine ⟨(s.rtakeWhile (· = 47)).length, ?_⟩
  rw [← hslashes]
  exact rdropWhile_append_rtakeWhile.symm

theorem head?_rdropWhile : (s.rdropWhile (· = 47)).head? = some 47 ↔
    ∃ t, s = 47 :: t ∧ ∃ b ∈ t, b ≠ 47 := by
  obtain ⟨m, hm⟩ := exists_rdropWhile s
  constructor
  · intro h
    obtain ⟨t, ht⟩ := head?_eq_some_iff.mp h
    refine ⟨t ++ List.replicate m 47, by rw [← cons_append, ← ht]; exact hm, ?_⟩
    -- it does not end in a slash, so that there is something behind the first one
    have hlast := rdropWhile_last_not (fun b : UInt8 => decide (b = 47)) s (by simp [ht])
    simp only [ht, decide_eq_true_eq] at hlast
    cases t with
    | nil => exact absurd rfl hlast
    | cons b t =>
      rw [getLast_cons_cons] at hlast
      exact ⟨_, mem_append_left _ (getLast_mem (cons_ne_nil b t)), hlast⟩
  · rintro ⟨t, rfl, b, hb, hne⟩
    cases hdrop : (47 :: t).rdropWhile (· = 47) with
    | nil =>
      have hall := rdropWhile_eq_nil_iff.mp hdrop b (mem_cons_of_mem _ hb)
      exact absurd (of_decide_eq_true hall) hne
    | cons c u =>
      rw [hdrop, cons_append] at hm
      rw [← (List.cons.inj hm).1]
      rfl

/-! ### Where the strings lead -/

/-- The string of a directory in the map. -/
def slashedName (s : CString) : CString := if s = [] then [] else s ++ [47]

theorem directoryMapIndex_safeNormPath (d : CString) :
    ∃ dir, directoryMapIndex (safeNormPath d) = .ok dir ∧
      dir.string = slashedName (safeNormPath d) := by
  have hlast : (safeNormPath d).getLast? ≠ some 47 := by
    rw [safeNormPath]
    split
    · exact (Option.some_ne_none _).symm
    · intro h
      obtain ⟨t, ht⟩ := getLast?_eq_some_iff.mp h
      have hlast := rdropWhile_last_not (fun b : UInt8 => decide (b = 47)) (stripCurrent d)
        (by simp [ht])
      simp [ht] at hlast
  by_cases hnil : safeNormPath d = []
  · refine ⟨⟨[], isDirectory_nil⟩, ?_, (if_pos hnil).symm⟩
    rw [hnil]
    rfl
  · refine ⟨⟨safeNormPath d ++ [47], isDirectory_concat.mpr hlast⟩, ?_, (if_neg hnil).symm⟩
    rw [directoryMapIndex, dif_neg, dif_neg hlast]
    rintro (h | h)
    · exact hnil h
    · exact hlast (h ▸ rfl)

section Leads

variable {fs : FileSystem} {n : ℕ} {loc : Loc}

/-- **The path as it is written** leads along what is left of it, from any place. -/
theorem lead_written (d f : CString) : fs.lead n loc (comps (d ++ 47 :: f)) =
    fs.lead n loc (comps (safeNormPath d) ++ comps (stripCurrent f)) := by
  obtain ⟨j, hj⟩ := exists_stripCurrent f
  generalize hfp : stripCurrent f = fp at hj ⊢
  have hne : comps fp ≠ [] := comps_ne_nil fp
  -- in front of the include path
  have hskip : ∀ m loc', fs.lead n loc' (comps (List.replicate m 47 ++ f)) =
      fs.lead n loc' (comps fp) := by
    intro m loc'
    rw [hj, comps_slashes, comps_dotSlashes, ← append_assoc]
    refine FileSystem.lead_skips (fun c hc => ?_) hne
    rcases mem_append.mp hc with hc | hc
    · exact .inl (eq_of_mem_replicate hc)
    · exact .inr (eq_of_mem_replicate hc)
  rw [safeNormPath]
  split
  · case isTrue hdot =>
    rw [hdot, comps_append_slash]
    refine (FileSystem.lead_skip (.inr rfl) (comps_ne_nil f)).trans ?_
    exact (hskip 0 loc).trans (FileSystem.lead_skip (.inl rfl) hne).symm
  · obtain ⟨k, hk⟩ := exists_stripCurrent d
    obtain ⟨m, hm⟩ := exists_rdropWhile (stripCurrent d)
    generalize (stripCurrent d).rdropWhile (· = 47) = u at hm ⊢
    have hpath : d ++ 47 :: f = dotSlashes k ++ (u ++ 47 :: (List.replicate m 47 ++ f)) := by
      rw [hk, hm, append_assoc, append_assoc, ← cons_append,
        ← replicate_succ, replicate_succ', append_assoc, singleton_append]
    rw [hpath, comps_dotSlashes, FileSystem.lead_skips
      (fun c hc => .inr (eq_of_mem_replicate hc)) (comps_ne_nil _), comps_append_slash,
      FileSystem.lead_append, FileSystem.lead_append]
    exact congrArg (Option.bind _) (funext (hskip m))

/-- **The path as it is stored** leads along the same components. -/
theorem lead_stored (s fp : CString) : fs.lead n loc (comps (slashedName s ++ fp)) =
    fs.lead n loc (comps s ++ comps fp) := by
  rw [slashedName]
  split
  · case isTrue hnil =>
    rw [hnil]
    exact (FileSystem.lead_skip (.inl rfl) (comps_ne_nil fp)).symm
  · rw [append_assoc, singleton_append, comps_append_slash]

end Leads

/-! ### A name that occurs nowhere else -/

/-- A name that is longer than those. -/
def freshName (cs : List CString) : CString := List.replicate (cs.flatten.length + 3) 120

theorem freshName_spec (cs : List CString) :
    isName (freshName cs) = true ∧ 47 ∉ freshName cs ∧ freshName cs ∉ cs := by
  refine ⟨?_, fun h => absurd (eq_of_mem_replicate h) (by decide), fun hmem => ?_⟩
  · simp [isName, freshName, lit, replicate_succ]
  · have hle := (sublist_flatten_of_mem hmem).length_le
    rw [freshName, length_replicate] at hle
    omega

/-- **It matters where a path starts**: from the root and from another place the same
components lead to different places, in some file system. -/
theorem exists_lead_ne {cs : List CString} (hcs : ∀ c ∈ cs, 47 ∉ c) :
    ∃ (fs : FileSystem) (cur : Loc), fs.entry cur = some .directory ∧
      fs.lead fs.nesting [] cs ≠ fs.lead fs.nesting cur cs := by
  obtain ⟨hname, hslash, hfresh⟩ := freshName_spec cs
  generalize freshName cs = x at hname hslash hfresh
  have hnames : ∀ c ∈ x :: cs.filter isName, isName c = true ∧ 47 ∉ c := by
    refine forall_mem_cons.mpr ⟨⟨hname, hslash⟩, fun c hc => ?_⟩
    obtain ⟨hmem, hc⟩ := mem_filter.mp hc
    exact ⟨hc, hcs c hmem⟩
  have hin : ∀ c ∈ cs, isName c = true → c ∈ x :: cs.filter isName :=
    fun c hc hname => mem_cons_of_mem _ (mem_filter.mpr ⟨hc, hname⟩)
  have hcur : ∀ c ∈ List.replicate (cs.length + 1) x, c ∈ x :: cs.filter isName :=
    fun c hc => eq_of_mem_replicate hc ▸ mem_cons_self
  refine ⟨.full (x :: cs.filter isName) (2 * cs.length + 1) hnames,
    List.replicate (cs.length + 1) x, if_pos ⟨?hdepth, hcur⟩, ?hplaces⟩
  case hdepth =>
    rw [length_replicate]
    omega
  case hplaces =>
    rw [FileSystem.lead_full _ (forall_mem_nil _) hin, FileSystem.lead_full _ hcur hin]
    · intro heq
      have hmem : x ∈ lexical (List.replicate (cs.length + 1) x) cs :=
        mem_lexical (prefix_refl _)
      rw [← Option.some.inj heq] at hmem
      exact not_mem_lexical not_mem_nil hfresh hmem
    · rw [length_replicate]
      omega
    · rw [length_nil]
      omega

/-! ### Meaning -/

/-- **The meaning is kept**: both names are numbered, the include path is not made absolute,
and in every file system and from every current directory the strings in the maps lead where
the directory and the include path lead with a slash between them. -/
def KeepsMeaning (ignoreAbsolute : Bool) (d f : CString) : Prop :=
  ∃ dir fp, directoryMapIndex (safeNormPath d) = .ok dir ∧
    includepathMapIndex ignoreAbsolute f = .ok fp ∧ fp.head? ≠ some 47 ∧
    ∀ (fs : FileSystem) (cur : Loc), fs.entry cur = some .directory →
      fs.locateFrom cur (dir.string ++ fp) = fs.locateFrom cur (d ++ 47 :: f)

/-- The current directory, with nothing but dots and slashes. -/
def SpellsCurrent (d : CString) : Prop :=
  d = lit "." ∨ ∃ k m, d = dotSlashes (k + 1) ++ List.replicate m 47

/-- What the names have to look like. -/
structure PlainNames (d f : CString) : Prop where
  /-- The directory is not the root, by its name. -/
  notRoot : ∃ b ∈ d, b ≠ 47
  /-- No name comes behind `.//`, which would become one in the root. -/
  noDirSlash : ¬ ∃ k t, d = dotSlashes (k + 1) ++ 47 :: t ∧ ∃ b ∈ t, b ≠ 47
  /-- The same for the include path, where nothing at all may come. -/
  noFileSlash : ¬ ∃ k t, f = dotSlashes k ++ 47 :: t
  /-- Something is left. -/
  something : SpellsCurrent d → ¬ ∃ k, f = dotSlashes k

theorem stripCurrent_eq_nil : stripCurrent f = [] ↔ ∃ k, f = dotSlashes k := by
  constructor
  · intro h
    obtain ⟨k, hk⟩ := exists_stripCurrent f
    rw [h, append_nil] at hk
    exact ⟨k, hk⟩
  · rintro ⟨k, rfl⟩
    have hstrip := stripCurrent_dotSlashes k []
    rwa [append_nil] at hstrip

theorem head?_stripCurrent :
    (stripCurrent f).head? = some 47 ↔ ∃ k t, f = dotSlashes k ++ 47 :: t := by
  constructor
  · intro h
    obtain ⟨k, hk⟩ := exists_stripCurrent f
    obtain ⟨t, ht⟩ := head?_eq_some_iff.mp h
    exact ⟨k, t, ht ▸ hk⟩
  · rintro ⟨k, t, rfl⟩
    rw [stripCurrent_dotSlashes]
    rfl

theorem stripCurrent_slashes (h : ∀ b ∈ s, b = 47) : stripCurrent s = s := by
  cases s with
  | nil => rfl
  | cons b s =>
    rw [h b mem_cons_self]
    rfl

/-- Nothing is left of the current directory, nor of the root. -/
theorem safeNormPath_eq_nil : safeNormPath d = [] ↔ SpellsCurrent d ∨ ∀ b ∈ d, b = 47 := by
  rw [safeNormPath]
  split
  · case isTrue hdot => exact ⟨fun _ => .inl (.inl hdot), fun _ => rfl⟩
  · case isFalse hdot =>
    simp only [rdropWhile_eq_nil_iff, decide_eq_true_eq]
    constructor
    · intro h
      obtain ⟨k, hk⟩ := exists_stripCurrent d
      cases k with
      | zero =>
        rw [show d = stripCurrent d from hk]
        exact .inr h
      | succ k => exact .inl (.inr ⟨k, _, eq_replicate_of_mem h ▸ hk⟩)
    · rintro ((h | ⟨k, m, rfl⟩) | h)
      · exact absurd h hdot
      · have hslashes : ∀ b ∈ List.replicate m (47 : UInt8), b = 47 :=
          fun b hb => eq_of_mem_replicate hb
        rw [stripCurrent_dotSlashes, stripCurrent_slashes hslashes]
        exact hslashes
      · rw [stripCurrent_slashes h]
        exact h

/-- What is left begins with a slash. -/
theorem head?_safeNormPath : (safeNormPath d).head? = some 47 ↔
    ∃ k t, d = dotSlashes k ++ 47 :: t ∧ ∃ b ∈ t, b ≠ 47 := by
  rw [safeNormPath]
  split
  · case isTrue hdot =>
    subst hdot
    constructor
    · exact fun h => absurd h.symm (Option.some_ne_none _)
    · rintro ⟨k, t, h, -⟩
      cases k with
      | zero => exact absurd (List.cons.inj h).1 (by decide)
      | succ k => exact absurd (congrArg List.length h) (by simp [dotSlashes_succ, lit])
  · rw [head?_rdropWhile]
    constructor
    · rintro ⟨t, ht, hb⟩
      obtain ⟨k, hk⟩ := exists_stripCurrent d
      exact ⟨k, t, ht ▸ hk, hb⟩
    · rintro ⟨k, t, rfl, hb⟩
      rw [stripCurrent_dotSlashes]
      exact ⟨t, rfl, hb⟩

section Places

variable {fs : FileSystem} {cur : Loc}

theorem locateFrom_stored (hne : slashedName s ++ t ≠ []) (ht : t.head? ≠ some 47) :
    fs.locateFrom cur (slashedName s ++ t) = fs.lead fs.nesting
      (if s.head? = some 47 then [] else cur) (comps s ++ comps t) := by
  have hhead : (slashedName s ++ t).head? = some 47 ↔ s.head? = some 47 := by
    rw [slashedName]
    cases s with
    | nil => exact ⟨fun h => absurd h ht, fun h => absurd h.symm (Option.some_ne_none _)⟩
    | cons b s => rfl
  rw [FileSystem.locateFrom, if_neg hne, lead_stored]
  simp only [hhead]

theorem locateFrom_written (hd : d ≠ []) (f : CString) :
    fs.locateFrom cur (d ++ 47 :: f) =
      fs.lead fs.nesting (if d.head? = some 47 then [] else cur)
        (comps (safeNormPath d) ++ comps (stripCurrent f)) := by
  obtain ⟨b, d, rfl⟩ := exists_cons_of_ne_nil hd
  rw [FileSystem.locateFrom, if_neg (append_ne_nil_of_left_ne_nil hd _), lead_written]
  rfl

end Places

theorem not_mem_of_mem_spelled {c : CString} (hc : c ∈ comps s ++ comps t) : 47 ∉ c := by
  rcases mem_append.mp hc with hc | hc <;> exact not_mem_of_mem_comps hc

/-- **Both paths lead to the same place**, always, if there is a path at all and it starts
from the same place. -/
theorem samePlaces_iff (hd : d ≠ []) (hrel : (stripCurrent f).head? ≠ some 47) :
    (∀ (fs : FileSystem) (cur : Loc), fs.entry cur = some .directory →
      fs.locateFrom cur (slashedName (safeNormPath d) ++ stripCurrent f) =
        fs.locateFrom cur (d ++ 47 :: f)) ↔
    slashedName (safeNormPath d) ++ stripCurrent f ≠ [] ∧
      ((safeNormPath d).head? = some 47 ↔ d.head? = some 47) := by
  constructor
  · intro h
    have hne : slashedName (safeNormPath d) ++ stripCurrent f ≠ [] := by
      intro hnil
      have hroot := h (.full [] (comps (safeNormPath d) ++ comps (stripCurrent f)).length
        (forall_mem_nil _)) [] (FileSystem.root _)
      rw [locateFrom_written hd, ite_self, FileSystem.locateFrom, if_pos hnil,
        FileSystem.lead_full (Nat.zero_add _).le (forall_mem_nil _)] at hroot
      · exact absurd hroot.symm (Option.some_ne_none _)
      · -- there are no names to be looked for
        obtain ⟨hs, ht⟩ := append_eq_nil_iff.mp hnil
        have hs' : safeNormPath d = [] := by
          by_contra hs'
          rw [slashedName, if_neg hs'] at hs
          exact absurd hs (by simp)
        rw [hs', ht]
        decide
    refine ⟨hne, ?_⟩
    obtain ⟨fs, cur, hcur, hdiff⟩ := exists_lead_ne
      fun c hc => @not_mem_of_mem_spelled (safeNormPath d) (stripCurrent f) c hc
    have hthere := h fs cur hcur
    rw [locateFrom_stored hne hrel, locateFrom_written hd] at hthere
    by_cases hs : (safeNormPath d).head? = some 47 <;> by_cases hw : d.head? = some 47
    · exact ⟨fun _ => hw, fun _ => hs⟩
    · rw [if_pos hs, if_neg hw] at hthere
      exact absurd hthere hdiff
    · rw [if_neg hs, if_pos hw] at hthere
      exact absurd hthere.symm hdiff
    · exact ⟨fun h => absurd h hs, fun h => absurd h hw⟩
  · rintro ⟨hne, hstart⟩ fs cur -
    rw [locateFrom_stored hne hrel, locateFrom_written hd]
    simp only [hstart]

/-- The shape of the names, by what is left of them. -/
theorem plainNames_iff (hd : d ≠ []) : PlainNames d f ↔
    (stripCurrent f).head? ≠ some 47 ∧ slashedName (safeNormPath d) ++ stripCurrent f ≠ [] ∧
      ((safeNormPath d).head? = some 47 ↔ d.head? = some 47) := by
  have hempty : slashedName (safeNormPath d) ++ stripCurrent f = [] ↔
      safeNormPath d = [] ∧ stripCurrent f = [] := by
    rw [append_eq_nil_iff, slashedName]
    split
    · case isTrue h => simp [h]
    · case isFalse h => simp [h]
  rw [ne_eq, ne_eq, hempty, head?_stripCurrent, head?_safeNormPath, safeNormPath_eq_nil,
    stripCurrent_eq_nil]
  constructor
  · rintro ⟨⟨b, hb, hne⟩, hdir, hfile, hsome⟩
    refine ⟨hfile, ?_, ?_, fun hhead => ?_⟩
    · rintro ⟨hcur | hroot, hnil⟩
      · exact hsome hcur hnil
      · exact hne (hroot b hb)
    · rintro ⟨_ | k, t, rfl, ht⟩
      · rfl
      · exact absurd ⟨k, t, rfl, ht⟩ hdir
    · obtain ⟨t, rfl⟩ := head?_eq_some_iff.mp hhead
      refine ⟨0, t, rfl, b, ?_, hne⟩
      exact (mem_cons.mp hb).resolve_left hne
  · rintro ⟨hfile, hsome, hstart⟩
    refine ⟨?_, ?_, hfile, fun hcur hnil => hsome ⟨.inl hcur, hnil⟩⟩
    · by_contra hroot
      push Not at hroot
      obtain ⟨b, t, rfl⟩ := exists_cons_of_ne_nil hd
      obtain rfl := hroot b mem_cons_self
      obtain ⟨k, u, hu, c, hc, hne⟩ := hstart.mpr rfl
      refine hne (hroot c ?_)
      rw [hu]
      exact mem_append_right _ (mem_cons_of_mem _ hc)
    · rintro ⟨k, t, rfl, ht⟩
      exact absurd (hstart.mp ⟨k + 1, t, rfl, ht⟩) (by simp [dotSlashes_succ])

/-- **When normalisation keeps the meaning**: for names that look like that, and for no
others. -/
theorem keepsMeaning_iff (ignoreAbsolute : Bool) (d f : CString) (hd : d ≠ [])
    (hf : f.head? ≠ some 47) : KeepsMeaning ignoreAbsolute d f ↔ PlainNames d f := by
  obtain ⟨dir, hdir, hstring⟩ := directoryMapIndex_safeNormPath d
  have hfp : includepathMapIndex ignoreAbsolute f = .ok (stripCurrent f) := by
    rw [includepathMapIndex, if_neg fun h => hf h.1]
  rw [plainNames_iff hd]
  constructor
  · rintro ⟨dir', fp, hdir', hfp', hrel, hplaces⟩
    obtain rfl := Except.ok.inj (hdir.symm.trans hdir')
    obtain rfl := Except.ok.inj (hfp.symm.trans hfp')
    rw [hstring] at hplaces
    exact ⟨hrel, (samePlaces_iff hd hrel).mp hplaces⟩
  · rintro ⟨hrel, hsame⟩
    refine ⟨dir, stripCurrent f, hdir, hfp, hrel, ?_⟩
    rw [hstring]
    exact (samePlaces_iff hd hrel).mpr hsame

theorem keepsMeaning_iff_inc : KeepsMeaning false (lit "./inc//") (lit "./sub/a.h") := by
  have hzero : dotSlashes 0 = [] := rfl
  refine (keepsMeaning_iff false _ _ (by decide) (by decide)).mpr ⟨by decide, ?_, ?_, ?_⟩
  · rintro ⟨_ | k, t, h, -⟩ <;> simp [lit, dotSlashes_succ, hzero] at h
  · rintro ⟨_ | _ | k, t, h⟩ <;> simp [lit, dotSlashes_succ, hzero] at h
  · rintro - ⟨_ | _ | k, h⟩ <;> simp [lit, dotSlashes_succ, hzero] at h

/-- A file in the root, and a directory. -/
def rootHeader : FileSystem :=
  .ofTable [([lit "usr"], .directory), ([lit "a.h"], .file)] (by decide)

/-- **The root is lost**: from another directory the file that `-I /` makes available is not
found. -/
theorem root_not_kept : ¬ KeepsMeaning false (lit "/") (lit "a.h") := by
  rintro ⟨dir, fp, hdir, hfp, -, hplaces⟩
  obtain rfl : (⟨[], isDirectory_nil⟩ : Directory) = dir := Except.ok.inj hdir
  obtain rfl : lit "a.h" = fp := Except.ok.inj hfp
  have hthere := hplaces rootHeader [lit "usr"] (by decide)
  revert hthere
  decide

end Distcc.IncludeServer
