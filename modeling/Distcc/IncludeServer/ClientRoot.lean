import Distcc.Base.FileSystem
import Distcc.Request.Client

/-!
# The directory of the include server, and the names in it

The include server puts what it mirrors under a directory of its own, the client root
(`ClientRootKeeper`, `include_server/basics.py`): files compressed and with a suffix that
says so (`include_server/compress_files.py`), links with none
(`include_server/mirror_path.py`). The client is given these names, and has to find the
names they stand for (`dcc_get_original_fname`, `src/include_server_if.c`). It drops three
directories, which is what every client root has
(`isClientRoot_clientRoot`), and the suffixes it finds.

It cannot know whether it has a file or a link before it. The name of a link that ends in
a suffix of its own loses it, and every other name is found
(`dccGetOriginalFname_undoes_iff`).
-/

namespace Distcc.IncludeServer

open CString List Option

/-! ### The client root -/

/-- The place that the environment names, or the default. -/
def chosenTmp (env : Option CString) (shm : Bool) : CString :=
  match env with
  | some tmp => tmp
  | none => if shm then lit "/dev/shm" else lit "/tmp"

/-- `ClientRootKeeper.__init__`: the place for the client roots, from `DISTCC_CLIENT_TMP`
and whether `/dev/shm` can be used; `none` if it exits. A string has one part more than
slashes. -/
def clientTmp (env : Option CString) (shm : Bool) : Option CString :=
  if (chosenTmp env shm).head? ≠ some 47 then none
  else
    let tmp := (chosenTmp env shm).rdropWhile (· = 47)
    if 3 < tmp.count 47 + 1 then none else some tmp

/-- `number_missing_levels`. -/
def numberMissingLevels (tmp : CString) : ℕ := 3 - (tmp.count 47 + 1)

/-- `ClientRootMakedir`: the client root, if `name` is what `mkdtemp` calls the new
directory. -/
def clientRoot (tmp name : CString) : CString :=
  pathJoin tmp name ++ (List.replicate (numberMissingLevels tmp) (lit "/padding")).flatten

/-- **A client root has three components**: two slashes behind its first byte. -/
def IsClientRoot (root : CString) : Prop := root ≠ [] ∧ root.tail.count 47 = 2

theorem count_padding (n : ℕ) : (List.replicate n (lit "/padding")).flatten.count 47 = n := by
  induction n with
  | zero => rfl
  | succ n ih =>
    rw [replicate_succ, flatten_cons, count_append, ih, Nat.add_comm]
    rfl

variable {env : Option CString}

theorem clientTmp_spec {shm : Bool} {tmp : CString} (h : clientTmp env shm = some tmp) :
    (∀ b ∈ tmp.head?, b = 47) ∧ tmp.getLast? ≠ some 47 ∧ tmp.count 47 + 1 ≤ 3 := by
  unfold clientTmp at h
  split at h
  · cases h
  · case isFalse hslash =>
    dsimp only at h
    split at h
    · cases h
    · case isFalse hlevels =>
      obtain rfl := some.inj h
      refine ⟨fun b hb => ?_, fun hlast => ?_, Nat.not_lt.mp hlevels⟩
      · obtain ⟨rest, hrest⟩ := rdropWhile_prefix (fun b : UInt8 => b = 47) (chosenTmp env shm)
        rw [← hrest, head?_append, mem_def.mp hb] at hslash
        exact some.inj (not_not.mp hslash)
      · obtain ⟨hne, hget⟩ := mem_getLast?_eq_getLast hlast
        exact rdropWhile_last_not _ _ hne (decide_eq_true hget.symm)

/-- Whatever place is chosen, the client roots there have three components. -/
theorem isClientRoot_clientRoot {shm : Bool} {tmp name : CString}
    (htmp : clientTmp env shm = some tmp) (hne : name ≠ []) (hname : (47 : UInt8) ∉ name) :
    IsClientRoot (clientRoot tmp name) := by
  obtain ⟨hhead, hlast, hlevels⟩ := clientTmp_spec htmp
  have hrel : name.head? ≠ some 47 := fun h => hname (mem_of_mem_head? h)
  have hslashes : name.count 47 = 0 := count_eq_zero.mpr hname
  rw [clientRoot, pathJoin, if_neg hrel]
  cases tmp with
  | nil =>
    obtain ⟨b, name, rfl⟩ := exists_cons_of_ne_nil hne
    rw [if_pos (Or.inl rfl), nil_append, cons_append]
    refine ⟨cons_ne_nil _ _, ?_⟩
    have htail : name.count 47 = 0 := count_eq_zero.mpr fun h => hname (.tail b h)
    rw [tail_cons, count_append, htail, count_padding]
    rfl
  | cons b tmp =>
    obtain rfl : b = 47 := hhead b rfl
    rw [if_neg (by simpa using hlast), cons_append, cons_append]
    refine ⟨cons_ne_nil _ _, ?_⟩
    rw [tail_cons, count_append, count_append, count_cons_self, hslashes,
      count_padding, numberMissingLevels]
    rw [count_cons_self] at hlevels ⊢
    omega

/-- `DISTCC_CLIENT_TMP=/tmp//`, which leaves room for one more directory. -/
theorem isClientRoot_clientRoot_tmp : IsClientRoot (clientRoot (lit "/tmp") (lit "x")) := by
  have htmp : clientTmp (some (lit "/tmp//")) false = some (lit "/tmp") := by decide
  exact isClientRoot_clientRoot htmp (by decide) (by decide)

/-! ### Names under it -/

/-- What is mirrored under a client root. -/
inductive Mirrored where
  /-- A compressed file, to be known by its own name. -/
  | lzo
  /-- A compressed file, to be known by an absolute name. -/
  | lzoAbs
  | link
deriving DecidableEq

/-- What is put behind a name. -/
def Mirrored.suffix : Mirrored → CString
  | .lzo => lit ".lzo"
  | .lzoAbs => lit ".lzo.abs"
  | .link => []

/-- The name that the client is given for a path. -/
def mirrorName (root path : CString) (kind : Mirrored) : CString := root ++ path ++ kind.suffix

section Names

variable {root path : CString}

/-- So many slashes are dropped, with what stands before them. -/
theorem dropDirs_append {n : ℕ} {b : UInt8} (root : CString) (hroot : root.count 47 = n)
    (hpath : path.head? = some 47) : dropDirs (n + 1) (b :: root ++ path) = some path := by
  obtain ⟨rest, rfl⟩ : ∃ rest, path = 47 :: rest := by
    cases path with
    | nil => cases hpath
    | cons c rest => exact ⟨rest, congrArg (· :: rest) (some.inj hpath)⟩
  induction root generalizing n b with
  | nil =>
    obtain rfl : n = 0 := hroot.symm
    rfl
  | cons c root ih =>
    by_cases hc : c = 47
    · subst hc
      rw [count_cons_self] at hroot
      obtain rfl := hroot
      exact ih rfl
    · have hskip : dropDirs (n + 1) (b :: c :: root ++ 47 :: rest) =
          dropDirs (n + 1) (b :: root ++ 47 :: rest) := by
        simp [dropDirs, hc, show '/'.toUInt8 = 47 from rfl]
      rw [hskip]
      exact ih (by rwa [count_cons_of_ne hc] at hroot)

theorem dropDirs_mirrorName (hroot : IsClientRoot root) (hpath : path.head? = some 47)
    (kind : Mirrored) : dropDirs 3 (mirrorName root path kind) = some (path ++ kind.suffix) := by
  obtain ⟨hne, hcount⟩ := hroot
  obtain ⟨b, root, rfl⟩ := exists_cons_of_ne_nil hne
  rw [mirrorName, append_assoc]
  refine dropDirs_append root hcount ?_
  rw [head?_append, hpath]
  rfl

/-- An extension: a dot, and something without a dot. -/
def IsExten (ext : CString) : Prop := ext.head? = some 46 ∧ ext.tail ≠ [] ∧ (46 : UInt8) ∉ ext.tail

theorem isExten_lzo : IsExten (lit ".lzo") := by unfold IsExten; decide

theorem isExten_abs : IsExten (lit ".abs") := by unfold IsExten; decide

theorem IsExten.exists_cons {ext : CString} (h : IsExten ext) :
    ∃ u, ext = 46 :: u ∧ u ≠ [] ∧ (46 : UInt8) ∉ u := by
  obtain ⟨hhead, hne, hdot⟩ := h
  cases ext with
  | nil => cases hhead
  | cons b u => exact ⟨u, congrArg (· :: u) (some.inj hhead), hne, hdot⟩

section Extensions

variable {ext ext' : CString} (h : IsExten ext)

include h

/-- A name has an extension if it ends in it. -/
theorem dccFindExtension_eq_some_iff :
    dccFindExtension path = some ext ↔ endsWith ext path = true := by
  obtain ⟨u, rfl, hne, hdot⟩ := h.exists_cons
  rw [endsWith_iff]
  constructor
  · intro hfind
    unfold dccFindExtension at hfind
    split at hfind
    · cases hfind
    · case h_2 dot hlast =>
      split at hfind
      · cases hfind
      · obtain ⟨p, _, hp, -, -⟩ := strrchr_eq_some hlast
        exact ⟨p, hp.trans (congrArg (p ++ ·) (some.inj hfind))⟩
  · rintro ⟨p, rfl⟩
    have hlast : strrchr '.'.toUInt8 (p ++ 46 :: u) = some (46 :: u) := strrchr_append_cons p hdot
    rw [dccFindExtension, hlast]
    exact if_neg hne

theorem stripExten_append (path : CString) : stripExten ext (path ++ ext) = path := by
  have hext := (dccFindExtension_eq_some_iff h).mpr (endsWith_iff.mpr ⟨path, rfl⟩)
  rw [stripExten, if_pos hext, length_append, Nat.add_sub_cancel, take_left]

/-- A name does not end in two extensions. -/
theorem endsWith_append_exten (h' : IsExten ext') (hne : ext ≠ ext') (path : CString) :
    endsWith ext' (path ++ ext) = false := by
  obtain ⟨u, rfl, -, hdot⟩ := h.exists_cons
  obtain ⟨u', rfl, -, hdot'⟩ := h'.exists_cons
  rw [← Bool.not_eq_true, endsWith_iff]
  rintro ⟨t, ht⟩
  exact hne (congrArg (46 :: ·) ((append_cons_inj hdot hdot').mp ht).2)

theorem stripExten_eq_self_iff : stripExten ext path = path ↔ endsWith ext path = false := by
  constructor
  · intro hself
    by_contra hends
    obtain ⟨p, rfl⟩ := endsWith_iff.mp (Bool.eq_true_of_not_eq_false hends)
    rw [stripExten_append h, self_eq_append_right] at hself
    obtain ⟨u, rfl, -, -⟩ := h.exists_cons
    cases hself
  · intro hends
    rw [stripExten, if_neg]
    rw [dccFindExtension_eq_some_iff h, hends]
    exact Bool.false_ne_true

end Extensions

theorem length_stripExten_le (ext path : CString) :
    (stripExten ext path).length ≤ path.length := by
  unfold stripExten
  split
  · exact length_take_le' _ _
  · exact le_rfl

/-- What is left of a name without the suffixes of files. -/
def strip (work : CString) : CString := stripExten (lit ".lzo") (stripExten (lit ".abs") work)

/-- A path is as it was if it has none of the suffixes. -/
theorem strip_eq_self_iff : strip path = path ↔
    endsWith (lit ".lzo") path = false ∧ endsWith (lit ".abs") path = false := by
  rw [← stripExten_eq_self_iff isExten_lzo, ← stripExten_eq_self_iff isExten_abs]
  constructor
  · intro h
    have habs : stripExten (lit ".abs") path = path := by
      refine (stripExten_eq_self_iff isExten_abs).mpr ?_
      by_contra hends
      obtain ⟨p, rfl⟩ := endsWith_iff.mp (Bool.eq_true_of_not_eq_false hends)
      -- what is stripped once is shorter for good
      have hle := length_stripExten_le (lit ".lzo") p
      rw [strip, stripExten_append isExten_abs] at h
      rw [h, length_append] at hle
      exact absurd hle (Nat.not_le.mpr (Nat.lt_add_of_pos_right (by decide)))
    rw [strip, habs] at h
    exact ⟨h, habs⟩
  · rintro ⟨hlzo, habs⟩
    rw [strip, habs, hlzo]

/-- The suffix of a file is stripped, whatever stands before it. -/
theorem strip_suffix {kind : Mirrored} (hkind : kind ≠ .link) (path : CString) :
    strip (path ++ kind.suffix) = path := by
  cases kind with
  | lzo =>
    have habs := (stripExten_eq_self_iff isExten_abs).mpr
      (endsWith_append_exten isExten_lzo isExten_abs (by decide) path)
    rw [Mirrored.suffix, strip, habs, stripExten_append isExten_lzo]
  | lzoAbs =>
    have hsuffix : path ++ lit ".lzo.abs" = path ++ lit ".lzo" ++ lit ".abs" := by
      rw [append_assoc]
      rfl
    rw [Mirrored.suffix, strip, hsuffix, stripExten_append isExten_abs,
      stripExten_append isExten_lzo]
  | link => exact absurd rfl hkind

theorem originalFname_mirrorName (hroot : IsClientRoot root) (hpath : path.head? = some 47)
    (kind : Mirrored) :
    originalFname (mirrorName root path kind) = some (strip (path ++ kind.suffix)) := by
  rw [originalFname, dropDirs_mirrorName hroot hpath]
  rfl

theorem dccGetOriginalFname_ok {fname name : CString} {w w' : World}
    (h : dccGetOriginalFname fname w = some (.ok name, w')) : originalFname fname = some name := by
  obtain ⟨room, w₁, -, h⟩ := Prog.bind_eq_ok_iff.mp h
  cases room with
  | false => cases h
  | true =>
    rw [if_pos rfl] at h
    split at h
    · cases h
    · case h_2 work hwork =>
      obtain ⟨room, w₂, -, h⟩ := Prog.bind_eq_ok_iff.mp h
      cases room with
      | false => cases h
      | true => rw [hwork, (Prog.pure_eq_ok_iff.mp h).1]

/-- **The client finds the path of every file, and of every link whose name does not end
in a suffix of a file.** -/
theorem dccGetOriginalFname_undoes_iff (hroot : IsClientRoot root)
    (hpath : path.head? = some 47) (kind : Mirrored) :
    (∀ w : World, w.Benign →
      ∃ w', dccGetOriginalFname (mirrorName root path kind) w = some (.ok path, w')) ↔
      (kind = .link → endsWith (lit ".lzo") path = false ∧ endsWith (lit ".abs") path = false) := by
  have hfinds : (∀ w : World, w.Benign →
      ∃ w', dccGetOriginalFname (mirrorName root path kind) w = some (.ok path, w')) ↔
      strip (path ++ kind.suffix) = path := by
    constructor
    · intro h
      obtain ⟨w', hrun⟩ := h {} nofun
      have hname := dccGetOriginalFname_ok hrun
      rw [originalFname_mirrorName hroot hpath] at hname
      exact some.inj hname
    · intro h w hw
      have hname := (originalFname_mirrorName hroot hpath kind).trans (congrArg some h)
      obtain ⟨w', hrun, -⟩ := dccGetOriginalFname_returns hname hw
      exact ⟨w', hrun⟩
  rw [hfinds]
  by_cases hkind : kind = .link
  · subst hkind
    rw [Mirrored.suffix, append_nil, strip_eq_self_iff, imp_iff_right rfl]
  · exact iff_of_true (strip_suffix hkind path) fun h => absurd h hkind

/-- The root that the documentation of the keeper shows. -/
theorem dccGetOriginalFname_undoes_shm :
    IsClientRoot (lit "/dev/shm/tmpBDoZQV.include_server-6642-19") ∧
      ∀ w : World, w.Benign → ∃ w', dccGetOriginalFname
        (mirrorName (lit "/dev/shm/tmpBDoZQV.include_server-6642-19") (lit "/u/a.lzo") .lzo) w =
          some (.ok (lit "/u/a.lzo"), w') :=
  have hroot : IsClientRoot (lit "/dev/shm/tmpBDoZQV.include_server-6642-19") := by
    unfold IsClientRoot
    decide
  have hpath : (lit "/u/a.lzo").head? = some 47 := by decide
  ⟨hroot, (dccGetOriginalFname_undoes_iff hroot hpath .lzo).mpr nofun⟩

/-- The link `/a.lzo` is taken for the file `/a`. -/
theorem dccGetOriginalFname_cuts_link :
    IsClientRoot (lit "/dev/shm/t") ∧
      ∃ w w' : World, w.Benign ∧
        dccGetOriginalFname (mirrorName (lit "/dev/shm/t") (lit "/a.lzo") .link) w =
          some (.ok (lit "/a"), w') := by
  have hroot : IsClientRoot (lit "/dev/shm/t") := by
    unfold IsClientRoot
    decide
  have hname : originalFname (mirrorName (lit "/dev/shm/t") (lit "/a.lzo") .link) =
      some (lit "/a") := by
    decide +kernel
  obtain ⟨w', hrun, -⟩ := dccGetOriginalFname_returns (w := {}) hname nofun
  exact ⟨hroot, {}, w', nofun, hrun⟩

end Names

end Distcc.IncludeServer
