import Distcc.Base.CString
import Mathlib.Data.List.AList
import Mathlib.Data.List.Perm.Subperm
import Mathlib.Logic.Function.Iterate

/-!
# Reset triggers

The include server can be told of globs whose paths it should keep an eye on. In front of every
compilation it looks at them (`DoStatResetTriggers`, `include_server/include_analyzer.py`), and
if a path has come, has gone or has another stamp than the recorded one, all caches are cleared
and a new generation begins. The first difference that is found is recorded, and the rest is
left to the next calls.

No difference is overlooked. But a path that has gone stays recorded, so that the caches are
cleared in every call from then on. If there is none, a file system that does not change any
more is soon known (`settles_iff`).
-/

namespace Distcc.IncludeServer

open List Function

variable {τ κ : Type*}

/-- What a call finds: the paths of a glob, each of them once, and their stamps. -/
structure Listing (τ : Type*) where
  /-- The paths of a glob. -/
  glob : CString → List CString
  /-- The stamp of a path. -/
  stamp : CString → τ
  nodup : ∀ globExpr, (glob globExpr).Nodup

/-- A glob, with the paths and stamps that were recorded for it. -/
structure Trigger (τ : Type*) where
  /-- The glob. -/
  globExpr : CString
  /-- The recorded stamps. -/
  stamps : AList fun _ : CString => τ

/-- What the analyzer has for this. -/
structure ResetState (τ κ : Type*) where
  /-- The triggers. -/
  statResetTriggers : List (Trigger τ)
  /-- How often the caches were made. -/
  generation : ℕ
  /-- All caches. -/
  caches : κ

/-- `ClearStatCaches`, with the caches that `_InitializeAllCaches` makes. -/
def clearStatCaches (initial : κ) (st : ResetState τ κ) : ResetState τ κ :=
  { st with generation := st.generation + 1, caches := initial }

variable (now : Listing τ)

/-- A recorded path has gone. -/
def Gone (triggers : List (Trigger τ)) : Prop :=
  ∃ t ∈ triggers, ∃ path ∈ t.stamps, path ∉ now.glob t.globExpr

variable [DecidableEq τ]

/-- The path is new, or has a new stamp. -/
def isNews (t : Trigger τ) (path : CString) : Bool :=
  decide (t.stamps.lookup path ≠ some (now.stamp path))

/-- The loop: the first news are recorded, if there are any. -/
def recordNews : List (Trigger τ) → Option (List (Trigger τ))
  | [] => none
  | t :: triggers =>
    match (now.glob t.globExpr).find? (isNews now t) with
    | some path => some ({ t with stamps := t.stamps.insert path (now.stamp path) } :: triggers)
    | none => (recordNews triggers).map (t :: ·)

/-- `DoStatResetTriggers`. If the loop comes to its end, it has removed all paths that were
found from the old ones. -/
def doStatResetTriggers (initial : κ) (st : ResetState τ κ) : ResetState τ κ :=
  match recordNews now st.statResetTriggers with
  | some triggers => clearStatCaches initial { st with statResetTriggers := triggers }
  | none =>
    let oldPaths := st.statResetTriggers.flatMap fun t => t.stamps.keys
    let paths := st.statResetTriggers.flatMap fun t => now.glob t.globExpr
    if oldPaths.diff paths = [] then st else clearStatCaches initial st

/-- **From some call on, nothing is cleared.** -/
def Settles (initial : κ) (st : ResetState τ κ) : Prop :=
  ∃ n₀, ∀ n ≥ n₀, ((doStatResetTriggers now initial)^[n + 1] st).generation =
      ((doStatResetTriggers now initial)^[n] st).generation ∧
    ((doStatResetTriggers now initial)^[n + 1] st).caches =
      ((doStatResetTriggers now initial)^[n] st).caches

/-- How much news there is. -/
def newsCount (triggers : List (Trigger τ)) : ℕ :=
  (triggers.flatMap fun t => (now.glob t.globExpr).filter (isNews now t)).length

variable {now} {t : Trigger τ} {triggers : List (Trigger τ)} {path : CString} {initial : κ}
  {st : ResetState τ κ}

theorem recordNews_eq_none_iff : recordNews now triggers = none ↔
    ∀ t ∈ triggers, ∀ path ∈ now.glob t.globExpr, isNews now t path = false := by
  induction triggers with
  | nil => simp [recordNews]
  | cons t triggers ih =>
    rw [recordNews, forall_mem_cons, ← ih]
    split
    · case _ path hfind =>
      simpa using fun h => absurd (find?_some hfind) (by simp [h path (mem_of_find?_eq_some hfind)])
    · case _ hfind => simpa using fun _ => find?_eq_none.mp hfind

/-- What is recorded is no news any more. -/
theorem newsCount_insert (hpath : path ∈ now.glob t.globExpr) (hnews : isNews now t path = true) :
    newsCount now ({ t with stamps := t.stamps.insert path (now.stamp path) } :: triggers) <
      newsCount now (t :: triggers) := by
  have hsub : path :: (now.glob t.globExpr).filter
      (isNews now { t with stamps := t.stamps.insert path (now.stamp path) }) ⊆
      (now.glob t.globExpr).filter (isNews now t) := by
    refine cons_subset.mpr ⟨mem_filter.mpr ⟨hpath, hnews⟩, fun p hp => ?_⟩
    obtain ⟨hp, hne⟩ := mem_filter.mp hp
    refine mem_filter.mpr ⟨hp, ?_⟩
    by_cases heq : p = path
    · rwa [heq]
    · simpa [isNews, AList.lookup_insert_ne heq] using hne
  have hle := (subperm_of_subset
    (nodup_cons.mpr ⟨by simp [isNews], (now.nodup _).filter _⟩) hsub).length_le
  simp only [newsCount, flatMap_cons, length_append, length_cons] at hle ⊢
  omega

/-- **What recording news does**: there is less of it, and nothing has gone by it. -/
theorem recordNews_eq_some {triggers' : List (Trigger τ)}
    (h : recordNews now triggers = some triggers') :
    newsCount now triggers' < newsCount now triggers ∧
      (Gone now triggers' ↔ Gone now triggers) := by
  induction triggers generalizing triggers' with
  | nil => cases h
  | cons t triggers ih =>
    rw [recordNews] at h
    split at h
    · case _ path hfind =>
      have hpath := mem_of_find?_eq_some hfind
      obtain rfl := Option.some.inj h
      refine ⟨newsCount_insert hpath (find?_some hfind), ?_⟩
      simp only [Gone, exists_mem_cons_iff, AList.mem_insert]
      refine or_congr_left (exists_congr fun p => ⟨?_, fun hp => ⟨.inr hp.1, hp.2⟩⟩)
      rintro ⟨rfl | hp, hgone⟩
      · exact absurd hpath hgone
      · exact ⟨hp, hgone⟩
    · obtain ⟨rest, hrest, rfl⟩ := Option.map_eq_some_iff.mp h
      obtain ⟨hless, hgone⟩ := ih hrest
      simp only [newsCount, Gone, flatMap_cons, length_append, exists_mem_cons_iff] at hless hgone ⊢
      exact ⟨Nat.add_lt_add_left hless _, or_congr_right hgone⟩

theorem flatMap_subperm {α β : Type*} {l : List α} {f g : α → List β}
    (h : ∀ a ∈ l, f a <+~ g a) : l.flatMap f <+~ l.flatMap g := by
  induction l with
  | nil => exact .refl _
  | cons a l ih =>
    obtain ⟨ha, hl⟩ := forall_mem_cons.mp h
    exact ha.append (ih hl)

/-- **Without news, old paths remain** exactly if one has gone. -/
theorem diff_eq_nil_iff (h : recordNews now triggers = none) :
    (triggers.flatMap fun t => t.stamps.keys).diff
      (triggers.flatMap fun t => now.glob t.globExpr) = [] ↔ ¬ Gone now triggers := by
  have hrecorded : ∀ t ∈ triggers, now.glob t.globExpr ⊆ t.stamps.keys := by
    intro t ht path hpath
    have hlookup := recordNews_eq_none_iff.mp h t ht path hpath
    refine AList.lookup_isSome.mp ?_
    rw [not_not.mp (of_decide_eq_false hlookup)]
    rfl
  have hsub : ∀ t ∈ triggers, now.glob t.globExpr <+~ t.stamps.keys := fun t ht =>
    subperm_of_subset (now.nodup _) (hrecorded t ht)
  have hperm := (subperm_append_diff_self_of_count_le fun x _ =>
    (flatMap_subperm hsub).count_le x).length_eq
  rw [length_append] at hperm
  rw [← length_eq_zero_iff]
  refine ⟨fun hnil ⟨t, ht, path, hkey, hgone⟩ => ?_, fun h => ?_⟩
  · -- there are more recorded paths than found ones
    obtain ⟨before, after, rfl⟩ := append_of_mem ht
    have hmore := (subperm_of_subset (nodup_cons.mpr ⟨hgone, now.nodup _⟩)
      (cons_subset.mpr ⟨hkey, hrecorded t ht⟩)).length_le
    have hbefore := (flatMap_subperm fun t h => hsub t (mem_append_left _ h)).length_le
    have hafter := (flatMap_subperm fun t h =>
      hsub t (mem_append_right _ (mem_cons_of_mem _ h))).length_le
    rw [hnil] at hperm
    simp only [flatMap_append, flatMap_cons, length_append, length_cons] at hperm hmore
    omega
  · have hle := (flatMap_subperm fun t ht => subperm_of_subset t.stamps.keys_nodup
      fun path hkey => not_not.mp fun hgone => h ⟨t, ht, path, hkey, hgone⟩).length_le
    omega

/-- **What a call does**: it clears the caches if there is news or a path has gone. -/
theorem doStatResetTriggers_cases (now : Listing τ) (initial : κ) (st : ResetState τ κ) :
    (∃ triggers, doStatResetTriggers now initial st =
        clearStatCaches initial { st with statResetTriggers := triggers } ∧
      (Gone now triggers ↔ Gone now st.statResetTriggers) ∧
      (newsCount now triggers < newsCount now st.statResetTriggers ∨
        Gone now st.statResetTriggers)) ∨
    doStatResetTriggers now initial st = st ∧ recordNews now st.statResetTriggers = none ∧
      ¬ Gone now st.statResetTriggers := by
  rw [doStatResetTriggers]
  cases hrecord : recordNews now st.statResetTriggers with
  | some triggers =>
    obtain ⟨hless, hgone⟩ := recordNews_eq_some hrecord
    exact .inl ⟨triggers, rfl, hgone, .inl hless⟩
  | none =>
    have hiff := diff_eq_nil_iff hrecord
    dsimp only
    split
    · case isTrue hnil => exact .inr ⟨rfl, rfl, hiff.mp hnil⟩
    · case isFalse hne =>
      exact .inl ⟨st.statResetTriggers, rfl, .rfl, .inr (not_not.mp (mt hiff.mpr hne))⟩

/-- **A path that has gone stays recorded**, and every call clears the caches. -/
theorem not_settles (h : Gone now st.statResetTriggers) : ¬ Settles now initial st := by
  have hcall : ∀ st : ResetState τ κ, Gone now st.statResetTriggers →
      (doStatResetTriggers now initial st).generation = st.generation + 1 ∧
        Gone now (doStatResetTriggers now initial st).statResetTriggers := by
    intro st hst
    obtain ⟨triggers, hcall, hgone, -⟩ | ⟨-, -, hnone⟩ := doStatResetTriggers_cases now initial st
    · rw [hcall]
      exact ⟨rfl, hgone.mpr hst⟩
    · exact absurd hst hnone
  have hgone : ∀ n, Gone now ((doStatResetTriggers now initial)^[n] st).statResetTriggers := by
    intro n
    induction n with
    | zero => exact h
    | succ n ih =>
      rw [iterate_succ_apply']
      exact (hcall _ ih).2
  rintro ⟨n, hn⟩
  have hsame := (hn n le_rfl).1
  rw [iterate_succ_apply', (hcall _ (hgone n)).1] at hsame
  omega

/-- **If no path has gone**, every call that clears the caches leaves less news. -/
theorem exists_fixed (initial : κ) (h : ¬ Gone now st.statResetTriggers) :
    ∃ n, doStatResetTriggers now initial ((doStatResetTriggers now initial)^[n] st) =
      (doStatResetTriggers now initial)^[n] st := by
  induction hcount : newsCount now st.statResetTriggers using Nat.strong_induction_on
    generalizing st with
  | _ k ih =>
    obtain ⟨triggers, hcall, hgone, hless | hgone'⟩ | ⟨hcall, -⟩ :=
      doStatResetTriggers_cases now initial st
    · have hst : ¬ Gone now (doStatResetTriggers now initial st).statResetTriggers := by
        rw [hcall]
        exact mt hgone.mp h
      obtain ⟨n, hn⟩ := ih _ (hcount ▸ hless) hst (by rw [hcall]; rfl)
      exact ⟨n + 1, by rwa [iterate_succ_apply]⟩
    · exact absurd hgone' h
    · exact ⟨0, hcall⟩

/-- **Whether the caches are left alone in the end**: if no recorded path has gone. A call
clears them whenever there is a difference. -/
theorem settles_iff (now : Listing τ) (initial : κ) (st : ResetState τ κ) :
    (Settles now initial st ↔ ¬ Gone now st.statResetTriggers) ∧
    ((∃ t ∈ st.statResetTriggers, ∃ path ∈ now.glob t.globExpr,
        t.stamps.lookup path ≠ some (now.stamp path)) ∨ Gone now st.statResetTriggers →
      ∃ triggers, doStatResetTriggers now initial st =
        clearStatCaches initial { st with statResetTriggers := triggers }) := by
  refine ⟨⟨fun h hgone => not_settles hgone h, fun h => ?_⟩, fun h => ?_⟩
  · obtain ⟨n₀, hfixed⟩ := exists_fixed initial h
    refine ⟨n₀, fun n hn => ?_⟩
    obtain ⟨k, rfl⟩ := Nat.exists_eq_add_of_le' hn
    rw [iterate_succ_apply', iterate_add_apply,
      iterate_fixed hfixed, hfixed]
    exact ⟨rfl, rfl⟩
  · obtain ⟨triggers, hcall, -⟩ | ⟨-, hnone, hgone⟩ := doStatResetTriggers_cases now initial st
    · exact ⟨triggers, hcall⟩
    · obtain ⟨t, ht, path, hpath, hne⟩ := h.resolve_right hgone
      exact absurd hne (of_decide_eq_false (recordNews_eq_none_iff.mp hnone t ht path hpath))

/-- **A path that was removed**: the caches are cleared in every call. -/
theorem not_settles_removed :
    ¬ Settles ⟨fun _ => [], fun _ => (), fun _ => nodup_nil⟩ ()
      ⟨[⟨[42], AList.singleton [97] ()⟩], 1, ()⟩ :=
  not_settles ⟨_, mem_cons_self, [97], mem_singleton_self _, not_mem_nil⟩

end Distcc.IncludeServer
