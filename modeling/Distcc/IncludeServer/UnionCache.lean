import Mathlib.Data.Finset.Dedup
import Mathlib.Data.Finset.Lattice.Lemmas

/-!
# The numbers of sets of symbols

In `Support` a record has a set of symbols. In the code it has a number
that stands for the set (`UnionCache`, `include_server/include_analyzer_memoizing_node.py`), so
that unions can be remembered, and the records of a symbol are only brought up to date when the
number of a record changes.

This is right, whatever the order of the operations (`IdMaster.run_bookkeeping`): a set keeps
its number, two sets never share one (`UnionCache.Numbered`), and so a record whose number
stays the same has nothing new in its set.
-/

namespace Distcc.IncludeServer

open List

variable {σ : Type}

/-- `UnionCache`: sets and their unions, represented by numbers. -/
structure UnionCache (σ : Type) where
  /-- The set of a number. -/
  members : ℕ → Option (Finset σ) := fun _ => none
  /-- The numbers of unions that are known. -/
  cache : ℕ × ℕ → Option ℕ := fun _ => none
  /-- The numbers of the sets, the latest one first. -/
  idMap : List (Finset σ × ℕ) := []

namespace UnionCache

variable [DecidableEq σ] {c c' : UnionCache σ} {x y : Finset σ} {a b id : ℕ}

/-- `SetId`. -/
def setId (c : UnionCache σ) (frozen : Finset σ) : ℕ × UnionCache σ :=
  match c.idMap.lookup frozen with
  | some id => (id, c)
  | none =>
    let idMap := (frozen, c.idMap.length + 1) :: c.idMap
    (idMap.length,
      { c with idMap, members := Function.update c.members idMap.length (some frozen) })

/-- `Union`; `none` for a `KeyError`. -/
def union (c : UnionCache σ) (set1Id set2Id : ℕ) : Option (ℕ × UnionCache σ) :=
  match c.cache (set1Id, set2Id) with
  | some id => some (id, c)
  | none => do
    let set1 ← c.members set1Id
    let set2 ← c.members set2Id
    let (frozenId, c) := c.setId (set1 ∪ set2)
    some (frozenId,
      { c with cache := Function.update c.cache (set1Id, set2Id) (some frozenId) })

/-- **Every set has one number**, and the unions that are known are right. -/
structure Numbered (c : UnionCache σ) : Prop where
  lookup : ∀ x id, c.idMap.lookup x = some id ↔ c.members id = some x
  bound : ∀ id x, c.members id = some x → id ≤ c.idMap.length
  cache : ∀ a b id, c.cache (a, b) = some id → ∃ x y, c.members a = some x ∧
    c.members b = some y ∧ c.members id = some (x ∪ y)

/-- **A set is given a number**, if it has none yet, and nothing else is changed. -/
structure Gives (c c' : UnionCache σ) (x : Finset σ) (id : ℕ) : Prop where
  numbered : c'.Numbered
  members : ∀ i y, c'.members i = some y ↔ c.members i = some y ∨ i = id ∧ y = x

theorem Gives.old (h : c.Gives c' x id) (ha : c.members a = some y) : c'.members a = some y :=
  (h.members a y).mpr (.inl ha)

theorem Gives.self (h : c.Gives c' x id) : c'.members id = some x :=
  (h.members id x).mpr (.inr ⟨rfl, rfl⟩)

theorem Numbered.gives_self (h : c.Numbered) (hid : c.members id = some x) : c.Gives c x id where
  numbered := h
  members i y := by
    refine ⟨.inl, ?_⟩
    rintro (hy | ⟨rfl, rfl⟩)
    · exact hy
    · exact hid

theorem Numbered.setId_gives (h : c.Numbered) (x : Finset σ) :
    c.Gives (c.setId x).2 x (c.setId x).1 := by
  cases hx : c.idMap.lookup x with
  | some id =>
    rw [setId, hx]
    exact h.gives_self ((h.lookup x id).mp hx)
  | none =>
    rw [setId, hx]
    dsimp only [length_cons]
    have hfresh : ∀ y, c.members (c.idMap.length + 1) ≠ some y :=
      fun y hy => (h.bound _ y hy).not_gt (Nat.lt_succ_self _)
    have hnew : ∀ i y, Function.update c.members (c.idMap.length + 1) (some x) i = some y ↔
        c.members i = some y ∨ i = c.idMap.length + 1 ∧ y = x := by
      intro i y
      by_cases hi : i = c.idMap.length + 1
      · subst hi
        simp [hfresh, eq_comm]
      · simp [hi]
    have hlookup := h.lookup
    have hbound := h.bound
    have hcache := h.cache
    refine ⟨⟨fun y i => ?_, fun i y hy => ?_, fun a b i hi => ?_⟩, hnew⟩
    · grind
    · grind
    · grind

/-- A union is remembered. -/
theorem Numbered.remember (h : c.Numbered) (ha : c.members a = some x) (hb : c.members b = some y)
    (hid : c.members id = some (x ∪ y)) :
    Numbered { c with cache := Function.update c.cache (a, b) (some id) } where
  lookup := h.lookup
  bound := h.bound
  cache a' b' i hi := by
    by_cases heq : (a', b') = (a, b)
    · cases heq
      simp only [Function.update_self] at hi
      exact ⟨x, y, ha, hb, Option.some.inj hi ▸ hid⟩
    · simp only [Function.update_of_ne heq] at hi
      exact h.cache a' b' i hi

/-- **`Union` returns the number of the union**, whether it was known or not, and fails if
one of the numbers stands for nothing. -/
theorem Numbered.union_cases (h : c.Numbered) (a b : ℕ) :
    (∃ x y id c', c.members a = some x ∧ c.members b = some y ∧ c.union a b = some (id, c') ∧
      c.Gives c' (x ∪ y) id) ∨
    c.union a b = none ∧ (c.members a = none ∨ c.members b = none) := by
  rw [union]
  cases hab : c.cache (a, b) with
  | some id =>
    obtain ⟨x, y, ha, hb, hid⟩ := h.cache a b id hab
    exact .inl ⟨x, y, id, c, ha, hb, rfl, h.gives_self hid⟩
  | none =>
    cases ha : c.members a with
    | none => exact .inr ⟨rfl, .inl rfl⟩
    | some x =>
      cases hb : c.members b with
      | none => exact .inr ⟨rfl, .inr rfl⟩
      | some y =>
        have hset := h.setId_gives (x ∪ y)
        have hnew := hset.numbered.remember (hset.old ha) (hset.old hb) hset.self
        exact .inl ⟨x, y, _, _, rfl, rfl, rfl, hnew, hset.members⟩

end UnionCache

/-- `SupportRecord`, with the number of its set. -/
structure IdRecord where
  /-- None of its symbols was defined since. -/
  valid : Bool := true
  /-- The number of its set. -/
  supportId : ℕ

/-- `SupportMaster`, with all records. -/
structure IdMaster (σ : Type) where
  /-- The numbers of sets. -/
  unionCache : UnionCache σ := {}
  /-- The records there are. -/
  records : ℕ → Option IdRecord := fun _ => none
  /-- The records that depend on a symbol. -/
  symbolToRecords : σ → Finset ℕ := fun _ => ∅

namespace IdMaster

/-- The support set of a record. -/
def support (m : IdMaster σ) (r : ℕ) : Finset σ :=
  ((m.records r).bind fun record => m.unionCache.members record.supportId).getD ∅

variable [DecidableEq σ]

/-- What a record is from now on. -/
def setRecord (m : IdMaster σ) (r : ℕ) (record : IdRecord) : IdMaster σ :=
  { m with records := Function.update m.records r (some record) }

/-- `SupportRecord.__init__`, for the record `r`. -/
def newRecord (m : IdMaster σ) (r : ℕ) : IdMaster σ :=
  let (id, c) := m.unionCache.setId ∅
  setRecord { m with unionCache := c } r { supportId := id }

/-- `SupportRecordDependencyAdd`. -/
def supportRecordDependencyAdd (m : IdMaster σ) (symbols : Finset σ) (r : ℕ) : IdMaster σ :=
  { m with
    symbolToRecords := fun s =>
      if s ∈ symbols then insert r (m.symbolToRecords s) else m.symbolToRecords s }

/-- `SupportRecord.Update`. -/
def update (m : IdMaster σ) (r setId : ℕ) : Option (IdMaster σ) := do
  let record ← m.records r
  let (unionId, c) ← m.unionCache.union record.supportId setId
  let m := { m with unionCache := c }
  if unionId = record.supportId then some m
  else
    let elements ← c.members setId
    some ((m.supportRecordDependencyAdd elements r).setRecord r
      { record with supportId := unionId })

/-- `SupportRecord.UpdateSet`. -/
def updateSet (m : IdMaster σ) (r : ℕ) (symbols : List σ) : Option (IdMaster σ) :=
  let (id, c) := m.unionCache.setId symbols.toFinset
  update { m with unionCache := c } r id

/-- `InvalidateRecords`. -/
def invalidateRecords (m : IdMaster σ) (symbol : σ) : IdMaster σ :=
  { m with
    records := fun r => (m.records r).map fun record =>
      if r ∈ m.symbolToRecords symbol then { record with valid := false } else record }

/-- **A run**, with the symbols passed to `InvalidateRecords` and the state at that time. -/
inductive Run : IdMaster σ → List (IdMaster σ × σ) → Prop
  | start : Run {} []
  | setId {m passed} (h : Run m passed) (members : List σ) :
      Run { m with unionCache := (m.unionCache.setId members.toFinset).2 } passed
  | union {m passed a b id c} (h : Run m passed)
      (hunion : m.unionCache.union a b = some (id, c)) : Run { m with unionCache := c } passed
  | newRecord {m passed r} (h : Run m passed) (hr : m.records r = none) :
      Run (m.newRecord r) passed
  | update {m passed r a m'} (h : Run m passed) (hupdate : m.update r a = some m') : Run m' passed
  | updateSet {m passed r symbols m'} (h : Run m passed)
      (hupdate : m.updateSet r symbols = some m') : Run m' passed
  | invalidateRecords {m passed} (h : Run m passed) (s : σ) :
      Run (m.invalidateRecords s) ((m, s) :: passed)

variable {m m' : IdMaster σ} {passed : List (IdMaster σ × σ)} {c : UnionCache σ}
  {x : Finset σ} {a id r : ℕ} {record : IdRecord}

omit [DecidableEq σ] in
theorem support_eq (hr : m.records r = some record)
    (hx : m.unionCache.members record.supportId = some x) : m.support r = x := by
  rw [support, hr, Option.bind_some, hx]
  rfl

/-- **The books are right.** -/
structure Sound (m : IdMaster σ) (passed : List (IdMaster σ × σ)) : Prop where
  numbered : m.unionCache.Numbered
  known : ∀ r record, m.records r = some record →
    ∃ x, m.unionCache.members record.supportId = some x
  reverse : ∀ s r, r ∈ m.symbolToRecords s ↔ s ∈ m.support r
  valid : ∀ r, (∃ record, m.records r = some record ∧ record.valid = false) ↔
    ∃ p ∈ passed, p.2 ∈ p.1.support r

/-- New numbers do not concern the records. -/
theorem Sound.gives (h : m.Sound passed) (hc : m.unionCache.Gives c x id) :
    Sound { m with unionCache := c } passed := by
  have hknown : ∀ r record, m.records r = some record →
      ∃ x, m.unionCache.members record.supportId = some x ∧
        c.members record.supportId = some x := fun r record hr =>
    (h.known r record hr).imp fun x hx => ⟨hx, hc.old hx⟩
  have hsupport : ∀ r, support { m with unionCache := c } r = m.support r := by
    intro r
    cases hr : m.records r with
    | none => rw [support, support, hr]; rfl
    | some record =>
      obtain ⟨z, hz, hz'⟩ := hknown r record hr
      rw [support_eq hr hz]
      exact support_eq hr hz'
  refine ⟨hc.numbered, fun r record hr => ?_, fun s r => ?_, h.valid⟩
  · obtain ⟨z, -, hz⟩ := hknown r record hr
    exact ⟨z, hz⟩
  · rw [hsupport]
    exact h.reverse s r

/-- **A record is given more symbols**, and they are given the record. -/
theorem Sound.widen (h : m.Sound passed)
    (hid : m.unionCache.members record.supportId = some (m.support r ∪ x))
    (hvalid : (∃ old, m.records r = some old ∧ old.valid = false) ↔ record.valid = false) :
    ((m.supportRecordDependencyAdd x r).setRecord r record).Sound passed := by
  have hrecords : ∀ i, ((m.supportRecordDependencyAdd x r).setRecord r record).records i =
      if i = r then some record else m.records i := Function.update_apply m.records r _
  have hsupport : ∀ i, ((m.supportRecordDependencyAdd x r).setRecord r record).support i =
      if i = r then m.support r ∪ x else m.support i := by
    intro i
    rw [support, hrecords]
    split
    · exact congrArg (Option.getD · ∅) hid
    · rfl
  refine ⟨h.numbered, fun i new hi => ?_, fun s i => ?_, fun i => ?_⟩
  · rw [hrecords] at hi
    split at hi
    · rw [← Option.some.inj hi]
      exact ⟨_, hid⟩
    · exact h.known i new hi
  · have hold := h.reverse s i
    rw [hsupport, setRecord, supportRecordDependencyAdd]
    by_cases hs : s ∈ x <;> by_cases hi : i = r <;> simp_all
  · rw [← h.valid, hrecords]
    by_cases hi : i = r
    · simp [hi, hvalid]
    · rw [if_neg hi]

theorem supportRecordDependencyAdd_empty : m.supportRecordDependencyAdd ∅ r = m := by
  simp [supportRecordDependencyAdd]

theorem Sound.newRecord (h : m.Sound passed) (hr : m.records r = none) :
    (m.newRecord r).Sound passed := by
  have hset := h.numbered.setId_gives ∅
  have hempty : support { m with unionCache := (m.unionCache.setId ∅).2 } r ∪ ∅ = ∅ := by
    rw [support, hr]
    rfl
  have hwiden := @Sound.widen _ _ _ passed ∅ r ⟨true, (m.unionCache.setId ∅).1⟩ (h.gives hset)
    (hset.self.trans (congrArg some hempty.symm)) (by simp [hr])
  rwa [supportRecordDependencyAdd_empty] at hwiden

/-- `Update` works for the records there are and the numbers that stand for sets. -/
theorem Sound.update_cases (h : m.Sound passed) (r a : ℕ) :
    (∃ m', m.update r a = some m' ∧ m'.Sound passed) ∨
    m.update r a = none ∧ (m.records r = none ∨ m.unionCache.members a = none) := by
  rw [update]
  cases hr : m.records r with
  | none => exact .inr ⟨rfl, .inl rfl⟩
  | some record =>
    obtain ⟨z, hz⟩ := h.known r record hr
    obtain ⟨z', x, id, c, hz', hx, hunion, hgives⟩ | ⟨hunion, hnone⟩ :=
      h.numbered.union_cases record.supportId a
    · obtain rfl := Option.some.inj (hz'.symm.trans hz)
      have hc := h.gives hgives
      have hx' := hgives.old hx
      refine .inl ?_
      simp only [Option.bind_eq_bind, Option.bind_some, hunion, hx']
      split
      · exact ⟨_, rfl, hc⟩
      · refine ⟨_, rfl, hc.widen ?_ (by simp [hr])⟩
        rw [support_eq (m := { m with unionCache := c }) hr (hgives.old hz)]
        exact hgives.self
    · refine .inr ⟨by simp [hunion], .inr ?_⟩
      exact hnone.resolve_left (by simp [hz])

theorem Sound.update (h : m.Sound passed) (hupdate : m.update r a = some m') :
    m'.Sound passed := by
  obtain ⟨m₁, hm1, hsound⟩ | ⟨hnone, -⟩ := h.update_cases r a
  · rw [hupdate] at hm1
    rwa [Option.some.inj hm1]
  · rw [hupdate] at hnone
    cases hnone

theorem Sound.invalidateRecords (h : m.Sound passed) (s : σ) :
    (m.invalidateRecords s).Sound ((m, s) :: passed) := by
  have hsupport : ∀ r, (m.invalidateRecords s).support r = m.support r := by
    intro r
    rw [support, support, IdMaster.invalidateRecords]
    cases hr : m.records r with
    | none => simp [hr]
    | some record => by_cases hs : r ∈ m.symbolToRecords s <;> simp [hr, hs]
  refine ⟨h.numbered, fun r new hr => ?_, fun s' r => ?_, fun r => ?_⟩
  · obtain ⟨record, hrecord, rfl⟩ := Option.map_eq_some_iff.mp hr
    obtain ⟨x, hx⟩ := h.known r record hrecord
    refine ⟨x, ?_⟩
    split
    · exact hx
    · exact hx
  · rw [hsupport]
    exact h.reverse s' r
  · have hold := h.valid r
    have hs := h.reverse s r
    rw [support] at hs
    cases hr : m.records r with
    | none => simp_all [IdMaster.invalidateRecords, support]
    | some record =>
      by_cases hmem : r ∈ m.symbolToRecords s
      · simp_all [IdMaster.invalidateRecords, support]
      · simp_all [IdMaster.invalidateRecords, support]

/-- **All runs keep the books right.** -/
theorem Run.sound (h : Run m passed) : m.Sound passed := by
  induction h with
  | start => exact ⟨⟨by simp, nofun, nofun⟩, nofun, by simp [support], by simp⟩
  | setId _ members ih => exact ih.gives (ih.numbered.setId_gives _)
  | @union m passed a b id c _ hunion ih =>
    obtain ⟨x, y, id', c', -, -, hunion', hgives⟩ | ⟨hnone, -⟩ := ih.numbered.union_cases a b
    · rw [hunion] at hunion'
      obtain ⟨-, rfl⟩ := Prod.mk.inj (Option.some.inj hunion')
      exact ih.gives hgives
    · rw [hunion] at hnone
      cases hnone
  | newRecord _ hr ih => exact ih.newRecord hr
  | update _ hupdate ih => exact ih.update hupdate
  | updateSet _ hupdate ih => exact (ih.gives (ih.numbered.setId_gives _)).update hupdate
  | invalidateRecords _ s ih => exact ih.invalidateRecords s

/-- **The bookkeeping of supports.** Numbers and the sets that were seen correspond to each
other, unions have the number of the union, symbols have the records whose support they are in,
and a record is invalid if a symbol was invalidated while it was in the support. -/
theorem run_bookkeeping (h : Run m passed) :
    (∀ x i, m.unionCache.idMap.lookup x = some i ↔ m.unionCache.members i = some x) ∧
    (∀ x i y j, m.unionCache.members i = some x → m.unionCache.members j = some y →
      (i = j ↔ x = y)) ∧
    (∀ x, m.unionCache.Gives (m.unionCache.setId x).2 x (m.unionCache.setId x).1) ∧
    (∀ x i y j, m.unionCache.members i = some x → m.unionCache.members j = some y →
      ∃ id c, m.unionCache.union i j = some (id, c) ∧ m.unionCache.Gives c (x ∪ y) id) ∧
    (∀ r i, m.records r ≠ none → m.unionCache.members i ≠ none → m.update r i ≠ none) ∧
    (∀ s r, r ∈ m.symbolToRecords s ↔ s ∈ m.support r) ∧
    ∀ r, (∃ record, m.records r = some record ∧ record.valid = false) ↔
      ∃ p ∈ passed, p.2 ∈ p.1.support r := by
  have hsound := h.sound
  refine ⟨hsound.numbered.lookup, fun x i y j hi hj => ⟨?_, ?_⟩, hsound.numbered.setId_gives,
    fun x i y j hi hj => ?_,
    fun r i hr hi hnone => ?_, hsound.reverse, hsound.valid⟩
  · rintro rfl
    exact Option.some.inj (hi.symm.trans hj)
  · rintro rfl
    have hlookup := (hsound.numbered.lookup x i).mpr hi
    exact Option.some.inj (hlookup.symm.trans ((hsound.numbered.lookup x j).mpr hj))
  · obtain ⟨x', y', id, c, hx, hy, hunion⟩ | ⟨-, hnone⟩ := hsound.numbered.union_cases i j
    · obtain rfl := Option.some.inj (hx.symm.trans hi)
      obtain rfl := Option.some.inj (hy.symm.trans hj)
      exact ⟨id, c, hunion⟩
    · simp [hi, hj] at hnone
  · obtain ⟨m', hupdate, -⟩ | ⟨-, hor⟩ := hsound.update_cases r i
    · rw [hnone] at hupdate
      cases hupdate
    · exact hor.elim hr hi

/-- A record that depends on a symbol. -/
def sampleMaster : IdMaster ℕ := ((newRecord {} 0).updateSet 0 [5]).getD {}

theorem run_bookkeeping_sample :
    Run (sampleMaster.invalidateRecords 5) [(sampleMaster, 5)] ∧
      ∃ record, (sampleMaster.invalidateRecords 5).records 0 = some record ∧
        record.valid = false := by
  have hupdate : (newRecord {} 0).updateSet 0 [5] = some sampleMaster := rfl
  have hrun : Run (sampleMaster.invalidateRecords 5) [(sampleMaster, 5)] :=
    .invalidateRecords (.updateSet (.newRecord .start rfl) hupdate) 5
  obtain ⟨-, -, -, -, -, -, hvalid⟩ := run_bookkeeping hrun
  exact ⟨hrun, (hvalid 0).mpr ⟨_, mem_singleton_self _, by decide⟩⟩

end IdMaster

end Distcc.IncludeServer
