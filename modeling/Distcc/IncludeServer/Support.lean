import Distcc.Base.CString
import Mathlib.Data.Finset.Lattice.Lemmas

/-!
# Support records

A node of the include graph depends on the macros that its computed includes mention,
and on those of the nodes below it. They are its support, and they are kept in a record
(`SupportRecord`). When one of them is defined again the record is no longer valid
(`SupportMaster.InvalidateRecords`). Sets of symbols are numbered by a `UnionCache`, and
a number is modelled by its set.

Without computed includes no record has any support, and all of them stay valid
(`SupportMaster.Unsupported`).
-/

namespace Distcc.IncludeServer

open List

/-- The macros that a node depends on. -/
structure SupportRecord where
  /-- None of them was defined since. -/
  valid : Bool := true
  /-- The set of `support_id`. -/
  support : Finset CString := ∅
deriving DecidableEq

/-- All records, by number, and for each symbol those that depend on it. -/
structure SupportMaster where
  /-- The records. -/
  records : List SupportRecord := []
  /-- The set `symbol_to_records[symbol]`. -/
  symbolToRecords : CString → Finset ℕ := fun _ => ∅

namespace SupportMaster

variable {m : SupportMaster} {r : ℕ}

/-- A new record. -/
def addRecord (m : SupportMaster) : SupportMaster := { m with records := m.records ++ [{}] }

/-- Is the record valid? -/
def isValid (m : SupportMaster) (r : ℕ) : Bool := (m.records[r]?.map SupportRecord.valid).getD true

/-- The support in a record. -/
def supportOf (m : SupportMaster) (r : ℕ) : Finset CString :=
  (m.records[r]?.map SupportRecord.support).getD ∅

/-- `support_record.valid = True`. -/
def setValid (m : SupportMaster) (r : ℕ) : SupportMaster :=
  { m with records := m.records.modify r fun record => { record with valid := true } }

/-- `SupportRecord.Update`. -/
def update (m : SupportMaster) (r : ℕ) (symbols : Finset CString) : SupportMaster :=
  let union := m.supportOf r ∪ symbols
  if union = m.supportOf r then m
  else
    { records := m.records.modify r fun record => { record with support := union }
      symbolToRecords := fun s =>
        if s ∈ symbols then insert r (m.symbolToRecords s) else m.symbolToRecords s }

/-- `InvalidateRecords`. -/
def invalidateRecords (m : SupportMaster) (symbol : CString) : SupportMaster :=
  { m with
    records := m.records.mapIdx fun r record =>
      if r ∈ m.symbolToRecords symbol then { record with valid := false } else record }

/-! ### Without support -/

/-- No record depends on anything. -/
structure Unsupported (m : SupportMaster) : Prop where
  record : ∀ record ∈ m.records, record = {}
  symbol : ∀ s, m.symbolToRecords s = ∅

theorem unsupported_default : Unsupported {} where
  record _ h := absurd h not_mem_nil
  symbol _ := rfl

section

variable (h : Unsupported m)
include h

theorem Unsupported.isValid (r : ℕ) : m.isValid r = true := by
  unfold SupportMaster.isValid
  cases hr : m.records[r]? with
  | none => rfl
  | some record =>
    rw [h.record record (mem_of_getElem? hr)]
    rfl

theorem Unsupported.supportOf (r : ℕ) : m.supportOf r = ∅ := by
  unfold SupportMaster.supportOf
  cases hr : m.records[r]? with
  | none => rfl
  | some record =>
    rw [h.record record (mem_of_getElem? hr)]
    rfl

theorem Unsupported.addRecord : Unsupported m.addRecord where
  record record hrecord := by
    obtain hold | hnew := mem_append.mp hrecord
    · exact h.record record hold
    · exact mem_singleton.mp hnew
  symbol := h.symbol

theorem Unsupported.setValid (r : ℕ) : m.setValid r = m := by
  have hrecords : (m.records.modify r fun record => { record with valid := true }) =
      m.records := by
    refine ext_getElem? fun i => ?_
    rw [getElem?_modify]
    cases hi : m.records[i]? with
    | none => rfl
    | some record =>
      have hrecord := h.record record (mem_of_getElem? hi)
      rw [hrecord]
      split <;> rfl
  rw [SupportMaster.setValid, hrecords]

end

/-- Nothing is added by a child that depends on nothing. -/
theorem update_empty : m.update r ∅ = m := by
  rw [update, Finset.union_empty, if_pos rfl]

theorem Unsupported.invalidateRecords (h : Unsupported m) (symbol : CString) :
    m.invalidateRecords symbol = m := by
  have hrecords : (m.records.mapIdx fun r record =>
      if r ∈ m.symbolToRecords symbol then { record with valid := false } else record) =
      m.records := by
    refine ext_getElem? fun i => ?_
    rw [getElem?_mapIdx]
    cases m.records[i]? with
    | none => rfl
    | some record => simp [h.symbol symbol]
  rw [SupportMaster.invalidateRecords, hrecords]

end SupportMaster

end Distcc.IncludeServer
