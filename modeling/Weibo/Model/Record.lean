import Mathlib.Data.List.AList

/-!
# Stream records (`types/record.go`)

The unit that flows through a pipeline is a data record, a watermark or a
checkpoint barrier, told apart by two flags.  Go strings and byte slices are
both `Bytes`; times are nanoseconds since the Unix epoch.  The `Parsed` view of
the value is read by no modelled function and left out.
-/

namespace Weibo

/-- A Go byte slice or string. -/
abbrev Bytes := List UInt8

/-- A Go `map[string]V`. -/
abbrev GoMap (V : Type) := AList fun _ : String => V

/-- A record of the stream. -/
structure Record where
  key : Bytes := []
  value : Bytes := []
  timestamp : Int := 0
  offset : Int := 0
  partition : Int := 0
  headers : GoMap Bytes := ∅
  isWatermark : Bool := false
  isBarrier : Bool := false
  checkpointID : String := ""
deriving DecidableEq

namespace Record

/-- A watermark: no record with an event time below `ts` follows. -/
def newWatermark (ts : Int) : Record := { timestamp := ts, isWatermark := true }

/-- A barrier of the given checkpoint. -/
def newBarrier (checkpointID : String) : Record :=
  { checkpointID := checkpointID, isBarrier := true }

/-- Neither a watermark nor a barrier. -/
def isData (r : Record) : Bool := !r.isWatermark && !r.isBarrier

/-- A record that stages broadcast and align instead of processing. -/
def isMarker (r : Record) : Bool := r.isBarrier || r.isWatermark

/-- A barrier as the operators see it: they test for a watermark first. -/
def isCut (r : Record) : Bool := r.isBarrier && !r.isWatermark

theorem isMarker_of_isCut (r : Record) (h : r.isCut = true) : r.isMarker = true := by
  obtain ⟨hb, -⟩ := Bool.and_eq_true_iff.mp h
  rw [isMarker, hb]
  rfl

theorem isMarker_of_not_isCut {r : Record} (h : r.isCut = false) : r.isMarker = r.isWatermark := by
  cases hw : r.isWatermark with
  | true => rw [isMarker, hw, Bool.or_true]
  | false =>
    rw [isCut, hw] at h
    rw [isMarker, hw, Bool.or_false]
    simpa using h

theorem isMarker_eq_not_isData (r : Record) : r.isMarker = !r.isData := by
  rw [isMarker, isData, Bool.not_and, Bool.not_not, Bool.not_not, Bool.or_comm]

theorem isMarker_eq_true {r : Record} : r.isMarker = true ↔ r.isData = false := by
  rw [isMarker_eq_not_isData, Bool.not_eq_true']

theorem isMarker_eq_false {r : Record} : r.isMarker = false ↔ r.isData = true := by
  rw [isMarker_eq_not_isData, Bool.not_eq_false']

/-- What an operator's loop distinguishes. -/
theorem kind_cases (r : Record) :
    (r.isCut = true ∧ r.isWatermark = false ∧ r.isBarrier = true ∧ r.isData = false) ∨
      (r.isWatermark = true ∧ r.isCut = false ∧ r.isData = false) ∨
      (r.isMarker = false ∧ r.isWatermark = false ∧ r.isBarrier = false ∧ r.isCut = false ∧
        r.isData = true) := by
  rw [isCut, isMarker, isData]
  cases r.isWatermark <;> cases r.isBarrier <;> decide

@[simp] theorem newBarrier_isData (id : String) : (newBarrier id).isData = false := rfl

@[simp] theorem newBarrier_isCut (id : String) : (newBarrier id).isCut = true := rfl

end Record

end Weibo
