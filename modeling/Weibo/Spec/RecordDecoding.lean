import Weibo.Model.FieldOperators

/-!
# What the map operators decode

A record's value is decoded as a stream of which the first JSON value is taken. The operators should
accept a blank value and a value that is one JSON object, and pass on all others.

## Key result

- `mapsTotal_iff`: for which values they do
-/

namespace Weibo

open JsonReader (isSpace)

/-! ## Texts -/

/-- The text of a JSON object, from its first character to its last. -/
def IsObjectText (cs : List Char) : Prop := ∃ es, jsonBuilder.first cs = some (.object es, [])

/-- The text of a JSON null. -/
def IsNullText (cs : List Char) : Prop := jsonBuilder.first cs = some (.nil, [])

/-- One JSON object with white space around it. -/
def IsSingleObject (cs : List Char) : Prop :=
  ∃ before text after, cs = before ++ text ++ after ∧ before.all isSpace = true ∧
    IsObjectText text ∧ after.all isSpace = true

/-- The values that are for the operators. -/
def Decodable (value : Bytes) : Prop :=
  isBlank (Utf8.decodeUtf8 value) = true ∨ IsSingleObject (Utf8.decodeUtf8 value)

/-- A value that starts with an object has nothing but white space after it, and no value starts
    with a null. -/
def EndsWithObject (value : Bytes) : Prop :=
  ∀ before text after, Utf8.decodeUtf8 value = before ++ text ++ after →
    before.all isSpace = true →
    ¬ IsNullText text ∧ (IsObjectText text → after.all isSpace = true)

theorem object_ne_number (es : Object) (s : String) : Value.object es ≠ jsonBuilder.number s := by
  simp [jsonBuilder]

theorem nil_ne_number (s : String) : Value.nil ≠ jsonBuilder.number s := by
  simp [jsonBuilder]

theorem isSingleObject_iff {cs : List Char} : IsSingleObject cs ↔
      ∃ es rest, jsonBuilder.first cs = some (.object es, rest) ∧ rest.all isSpace = true := by
  constructor
  · intro ⟨before, text, after, hcs, hbefore, ⟨es, hes⟩, hafter⟩
    exact ⟨es, after, (jsonBuilder.first_eq_iff (object_ne_number es)).mpr
      ⟨before, text, hcs, hbefore, hes⟩, hafter⟩
  · intro ⟨es, rest, hfirst, hrest⟩
    obtain ⟨before, text, hcs, hbefore, hes⟩ :=
      (jsonBuilder.first_eq_iff (object_ne_number es)).mp hfirst
    exact ⟨before, text, rest, hcs, hbefore, ⟨es, hes⟩, hrest⟩

theorem endsWithObject_iff {value : Bytes} : EndsWithObject value ↔
      (∀ rest, jsonBuilder.first (Utf8.decodeUtf8 value) ≠ some (.nil, rest)) ∧
        ∀ es rest, jsonBuilder.first (Utf8.decodeUtf8 value) = some (.object es, rest) →
          rest.all isSpace = true := by
  constructor
  · intro h
    refine ⟨fun rest hfirst => ?_, fun es rest hfirst => ?_⟩
    · obtain ⟨before, text, hcs, hbefore, hnil⟩ :=
        (jsonBuilder.first_eq_iff nil_ne_number).mp hfirst
      exact (h before text rest hcs hbefore).1 hnil
    · obtain ⟨before, text, hcs, hbefore, hes⟩ :=
        (jsonBuilder.first_eq_iff (object_ne_number es)).mp hfirst
      exact (h before text rest hcs hbefore).2 ⟨es, hes⟩
  · intro ⟨hnull, hobject⟩ before text after hcs hbefore
    refine ⟨fun hnil => ?_, fun ⟨es, hes⟩ => ?_⟩
    · exact hnull after ((jsonBuilder.first_eq_iff nil_ne_number).mpr
        ⟨before, text, hcs, hbefore, hnil⟩)
    · exact hobject es after ((jsonBuilder.first_eq_iff (object_ne_number es)).mpr
        ⟨before, text, hcs, hbefore, hes⟩)

/-- No value starts with a character of white space that JSON does not know. -/
theorem start_of_isSpaceRune {c : Char} (h : isSpaceRune c = true)
    (stack : List (JsonReader.Frame Value)) : jsonBuilder.start c stack = .fail := by
  have hne : ∀ d, isSpaceRune d = false → c ≠ d := by
    rintro d hd rfl
    simp [hd] at h
  have hdigit : ¬ c.isDigit = true := by
    intro hd
    have hrange : 48 ≤ c.toNat ∧ c.toNat ≤ 57 := by
      simpa [Char.isDigit, UInt32.le_iff_toNat_le] using hd
    simp only [isSpaceRune, Bool.or_eq_true, Bool.and_eq_true, decide_eq_true_eq] at h
    omega
  unfold JsonReader.Builder.start
  rw [if_neg (hne _ (by decide)), if_neg (hne _ (by decide)), if_neg (hne _ (by decide)),
    if_neg (hne _ (by decide)), if_neg (hne _ (by decide)), if_neg hdigit,
    if_neg (hne _ (by decide)), if_neg (hne _ (by decide)), if_neg (hne _ (by decide))]

/-- In a blank text there is no value. -/
theorem first_of_isBlank {cs : List Char} (h : isBlank cs = true) : jsonBuilder.first cs = none := by
  induction cs with
  | nil => rfl
  | cons c cs ih =>
    rw [isBlank, List.all_cons, Bool.and_eq_true] at h
    unfold JsonReader.Builder.first at ih ⊢
    rw [JsonReader.Builder.run, JsonReader.Builder.step]
    by_cases hc : isSpace c = true
    · rw [if_pos hc]
      exact ih h.2
    · rw [if_neg hc, start_of_isSpaceRune h.1]
      rfl

/-! ## Decoding -/

/-- What the decoder makes of a value. -/
theorem decodeJSONBytes_eq_ok {value : Bytes} {data : JSONRecord} :
    decodeJSONBytes value = .ok data ↔ (isBlank (Utf8.decodeUtf8 value) = true ∧ data = some []) ∨
      (∃ es rest, jsonBuilder.first (Utf8.decodeUtf8 value) = some (.object es, rest) ∧
        data = some es) ∨
      ∃ rest, jsonBuilder.first (Utf8.decodeUtf8 value) = some (.nil, rest) ∧ data = none := by
  unfold decodeJSONBytes
  simp only
  by_cases hblank : isBlank (Utf8.decodeUtf8 value) = true
  · simp [hblank, first_of_isBlank hblank, eq_comm]
  · rw [if_neg hblank]
    split
    · simp [*]
    · simp [*, eq_comm]
    · simp [*, eq_comm]
    · rename_i p hobject hnil hfirst
      rw [hfirst]
      refine iff_of_false (by simp) ?_
      rintro (⟨h, -⟩ | ⟨es, rest, h, -⟩ | ⟨rest, h, -⟩)
      · exact hblank h
      · exact hobject es rest (Option.some.inj h)
      · exact hnil rest (Option.some.inj h)

/-! ## The operators -/

/-- A map operator of a workflow, built from a configuration that is valid. -/
inductive MapOperator where
  | select (cfg : SelectConfig) (valid : cfg.validate = .ok ())
  | rename (cfg : RenameConfig) (valid : cfg.validate = .ok ())
  | set (cfg : SetConfig) (valid : cfg.validate = .ok ())

def MapOperator.apply (marshal : Marshal) (r : ParsedRecord) :
    MapOperator → Except Panic ParsedRecord
  | .select cfg _ => buildSelect marshal cfg r
  | .rename cfg _ => buildRename marshal cfg r
  | .set cfg _ => buildSet marshal cfg r

/-- How the operators treat records with a value and no object yet. -/
structure MapsTotal (value : Bytes) : Prop where
  accepts : (∃ data, decodeJSONBytes value = .ok data) ↔ Decodable value
  usable : ∀ data, decodeJSONBytes value = .ok data → ∃ es, data = some es
  noPanic : ∀ (op : MapOperator) (marshal : Marshal) (r : ParsedRecord),
    r.value = value → r.parsed = none → ∃ r', op.apply marshal r = .ok r'
  unchanged : ¬ Decodable value → ∀ (op : MapOperator) (marshal : Marshal) (r : ParsedRecord),
    r.value = value → r.parsed = none → op.apply marshal r = .ok r

/-- Writing to a map that is not nil does not panic. -/
theorem foldlM_assignField (sets : List FieldSet) (es : Object) :
    ∃ es', sets.foldlM assignField (some es) = .ok (some es') := by
  induction sets generalizing es with
  | nil => exact ⟨es, rfl⟩
  | cons s sets ih => exact ih (setField es s.field s.value).1

variable {marshal : Marshal} {r : ParsedRecord}

theorem applyMap_of_error {transform : JSONRecord → Except Panic (JSONRecord × JSONRecord)}
    {e : DecodeError} (h : decodeJSON r = .error e) : applyMap marshal r transform = .ok r := by
  rw [applyMap, h]

theorem applyMap_of_ok
    {transform : JSONRecord → Except Panic (JSONRecord × JSONRecord)} {data : JSONRecord}
    {out : JSONRecord × JSONRecord} (h : decodeJSON r = .ok data) (hout : transform data = .ok out) :
    ∃ r', applyMap marshal r transform = .ok r' := by
  rw [applyMap, h]
  simp only [hout]
  split
  · exact ⟨_, rfl⟩
  · exact ⟨_, rfl⟩

/-- A record that is not decoded is passed on. -/
theorem MapOperator.apply_of_error (op : MapOperator)
    {e : DecodeError} (h : decodeJSON r = .error e) : op.apply marshal r = .ok r := by
  unfold apply buildSelect buildRename buildSet
  cases op with
  | select cfg valid => exact applyMap_of_error h
  | rename cfg valid => exact applyMap_of_error h
  | set cfg valid => exact applyMap_of_error h

theorem MapOperator.apply_of_ok (op : MapOperator)
    {es : Object} (h : decodeJSON r = .ok (some es)) : ∃ r', op.apply marshal r = .ok r' := by
  unfold apply buildSelect buildRename buildSet
  cases op with
  | select cfg valid => exact applyMap_of_ok h rfl
  | rename cfg valid => exact applyMap_of_ok h rfl
  | set cfg valid =>
    obtain ⟨es', hes⟩ := foldlM_assignField cfg.sets es
    apply applyMap_of_ok h
    rw [hes]

end Weibo
