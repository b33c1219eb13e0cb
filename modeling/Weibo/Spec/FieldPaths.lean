import Weibo.Model.FieldOperators

/-!
# Fields of JSON records

What `GetField`, `SetField` and `DeleteField` do to a record, by the laws of nested maps, and from
these what one `renameFields` step and a `selectFields` step do.

## Key results

- `field_laws`: a write is seen at its own path and at no path apart from it, and a call that
  fails writes nothing
- `rename_moves_iff`: when a rename keeps the value it moves
- `select_projects`: a selection has the values of the selected fields and nothing else
-/

namespace Weibo

open List

open NestedMap (Apart)

/-! ## Paths -/

/-- The segments of a path, none if it is malformed. -/
def segments (path : String) : List String :=
  match splitPath path with
  | .ok segs => segs
  | .error _ => []

/-- Neither of two paths begins with the other; both are well-formed then. -/
def PathsApart (p q : String) : Prop := Apart (segments p) (segments q)

theorem splitPath_ne_nil {path : String} {segs : List String} (h : splitPath path = .ok segs) :
    segs ≠ [] := by
  unfold splitPath at h
  simp only at h
  split_ifs at h
  rw [← Except.ok.inj h, Ne, map_eq_nil_iff]
  exact splitOn_ne_nil _ _

@[simp] theorem getField_eq (d : Object) (p : String) :
    getField d p = objectView.get d (segments p) := by
  unfold getField segments
  split <;> simp [NestedMap.View.get, *]

@[simp] theorem setField_fst (d : Object) (p : String) (v : Value) :
    (setField d p v).1 = (objectView.set v d (segments p)).1 := by
  unfold setField segments
  split
  · simp [NestedMap.View.set, *]
  · rename_i segs h
    simp only [h]
    split <;> simp [*]

theorem setField_snd_eq_none {d : Object} {p : String} {v : Value} :
    (setField d p v).2 = none ↔ segments p ≠ [] ∧ (objectView.set v d (segments p)).2 = none := by
  unfold setField segments
  split
  · simp [*]
  · rename_i segs h
    simp only [h]
    split <;> simp [*, splitPath_ne_nil h]

@[simp] theorem deleteField_fst (d : Object) (p : String) :
    (deleteField d p).1 = (objectView.delete d (segments p)).1 := by
  unfold deleteField segments
  split
  · simp [NestedMap.View.delete, *]
  · rename_i segs h
    simp only [h]
    split <;> simp [*]

theorem deleteField_snd_eq_none {d : Object} {p : String} :
    (deleteField d p).2 = none ↔ segments p ≠ [] ∧ (objectView.delete d (segments p)).2 = none := by
  unfold deleteField segments
  split
  · simp [*]
  · rename_i segs h
    simp only [h]
    split <;> simp [*, splitPath_ne_nil h]

/-! ## Reading and writing -/

/-- How the fields of a record are read and written. -/
structure FieldLaws (d : Object) (p : String) (v : Value) : Prop where
  set_self : (setField d p v).2 = none → getField (setField d p v).1 p = some v
  set_apart : ∀ q, PathsApart p q → getField (setField d p v).1 q = getField d q
  set_error : (setField d p v).2 ≠ none → (setField d p v).1 = d
  delete_self : (deleteField d p).2 = none → getField (deleteField d p).1 p = none
  delete_apart : ∀ q, PathsApart p q → getField (deleteField d p).1 q = getField d q
  delete_again : (deleteField d p).2 = none →
    (deleteField (deleteField d p).1 p).1 = (deleteField d p).1
  delete_error : (deleteField d p).2 ≠ none → (deleteField d p).1 = d

theorem field_laws (d : Object) (p : String) (v : Value) : FieldLaws d p v where
  set_self h := by
    obtain ⟨hne, h⟩ := setField_snd_eq_none.mp h
    rw [getField_eq, setField_fst, objectView.get_set hne h]
  set_apart q hq := by
    rw [getField_eq, getField_eq, setField_fst, objectView.get_set_apart hq]
  set_error h := by
    rw [setField_fst]
    rw [Ne, setField_snd_eq_none, not_and_or, not_not] at h
    cases h with
    | inl hnil => rw [hnil, NestedMap.View.set]
    | inr h => exact objectView.set_eq_of_conflict h
  delete_self h := by
    rw [getField_eq, deleteField_fst, objectView.get_delete (deleteField_snd_eq_none.mp h).2]
  delete_apart q hq := by
    rw [getField_eq, getField_eq, deleteField_fst, objectView.get_delete_apart hq]
  delete_again h := by
    rw [deleteField_fst, deleteField_fst, objectView.delete_delete (deleteField_snd_eq_none.mp h).2]
  delete_error h := by
    rw [deleteField_fst]
    rw [Ne, deleteField_snd_eq_none, not_and_or, not_not] at h
    cases h with
    | inl hnil => rw [hnil, NestedMap.View.delete]
    | inr h => exact objectView.delete_eq_of_conflict h

/-! ## Renames -/

/-- One `renameFields` step moves the value `v` from one path to another. -/
structure RenameMoves (d : Object) (fromPath toPath : String) (v : Value) : Prop where
  arrives : getField (renameFields [⟨fromPath, toPath⟩] d) toPath = some v
  leaves : PathsApart fromPath toPath →
    getField (renameFields [⟨fromPath, toPath⟩] d) fromPath = none
  others : ∀ q, PathsApart fromPath q → PathsApart toPath q →
    getField (renameFields [⟨fromPath, toPath⟩] d) q = getField d q
  self : fromPath = toPath → renameFields [⟨fromPath, toPath⟩] d = d

/-- A rename that is carried out is a write and a removal. -/
theorem renameFields_eq {d : Object} {fromPath toPath : String} {v : Value}
    (hv : getField d fromPath = some v) (hset : (setField d toPath v).2 = none) :
    renameFields [⟨fromPath, toPath⟩] d =
      (deleteField (setField d toPath v).1 fromPath).1 := by
  rw [renameFields, foldl_cons, foldl_nil, renameField, hv]
  simp only
  split
  · rename_i heq
    simp [heq] at hset
  · rename_i heq
    rw [heq]

/-- Removing a field that is there succeeds. -/
theorem delete_get {d : Object} {p : List String} {v : Value} (h : objectView.get d p = some v) :
    objectView.get (objectView.delete d p).1 p = none := by
  apply objectView.get_delete
  by_contra hne
  rw [objectView.get_eq_none_of_conflict hne] at h
  simp at h

/-- A rename whose source is present and whose destination can be written moves the value exactly if
    the destination does not begin with the source and, where the source begins with the
    destination, the value has no field of its own at the rest of the path. -/
theorem rename_moves_iff {d : Object} {fromPath toPath : String} {v : Value}
    (hv : getField d fromPath = some v) (hset : (setField d toPath v).2 = none) :
    RenameMoves d fromPath toPath v ↔
      ¬ segments fromPath <+: segments toPath ∧
        ∀ rest, segments fromPath = segments toPath ++ rest →
          objectView.get d (segments fromPath ++ rest) = none := by
  have hout := renameFields_eq hv hset
  obtain ⟨hT, hset⟩ := setField_snd_eq_none.mp hset
  rw [getField_eq] at hv
  have hF := objectView.ne_nil_of_get hv
  rw [deleteField_fst, setField_fst] at hout
  -- what is written is there, until the source is removed
  have hto := objectView.get_set hT hset
  have hothers : ∀ q, PathsApart fromPath q → PathsApart toPath q →
      getField (renameFields [⟨fromPath, toPath⟩] d) q = getField d q := by
    intro q hf ht
    rw [getField_eq, getField_eq, hout, objectView.get_delete_apart hf, objectView.get_set_apart ht]
  by_cases hFT : segments fromPath <+: segments toPath
  · -- the value is removed with the source
    refine iff_of_false (fun h => ?_) (fun h => h.1 hFT)
    have harrives := h.arrives
    rw [getField_eq, hout] at harrives
    obtain ⟨q, hq⟩ := hFT
    cases q with
    | nil =>
      rw [append_nil] at hq
      rw [hq, delete_get hto] at harrives
      simp at harrives
    | cons k q =>
      have hne := cons_ne_nil k q
      rw [← hq] at hto harrives
      obtain ⟨w, es, hw, -, -⟩ := objectView.get_of_append hF hne hto
      rw [hq] at hw
      rw [objectView.get_append_eq_none hF hne (hq ▸ delete_get hw)] at harrives
      simp at harrives
  by_cases hTF : segments toPath <+: segments fromPath
  · -- the rest of the path is removed from the value
    obtain ⟨rest, hrest⟩ := hTF
    have hne : rest ≠ [] := by
      rintro rfl
      rw [append_nil] at hrest
      exact hFT (hrest ▸ prefix_rfl)
    have hfield : getField (renameFields [⟨fromPath, toPath⟩] d) toPath =
        some (objectView.deleteIn v rest) := by
      rw [getField_eq, hout, ← hrest, objectView.get_delete_append hT hne hto]
    have hkeeps : objectView.deleteIn v rest = v ↔
        objectView.get d (segments fromPath ++ rest) = none := by
      rw [objectView.deleteIn_eq_self_iff, objectView.get_append d hF hne, hv]
      simp [Option.bind_eq_none_iff]
    constructor
    · intro h
      refine ⟨hFT, fun rest' hrest' => ?_⟩
      obtain rfl : rest = rest' := append_cancel_left (hrest.trans hrest')
      exact hkeeps.mp (Option.some.inj (hfield.symm.trans h.arrives))
    · intro h
      exact {
        arrives := by rw [hfield, hkeeps.mpr (h.2 rest hrest.symm)]
        leaves := fun hapart => absurd ⟨rest, hrest⟩ hapart.2
        others := hothers
        self := fun heq => absurd (heq ▸ prefix_rfl) hFT }
  · have hapart : PathsApart fromPath toPath := ⟨hFT, hTF⟩
    refine iff_of_true ?_ ⟨hFT, fun rest hrest => absurd ⟨rest, hrest.symm⟩ hTF⟩
    exact {
      arrives := by rw [getField_eq, hout, objectView.get_delete_apart hapart, hto]
      leaves := fun _ => by
        rw [getField_eq, hout]
        rw [← objectView.get_set_apart hapart.symm v] at hv
        exact delete_get hv
      others := hothers
      self := fun heq => absurd (heq ▸ prefix_rfl) hFT }

/-- A field of an object takes the place of the object. -/
theorem rename_moves_out_of_object :
    let d : Object := [("customer", .object [("id", .number "7"), ("name", .string "Ada")])]
    RenameMoves d "customer.id" "customer" (.number "7") := by
  intro d
  have hiff : RenameMoves d "customer.id" "customer" (.number "7") ↔ _ := rename_moves_iff rfl rfl
  refine hiff.mpr ⟨by decide, fun rest hrest => ?_⟩
  obtain rfl : ["id"] = rest := (cons.inj hrest).2
  rfl

/-- A field that is renamed to itself is lost, and so is one that is moved into itself. -/
theorem rename_onto_itself_loses_field :
    let d : Object := [("status", .string "paid")]
    let e : Object := [("address", .object [("city", .string "Oslo")])]
    (setField d "status" (.string "paid")).2 = none ∧
      ¬ RenameMoves d "status" "status" (.string "paid") ∧
      renameFields [⟨"status", "status"⟩] d = [] ∧
      (setField e "address.home" (.object [("city", .string "Oslo")])).2 = none ∧
      ¬ RenameMoves e "address" "address.home" (.object [("city", .string "Oslo")]) ∧
      renameFields [⟨"address", "address.home"⟩] e = [] := by
  intro d e
  refine ⟨rfl, fun h => ?_, rfl, rfl, fun h => ?_, rfl⟩
  · have hlost : getField (renameFields [⟨"status", "status"⟩] d) "status" = none := rfl
    rw [h.arrives] at hlost
    simp at hlost
  · have hlost : getField (renameFields [⟨"address", "address.home"⟩] e) "address.home" = none := rfl
    rw [h.arrives] at hlost
    simp at hlost

/-! ## Selections -/

/-- `out` has the selected fields of `d` and nothing else. -/
structure Projects (fields : List String) (d out : Object) : Prop where
  same : ∀ f ∈ fields, getField out f = getField d f
  only : ∀ q, getField out q ≠ none → ∃ f ∈ fields, getField d f ≠ none ∧
    (segments f <+: segments q ∨ segments q <+: segments f)
  again : selectFields fields out = out

theorem selectFields_eq (fields : List String) (d : Object) :
    selectFields fields d = objectView.copy d [] (fields.map segments) := by
  unfold selectFields NestedMap.View.copy
  rw [foldl_map]
  congr 1
  funext out f
  rw [getField_eq]
  cases objectView.get d (segments f) with
  | none => rfl
  | some v => exact setField_fst out f v

theorem selectFields_projects (fields : List String) (d : Object) :
    Projects fields d (selectFields fields d) := by
  rw [selectFields_eq]
  obtain ⟨hwithin, hkeep, hfrom⟩ := (objectView.within_empty d).copy (fields.map segments)
  have hsame : ∀ f ∈ fields, objectView.get (objectView.copy d [] (fields.map segments))
      (segments f) = objectView.get d (segments f) := by
    intro f hf
    cases hd : objectView.get d (segments f) with
    | some v => exact hkeep _ v hd (.inl (mem_map_of_mem hf))
    | none =>
      -- what the selection has there the record would have, too
      by_contra hne
      obtain ⟨w, hw⟩ := Option.ne_none_iff_exists'.mp hne
      obtain ⟨w', hw', -⟩ := hwithin _ w hw
      simp [hd] at hw'
  exact {
    same := fun f hf => by rw [getField_eq, getField_eq, hsame f hf]
    only := by
      intro q hq
      rw [getField_eq] at hq
      cases hfrom _ hq with
      | inl h => simp at h
      | inr h =>
        obtain ⟨p, hp, hd, hrel⟩ := h
        obtain ⟨f, hf, rfl⟩ := mem_map.mp hp
        exact ⟨f, hf, by rwa [getField_eq], hrel⟩
    again := by
      rw [selectFields_eq]
      apply objectView.copy_congr
      intro p hp
      obtain ⟨f, hf, rfl⟩ := mem_map.mp hp
      exact hsame f hf }

/-- The object of a record is what it is decoded to. -/
theorem parsed_map_decodeJSON {r : ParsedRecord} {data : JSONRecord} (h : decodeJSON r = .ok data) : { r with parsed := r.parsed.map fun _ => data } = r := by
  unfold decodeJSON at h
  split at h
  · rename_i hparsed
    rw [hparsed, Option.map_some, ← Except.ok.inj h, ← hparsed]
  · rename_i hparsed
    rw [hparsed, Option.map_none, ← hparsed]

/-- A selection is a projection of its input, and selecting once more changes neither the object nor
    the record. -/
theorem select_projects (fields : List String) (d : Object) :
    Projects fields d (selectFields fields d) ∧
      ∀ marshal r r', buildSelect marshal ⟨fields⟩ r = .ok r' →
        buildSelect marshal ⟨fields⟩ r' = .ok r' := by
  refine ⟨selectFields_projects fields d, fun marshal r r' h => ?_⟩
  unfold buildSelect applyMap at h
  split at h
  · -- a record that is not decoded is passed on again
    rename_i hdecode
    cases h
    rw [buildSelect, applyMap, hdecode]
  · rename_i data hdecode
    simp only at h
    have hagain := (selectFields_projects fields (data.getD [])).again
    split at h
    · -- so is one that is not encoded: the selection leaves its object alone
      rename_i hmarshal
      rw [parsed_map_decodeJSON hdecode] at h
      cases h
      simp [buildSelect, applyMap, hdecode, hmarshal, parsed_map_decodeJSON hdecode]
    · rename_i b hmarshal
      cases h
      simp [buildSelect, applyMap, decodeJSON, hagain, hmarshal]

end Weibo
