import Mathlib.Data.List.Infix
import Mathlib.Data.Nat.Notation

/-!
# Nested maps

A map is a list of entries, of which the first with a key counts; some of its values are maps
again. `View.get`, `View.set` and `View.delete` follow a path of keys through the levels. `set`
creates the maps that are missing on the way and stops at a value that is no map, as does
`delete`; both then name the path of that value.

The laws are those of a lens, for paths that are not prefixes of each other; for the others
there is `View.get_append`.
-/

namespace NestedMap

open List Option

variable {κ V : Type*} [DecidableEq κ] {es out d : List (κ × V)} {p q : List κ} {k k' : κ} {v : V}

/-! ## Entries -/

/-- Gives a key a value: in place of the value it has, or in a new entry at the end. -/
def put (k : κ) (v : V) : List (κ × V) → List (κ × V)
  | [] => [(k, v)]
  | e :: es => if e.1 = k then (k, v) :: es else e :: put k v es

/-- Removes the entries with a key. -/
def erase (k : κ) (es : List (κ × V)) : List (κ × V) := es.filter fun e => e.1 ≠ k

@[simp] theorem lookup_put_self (k : κ) (v : V) (es : List (κ × V)) :
    (put k v es).lookup k = some v := by
  induction es with
  | nil => simp [put]
  | cons e es ih =>
    unfold put
    split
    · simp
    · rename_i hne
      rw [lookup_cons, beq_eq_false_iff_ne.mpr (Ne.symm hne)]
      exact ih

theorem lookup_put_ne (h : k' ≠ k) (v : V) (es : List (κ × V)) :
    (put k v es).lookup k' = es.lookup k' := by
  induction es with
  | nil => simp [put, lookup_cons, beq_eq_false_iff_ne.mpr h]
  | cons e es ih =>
    unfold put
    split
    · rename_i heq
      rw [lookup_cons, lookup_cons, heq, beq_eq_false_iff_ne.mpr h]
    · rw [lookup_cons, lookup_cons, ih]

theorem isSome_lookup_iff : (es.lookup k).isSome = true ↔ k ∈ es.map Prod.fst := by
  induction es with
  | nil => simp
  | cons e es ih =>
    rw [lookup_cons]
    by_cases h : k = e.1
    · simp [h]
    · rw [beq_eq_false_iff_ne.mpr h, map_cons, mem_cons, or_iff_right h, ← ih]

/-- Writing the value that is there changes nothing. -/
theorem put_self (h : es.lookup k = some v) : put k v es = es := by
  induction es with
  | nil => simp at h
  | cons e es ih =>
    unfold put
    rw [lookup_cons] at h
    split
    · rename_i heq
      rw [heq, beq_self_eq_true] at h
      cases h
      rw [← heq]
    · rename_i hne
      rw [beq_eq_false_iff_ne.mpr (Ne.symm hne)] at h
      rw [ih h]

@[simp] theorem lookup_erase_self (k : κ) (es : List (κ × V)) : (erase k es).lookup k = none := by
  rw [lookup_eq_none_iff]
  intro e he
  have hne : e.1 ≠ k := by simpa using (mem_filter.mp he).2
  simpa using Ne.symm hne

theorem lookup_erase_ne (h : k' ≠ k) (es : List (κ × V)) :
    (erase k es).lookup k' = es.lookup k' := by
  induction es with
  | nil => rfl
  | cons e es ih =>
    unfold erase at ih ⊢
    by_cases heq : e.1 = k
    · rw [filter_cons_of_neg (by simp [heq]), ih, lookup_cons, heq, beq_eq_false_iff_ne.mpr h]
    · rw [filter_cons_of_pos (by simp [heq]), lookup_cons, lookup_cons, ih]

theorem erase_eq_self_iff : erase k es = es ↔ es.lookup k = none := by
  rw [erase, filter_eq_self, lookup_eq_none_iff]
  simp only [ne_eq, decide_not, Bool.not_eq_true', decide_eq_false_iff_not, bne_iff_ne]
  exact forall₂_congr fun e _ => ne_comm

/-! ## Paths -/

/-- Which values are maps. -/
structure View (κ V : Type*) where
  asObject : V → Option (List (κ × V))
  ofObject : List (κ × V) → V
  asObject_ofObject : ∀ es, asObject (ofObject es) = some es
  ofObject_asObject : ∀ {v es}, asObject v = some es → ofObject es = v

/-- Neither path begins with the other. -/
def Apart (p q : List κ) : Prop := ¬ p <+: q ∧ ¬ q <+: p

omit [DecidableEq κ] in
theorem Apart.symm (h : Apart p q) : Apart q p := ⟨h.2, h.1⟩

omit [DecidableEq κ] in
theorem Apart.ne_nil (h : Apart p q) : p ≠ [] ∧ q ≠ [] :=
  ⟨fun hp => h.1 (hp ▸ nil_prefix), fun hq => h.2 (hq ▸ nil_prefix)⟩

omit [DecidableEq κ] in
theorem Apart.tail (h : Apart (k :: p) (k :: q)) : Apart p q := by
  unfold Apart at h ⊢
  simpa only [cons_prefix_cons, true_and] using h

namespace View

variable (W : View κ V) {W : View κ V}

attribute [simp] asObject_ofObject

/-- The value at a path. -/
def get : List (κ × V) → List κ → Option V
  | _, [] => none
  | es, [k] => es.lookup k
  | es, k :: k' :: ks =>
    (es.lookup k).bind fun v => (W.asObject v).bind fun es' => get es' (k' :: ks)

/-- Writes a value at a path: the entries then, and the path of the value in the way if there is
    one. -/
def set (v : V) : List (κ × V) → List κ → List (κ × V) × Option (List κ)
  | es, [] => (es, none)
  | es, [k] => (put k v es, none)
  | es, k :: k' :: ks =>
    match es.lookup k with
    | none =>
      let r := set v [] (k' :: ks)
      (put k (W.ofObject r.1) es, r.2.map (k :: ·))
    | some w =>
      match W.asObject w with
      | none => (es, some [k])
      | some es' =>
        let r := set v es' (k' :: ks)
        (put k (W.ofObject r.1) es, r.2.map (k :: ·))

/-- Removes what is at a path: the entries then, and the path of the value in the way if there is
    one. -/
def delete : List (κ × V) → List κ → List (κ × V) × Option (List κ)
  | es, [] => (es, none)
  | es, [k] => (erase k es, none)
  | es, k :: k' :: ks =>
    match es.lookup k with
    | none => (es, none)
    | some w =>
      match W.asObject w with
      | none => (es, some [k])
      | some es' =>
        let r := delete es' (k' :: ks)
        (put k (W.ofObject r.1) es, r.2.map (k :: ·))

/-! ### One level -/

theorem get_put_self (k : κ) (v : V) (es : List (κ × V)) : W.get (put k v es) [k] = some v := by
  simp [get]

theorem get_put_ne (h : k' ≠ k) (v : V) (es : List (κ × V)) (ks : List κ) :
    W.get (put k v es) (k' :: ks) = W.get es (k' :: ks) := by
  cases ks with
  | nil => simp [get, lookup_put_ne h]
  | cons k'' ks => simp [get, lookup_put_ne h]

theorem get_put_ofObject (k : κ) (es es' : List (κ × V)) {ks : List κ} (h : ks ≠ []) :
    W.get (put k (W.ofObject es') es) (k :: ks) = W.get es' ks := by
  cases ks with
  | nil => exact absurd rfl h
  | cons k' ks => simp [get]

theorem get_erase_ne (h : k' ≠ k) (es : List (κ × V)) (ks : List κ) :
    W.get (erase k es) (k' :: ks) = W.get es (k' :: ks) := by
  cases ks with
  | nil => simp [get, lookup_erase_ne h]
  | cons k'' ks => simp [get, lookup_erase_ne h]

theorem get_of_lookup {w : V} {es' : List (κ × V)} (hk : es.lookup k = some w)
    (hw : W.asObject w = some es') {ks : List κ} (h : ks ≠ []) :
    W.get es (k :: ks) = W.get es' ks := by
  cases ks with
  | nil => exact absurd rfl h
  | cons k' ks => simp [get, hk, hw]

/-- A level that is written back as it was. -/
theorem put_ofObject {w : V} {es' : List (κ × V)} (hk : es.lookup k = some w)
    (hw : W.asObject w = some es') : put k (W.ofObject es') es = es :=
  put_self (hk.trans (congrArg some (W.ofObject_asObject hw).symm))

@[simp] theorem get_empty (p : List κ) : W.get [] p = none := by
  match p with
  | [] => rfl
  | [k] => rfl
  | k :: k' :: ks => rfl

theorem ne_nil_of_get (h : W.get es p = some v) : p ≠ [] := by
  rintro rfl
  simp [get] at h

/-! ### Longer paths -/

theorem get_append (es : List (κ × V)) (hp : p ≠ []) (hq : q ≠ []) :
    W.get es (p ++ q) = (W.get es p).bind fun v => (W.asObject v).bind fun es' => W.get es' q := by
  induction p generalizing es with
  | nil => exact absurd rfl hp
  | cons k p ih =>
    obtain ⟨k₂, q, rfl⟩ := exists_cons_of_ne_nil hq
    cases p with
    | nil => simp [get]
    | cons k' p =>
      have ih' := fun es => ih es (cons_ne_nil k' p)
      simp only [cons_append] at ih' ⊢
      simp only [get, ih', bind_assoc]

/-- What is at the beginning of a path with something at its end. -/
theorem get_of_append (hp : p ≠ []) (hq : q ≠ []) (h : W.get es (p ++ q) = some v) :
    ∃ w es', W.get es p = some w ∧ W.asObject w = some es' ∧ W.get es' q = some v := by
  rw [W.get_append es hp hq] at h
  obtain ⟨w, hw, h⟩ := bind_eq_some_iff.mp h
  obtain ⟨es', hes, h⟩ := bind_eq_some_iff.mp h
  exact ⟨w, es', hw, hes, h⟩

theorem get_append_eq_none (hp : p ≠ []) (hq : q ≠ []) (h : W.get es p = none) : W.get es (p ++ q) = none := by
  rw [W.get_append es hp hq, h, bind_none]

/-! ### Writing -/

/-- Below an empty map nothing is in the way. -/
theorem set_empty (v : V) (p : List κ) : (W.set v [] p).2 = none := by
  induction p with
  | nil => rfl
  | cons k p ih =>
    cases p with
    | nil => rfl
    | cons k' p => simp [set, ih]

theorem get_set (hp : p ≠ []) (h : (W.set v es p).2 = none) : W.get (W.set v es p).1 p = some v := by
  induction p generalizing es with
  | nil => exact absurd rfl hp
  | cons k p ih =>
    cases p with
    | nil => exact W.get_put_self k v es
    | cons k' p =>
      have hne := cons_ne_nil k' p
      unfold set at h ⊢
      split at h
      · rw [W.get_put_ofObject k es _ hne, ih hne (W.set_empty v _)]
      · split at h
        · simp at h
        · rw [W.get_put_ofObject k es _ hne, ih hne (by simpa using h)]

theorem get_set_apart (h : Apart p q) (v : V) (es : List (κ × V)) :
    W.get (W.set v es p).1 q = W.get es q := by
  induction p generalizing es q with
  | nil => exact absurd rfl h.ne_nil.1
  | cons k p ih =>
    obtain ⟨k₂, q, rfl⟩ := exists_cons_of_ne_nil h.ne_nil.2
    -- only the entry of the first key is written
    by_cases hk : k₂ = k
    · subst hk
      obtain ⟨hp, hq⟩ := h.tail.ne_nil
      obtain ⟨k', p, rfl⟩ := exists_cons_of_ne_nil hp
      obtain ⟨k'', q, rfl⟩ := exists_cons_of_ne_nil hq
      unfold set
      split
      · rename_i hl
        rw [W.get_put_ofObject k₂ es _ hq, ih h.tail, get_empty, get, hl, bind_none]
      · rename_i w hl
        split
        · rfl
        · rename_i es' hw
          rw [W.get_put_ofObject k₂ es _ hq, ih h.tail, W.get_of_lookup hl hw hq]
    · cases p with
      | nil => exact W.get_put_ne hk v es q
      | cons k' p =>
        unfold set
        split
        · exact W.get_put_ne hk _ es q
        · split
          · rfl
          · exact W.get_put_ne hk _ es q

/-- What stops a `set` is a value at a proper prefix of the path, and nothing is written. -/
theorem set_conflict {r : List κ} (h : (W.set v es p).2 = some r) :
    (W.set v es p).1 = es ∧ r ≠ [] ∧ (∃ q, q ≠ [] ∧ p = r ++ q) ∧
      ∃ w, W.get es r = some w ∧ W.asObject w = none := by
  induction p generalizing es r with
  | nil => simp [set] at h
  | cons k p ih =>
    cases p with
    | nil => simp [set] at h
    | cons k' p =>
      unfold set at h ⊢
      split at h
      · simp [W.set_empty] at h
      rename_i w hl
      split at h
      · rename_i hw
        cases h
        exact ⟨rfl, cons_ne_nil _ _, ⟨k' :: p, cons_ne_nil _ _, rfl⟩, w, hl, hw⟩
      · rename_i es' hw
        obtain ⟨r', hr', rfl⟩ := map_eq_some_iff.mp h
        obtain ⟨heq, hne, ⟨q, hq, hp⟩, u, hu, hobj⟩ := ih hr'
        exact ⟨by simp only [heq, W.put_ofObject hl hw], cons_ne_nil _ _,
          ⟨q, hq, by rw [hp, cons_append]⟩, u, by rw [W.get_of_lookup hl hw hne, hu], hobj⟩

theorem set_eq_of_conflict (h : (W.set v es p).2 ≠ none) : (W.set v es p).1 = es := by
  obtain ⟨r, hr⟩ := ne_none_iff_exists'.mp h
  exact (W.set_conflict hr).1

/-- Writing the value that is there changes nothing. -/
theorem set_self (h : W.get es p = some v) : W.set v es p = (es, none) := by
  induction p generalizing es with
  | nil => rfl
  | cons k p ih =>
    cases p with
    | nil => rw [set, put_self h]
    | cons k' p =>
      obtain ⟨w, hl, h⟩ := bind_eq_some_iff.mp h
      obtain ⟨es', hw, h⟩ := bind_eq_some_iff.mp h
      simp [set, hl, hw, ih h, W.put_ofObject hl hw]

/-! ### Removing -/

theorem get_delete (h : (W.delete es p).2 = none) : W.get (W.delete es p).1 p = none := by
  induction p generalizing es with
  | nil => rfl
  | cons k p ih =>
    cases p with
    | nil => exact lookup_erase_self k es
    | cons k' p =>
      unfold delete at h ⊢
      split at h
      · rename_i hl
        rw [get, hl, bind_none]
      · split at h
        · simp at h
        · rw [W.get_put_ofObject k es _ (cons_ne_nil k' p), ih (by simpa using h)]

theorem get_delete_apart (h : Apart p q) (es : List (κ × V)) :
    W.get (W.delete es p).1 q = W.get es q := by
  induction p generalizing es q with
  | nil => exact absurd rfl h.ne_nil.1
  | cons k p ih =>
    obtain ⟨k₂, q, rfl⟩ := exists_cons_of_ne_nil h.ne_nil.2
    by_cases hk : k₂ = k
    · subst hk
      obtain ⟨hp, hq⟩ := h.tail.ne_nil
      obtain ⟨k', p, rfl⟩ := exists_cons_of_ne_nil hp
      unfold delete
      split
      · rfl
      · rename_i w hl
        split
        · rfl
        · rename_i es' hw
          rw [W.get_put_ofObject k₂ es _ hq, ih h.tail, W.get_of_lookup hl hw hq]
    · cases p with
      | nil => exact W.get_erase_ne hk es q
      | cons k' p =>
        unfold delete
        split
        · rfl
        · split
          · rfl
          · exact W.get_put_ne hk _ es q

/-- A `delete` changes the entries exactly if there is something at the path. -/
theorem delete_eq_self_iff : (W.delete es p).1 = es ↔ W.get es p = none := by
  induction p generalizing es with
  | nil => simp [delete, get]
  | cons k p ih =>
    cases p with
    | nil => exact erase_eq_self_iff
    | cons k' p =>
      have hne := cons_ne_nil k' p
      unfold delete
      split
      · rename_i hl
        simp [get, hl]
      · rename_i w hl
        split
        · rename_i hw
          simp [get, hl, hw]
        · rename_i es' hw
          rw [W.get_of_lookup hl hw hne, ← ih]
          constructor
          · intro heq
            have hlook := congrArg (List.lookup k) heq
            rw [lookup_put_self, hl] at hlook
            have hobj := congrArg W.asObject (some.inj hlook)
            rw [asObject_ofObject, hw] at hobj
            exact some.inj hobj
          · intro heq
            simp only [heq, W.put_ofObject hl hw]

/-- Removing again changes nothing. -/
theorem delete_delete (h : (W.delete es p).2 = none) :
    (W.delete (W.delete es p).1 p).1 = (W.delete es p).1 :=
  W.delete_eq_self_iff.mpr (W.get_delete h)

/-- Where a value is in the way there is nothing to remove. -/
theorem get_eq_none_of_conflict (h : (W.delete es p).2 ≠ none) : W.get es p = none := by
  induction p generalizing es with
  | nil => rfl
  | cons k p ih =>
    cases p with
    | nil => simp [delete] at h
    | cons k' p =>
      unfold delete at h
      split at h
      · simp at h
      rename_i w hl
      split at h
      · rename_i hw
        simp [get, hl, hw]
      · rename_i es' hw
        rw [W.get_of_lookup hl hw (cons_ne_nil k' p)]
        exact ih (by simpa using h)

theorem delete_eq_of_conflict (h : (W.delete es p).2 ≠ none) : (W.delete es p).1 = es :=
  W.delete_eq_self_iff.mpr (W.get_eq_none_of_conflict h)

/-- A value of which a part is removed. -/
def deleteIn (v : V) (q : List κ) : V :=
  match W.asObject v with
  | none => v
  | some es => W.ofObject (W.delete es q).1

theorem get_delete_append (hp : p ≠ []) (hq : q ≠ []) (h : W.get es p = some v) : W.get (W.delete es (p ++ q)).1 p = some (W.deleteIn v q) := by
  obtain ⟨k₂, q, rfl⟩ := exists_cons_of_ne_nil hq
  induction p generalizing es with
  | nil => exact absurd rfl hp
  | cons k p ih =>
    cases p with
    | nil =>
      have hl : es.lookup k = some v := h
      simp only [cons_append, nil_append, delete, hl, deleteIn]
      split
      · exact hl
      · exact W.get_put_self k _ es
    | cons k' p =>
      have hne := cons_ne_nil k' p
      obtain ⟨w, hl, h⟩ := bind_eq_some_iff.mp h
      obtain ⟨es', hw, h⟩ := bind_eq_some_iff.mp h
      simp only [cons_append, delete, hl, hw]
      rw [W.get_put_ofObject k es _ hne]
      exact ih hne h

theorem deleteIn_eq_self_iff :
    W.deleteIn v q = v ↔ ∀ es, W.asObject v = some es → W.get es q = none := by
  unfold deleteIn
  split
  · rename_i hv
    simp [hv]
  · rename_i es hv
    simp only [hv, some.injEq, forall_eq', ← W.delete_eq_self_iff]
    constructor
    · intro heq
      have hobj := congrArg W.asObject heq
      rw [asObject_ofObject, hv] at hobj
      exact some.inj hobj
    · intro heq
      rw [heq, W.ofObject_asObject hv]

/-! ## Projections -/

/-- Copies what `d` has at some paths into a map. -/
def copy (d : List (κ × V)) (out : List (κ × V)) (ps : List (List κ)) : List (κ × V) :=
  ps.foldl (fun out p =>
    match W.get d p with
    | some v => (W.set v out p).1
    | none => out) out

/-- Where `out` has something `d` has the same, or both have a map. -/
def Within (out d : List (κ × V)) : Prop :=
  ∀ q w, W.get out q = some w →
    ∃ w', W.get d q = some w' ∧ (w = w' ∨ (W.asObject w).isSome ∧ (W.asObject w').isSome)

theorem within_empty (d : List (κ × V)) : W.Within [] d := fun q w h => by simp at h

/-- Nothing is in the way of a copy. -/
theorem Within.set_ok (hw : W.Within out d) (hv : W.get d p = some v) : (W.set v out p).2 = none := by
  by_contra hne
  obtain ⟨r, hr⟩ := ne_none_iff_exists'.mp hne
  obtain ⟨-, hrne, ⟨q, hq, rfl⟩, w, hget, hobj⟩ := W.set_conflict hr
  obtain ⟨w', hw', hor⟩ := hw r w hget
  obtain ⟨u, es', hu, hes, -⟩ := W.get_of_append hrne hq hv
  obtain rfl := some.inj (hw'.symm.trans hu)
  cases hor with
  | inl heq => simp [heq, hes] at hobj
  | inr hboth => simp [hobj] at hboth

theorem Within.set (hw : W.Within out d) (hv : W.get d p = some v) : W.Within (W.set v out p).1 d := by
  intro q w hq
  have hp := W.ne_nil_of_get hv
  have hself := W.get_set hp (hw.set_ok hv)
  by_cases hpq : p <+: q
  · -- below the copied value both have the same
    obtain ⟨r, rfl⟩ := hpq
    cases r with
    | nil =>
      rw [append_nil] at hq ⊢
      exact ⟨v, hv, .inl (some.inj (hq.symm.trans hself))⟩
    | cons k r =>
      have hr := cons_ne_nil k r
      rw [W.get_append _ hp hr, hself] at hq
      exact ⟨w, by rw [W.get_append _ hp hr, hv, hq], .inl rfl⟩
  by_cases hqp : q <+: p
  · -- above it there are maps in both
    obtain ⟨r, rfl⟩ := hqp
    have hqne := W.ne_nil_of_get hq
    have hr : r ≠ [] := by
      rintro rfl
      exact hpq (by simp)
    obtain ⟨u, es, hu, hes, -⟩ := W.get_of_append hqne hr hself
    obtain ⟨u', es', hu', hes', -⟩ := W.get_of_append hqne hr hv
    obtain rfl := some.inj (hq.symm.trans hu)
    exact ⟨u', hu', .inr ⟨by simp [hes], by simp [hes']⟩⟩
  · rw [W.get_set_apart ⟨hpq, hqp⟩] at hq
    exact hw q w hq

/-- A copied value stays what it is when more is copied. -/
theorem Within.get_set (hw : W.Within out d) {w : V} (hv : W.get d p = some v)
    (hd : W.get d q = some w) (hq : W.get out q = some w) : W.get (W.set v out p).1 q = some w := by
  have hp := W.ne_nil_of_get hv
  have hself := W.get_set hp (hw.set_ok hv)
  by_cases hpq : p <+: q
  · obtain ⟨r, rfl⟩ := hpq
    cases r with
    | nil =>
      rw [append_nil] at hd ⊢
      rw [hself, ← hv, hd]
    | cons k r =>
      have hr := cons_ne_nil k r
      rw [W.get_append _ hp hr, hself, ← hd, W.get_append _ hp hr, hv]
  by_cases hqp : q <+: p
  · -- the value copied is the one that is there already
    obtain ⟨r, rfl⟩ := hqp
    have hqne := W.ne_nil_of_get hq
    have hr : r ≠ [] := by
      rintro rfl
      exact hpq (by simp)
    have hsame : W.get out (q ++ r) = some v := by
      rw [W.get_append _ hqne hr, hq, ← hv, W.get_append _ hqne hr, hd]
    rw [W.set_self hsame, hq]
  · rw [W.get_set_apart ⟨hpq, hqp⟩, hq]

/-- What a copy of some paths has: it lies within the original, keeps what is there already and has
    what the original has at the paths; and it has nothing that is not above or below one of
    them. -/
theorem Within.copy (hw : W.Within out d) (ps : List (List κ)) :
    W.Within (W.copy d out ps) d ∧ (∀ q w, W.get d q = some w → (q ∈ ps ∨ W.get out q = some w) →
        W.get (W.copy d out ps) q = some w) ∧
      ∀ q, W.get (W.copy d out ps) q ≠ none → W.get out q ≠ none ∨
        ∃ p ∈ ps, W.get d p ≠ none ∧ (p <+: q ∨ q <+: p) := by
  induction ps generalizing out with
  | nil => simpa [View.copy] using hw
  | cons p ps ih =>
    cases hv : W.get d p with
    | none =>
      have hstep : W.copy d out (p :: ps) = W.copy d out ps := by simp [View.copy, hv]
      rw [hstep]
      obtain ⟨hwithin, hkeep, hfrom⟩ := ih hw
      refine ⟨hwithin, ?_, ?_⟩
      · intro q w hd hq
        have hqp : q ≠ p := by
          rintro rfl
          simp [hv] at hd
        exact hkeep q w hd (hq.imp_left fun h => (mem_cons.mp h).resolve_left hqp)
      · intro q hq
        exact (hfrom q hq).imp_right fun ⟨p', hp', h⟩ => ⟨p', mem_cons_of_mem p hp', h⟩
    | some v =>
      have hstep : W.copy d out (p :: ps) = W.copy d (W.set v out p).1 ps := by
        simp [View.copy, hv]
      rw [hstep]
      obtain ⟨hwithin, hkeep, hfrom⟩ := ih (hw.set hv)
      refine ⟨hwithin, ?_, ?_⟩
      · intro q w hd hq
        apply hkeep q w hd
        by_cases hqp : q = p
        · subst hqp
          exact .inr (by rw [W.get_set (W.ne_nil_of_get hv) (hw.set_ok hv), ← hv, hd])
        · exact hq.imp (fun h => (mem_cons.mp h).resolve_left hqp) (hw.get_set hv hd)
      · intro q hq
        cases hfrom q hq with
        | inr h =>
          obtain ⟨p', hp', h⟩ := h
          exact .inr ⟨p', mem_cons_of_mem p hp', h⟩
        | inl h =>
          by_cases hrel : p <+: q ∨ q <+: p
          · exact .inr ⟨p, mem_cons_self, by simp [hv], hrel⟩
          · rw [not_or] at hrel
            rw [W.get_set_apart hrel] at h
            exact .inl h

/-- A copy depends on the original at the paths only. -/
theorem copy_congr {d' : List (κ × V)} (out : List (κ × V)) {ps : List (List κ)}
    (h : ∀ p ∈ ps, W.get d p = W.get d' p) : W.copy d out ps = W.copy d' out ps := by
  induction ps generalizing out with
  | nil => rfl
  | cons p ps ih =>
    have hp := h p mem_cons_self
    have ih' := fun out => ih out fun p' hp' => h p' (mem_cons_of_mem p hp')
    unfold copy at ih' ⊢
    rw [foldl_cons, foldl_cons, hp]
    exact ih' _

end View

end NestedMap
