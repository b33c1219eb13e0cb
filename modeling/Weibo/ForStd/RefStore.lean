import Mathlib.Data.List.Nodup
import Mathlib.Data.List.Perm.Subperm
import Weibo.ForStd.NestedMap

/-!
# Nested maps in a store

Maps that are shared by reference: a store has a list of entries for each reference, and a value in
an entry is an atom or a reference. `get`, `set` and `delete` follow a path from a reference, as
those of `NestedMap` do, but write in place, so that a map is changed for all that refer to it.

Two stores in which the same maps lie at other places are related by `graft`: it puts maps behind
the first `c` of a store and moves the rest. No operation can tell the difference.

## Key results

- `load_graft`, `get_graft`, `set_graft`, `delete_graft`: the operations commute with `graft`
- `take_set`, `take_delete`: a write changes only the map it is aimed at
- `tree_eq_some`: a map that can be read at all is read in as many steps as there are maps
-/

open NestedMap

namespace RefStore

open List Option

variable {κ A : Type*} {c r n m : ℕ}

/-- A value: an atom, or a reference to a map. -/
inductive Slot (A : Type*) where
  | atom (a : A)
  | ref (r : ℕ)

/-- The maps, by their references. -/
abbrev Store (κ A : Type*) := List (List (κ × Slot A))

/-- The entries of a map. -/
def entries (h : Store κ A) (r : ℕ) : List (κ × Slot A) := h.getD r []

/-! ## Operations -/

section Operations

variable [DecidableEq κ]

/-- The value at a path. -/
def get (h : Store κ A) : ℕ → List κ → Option (Slot A)
  | _, [] => none
  | r, [k] => (entries h r).lookup k
  | r, k :: k' :: ks =>
    match (entries h r).lookup k with
    | some (.ref r') => get h r' (k' :: ks)
    | _ => none

/-- Writes a value at a path, creating the maps that are missing on the way: the store then, and
    whether there was nothing in the way. -/
def set (s : Slot A) : Store κ A → ℕ → List κ → Store κ A × Bool
  | h, _, [] => (h, true)
  | h, r, [k] => (h.set r (NestedMap.put k s (entries h r)), true)
  | h, r, k :: k' :: ks =>
    match (entries h r).lookup k with
    | none =>
      set s (h.set r (NestedMap.put k (.ref h.length) (entries h r)) ++ [[]]) h.length (k' :: ks)
    | some (.ref r') => set s h r' (k' :: ks)
    | some (.atom _) => (h, false)

/-- Removes what is at a path. -/
def delete (h : Store κ A) : ℕ → List κ → Store κ A
  | _, [] => h
  | r, [k] => h.set r (NestedMap.erase k (entries h r))
  | r, k :: k' :: ks =>
    match (entries h r).lookup k with
    | some (.ref r') => delete h r' (k' :: ks)
    | _ => h

/-- The map of the store into which `set` writes. -/
def setTarget (h : Store κ A) : ℕ → List κ → Option ℕ
  | _, [] => none
  | r, [_] => some r
  | r, k :: k' :: ks =>
    match (entries h r).lookup k with
    | none => some r
    | some (.ref r') => setTarget h r' (k' :: ks)
    | some (.atom _) => none

/-- The map of the store into which `delete` writes. -/
def deleteTarget (h : Store κ A) : ℕ → List κ → Option ℕ
  | _, [] => none
  | r, [_] => some r
  | r, k :: k' :: ks =>
    match (entries h r).lookup k with
    | some (.ref r') => deleteTarget h r' (k' :: ks)
    | _ => none

theorem length_le_set (s : Slot A) (h : Store κ A) (r : ℕ) (p : List κ) :
    h.length ≤ (set s h r p).1.length := by
  induction p generalizing h r with
  | nil => simp [set]
  | cons k p ih =>
    cases p with
    | nil => simp [set]
    | cons k' p =>
      unfold set
      split
      · exact Nat.le_trans (by simp) (ih _ _)
      · exact ih _ _
      · exact Nat.le_refl _

theorem length_delete (h : Store κ A) (r : ℕ) (p : List κ) : (delete h r p).length = h.length := by
  induction p generalizing r with
  | nil => rfl
  | cons k p ih =>
    cases p with
    | nil => simp [delete]
    | cons k' p =>
      unfold delete
      split
      · exact ih _
      · rfl

theorem take_set_of_le {α : Type*} {l : List α} (h : c ≤ r) (a : α) :
    (l.set r a).take c = l.take c := by
  rw [take_set, set_eq_of_length_le (by simp; omega)]

omit [DecidableEq κ] in
@[simp] theorem entries_append_length (h : Store κ A) (es : List (κ × Slot A)) :
    entries (h ++ [es]) h.length = es := by
  simp [entries]

theorem setTarget_of_empty {h : Store κ A} (hr : entries h r = []) (k : κ) (ks : List κ) :
    setTarget h r (k :: ks) = some r := by
  cases ks with
  | nil => rfl
  | cons k' ks => simp [setTarget, hr]

/-- A write that is aimed at a later map leaves the first maps alone. -/
theorem take_set {s : Slot A} {h : Store κ A} {p : List κ} (hc : c ≤ h.length)
    (ht : ∀ t, setTarget h r p = some t → c ≤ t) : (set s h r p).1.take c = h.take c := by
  induction p generalizing h r with
  | nil => rfl
  | cons k p ih =>
    cases p with
    | nil => exact take_set_of_le (ht r rfl) _
    | cons k' p =>
      unfold set
      unfold setTarget at ht
      split
      · rename_i hl
        simp only [hl] at ht
        -- behind the missing map everything is new
        generalize hh : h.set r (put k (.ref h.length) (entries h r)) = h₁
        have hlen : h₁.length = h.length := by rw [← hh, length_set]
        have hempty : entries (h₁ ++ [[]]) h.length = [] := by
          rw [← hlen, entries_append_length]
        rw [ih (by simp; omega), take_append_of_le_length (by omega), ← hh,
          take_set_of_le (ht r rfl)]
        intro t ht'
        rw [setTarget_of_empty hempty] at ht'
        cases ht'
        exact hc
      · rename_i r' hl
        simp only [hl] at ht
        exact ih hc ht
      · rfl

theorem take_delete {h : Store κ A} {p : List κ} (ht : ∀ t, deleteTarget h r p = some t → c ≤ t) : (delete h r p).take c = h.take c := by
  induction p generalizing r with
  | nil => rfl
  | cons k p ih =>
    cases p with
    | nil => exact take_set_of_le (ht r rfl) _
    | cons k' p =>
      unfold delete
      unfold deleteTarget at ht
      split
      · rename_i r' hl
        simp only [hl] at ht
        exact ih ht
      · rfl

end Operations

/-! ## Reading maps as trees -/

section Load

variable {T : Type*} (leaf : A → T) (node : List (κ × T) → T) {h : Store κ A} {s : Slot A}

/-- The entries of a map with their values read. -/
def loadEntries (f : Slot A → Option T) : List (κ × Slot A) → Option (List (κ × T))
  | [] => some []
  | (k, s) :: es => (f s).bind fun v => (loadEntries f es).map ((k, v) :: ·)

/-- The tree at a value, read through at most `n` references on a way. -/
def load (h : Store κ A) : ℕ → Slot A → Option T
  | _, .atom a => some (leaf a)
  | 0, .ref _ => none
  | n + 1, .ref r => (loadEntries (load h n) (entries h r)).map node

/-- The tree at a value; there is none if it is cyclic. -/
def tree (h : Store κ A) (s : Slot A) : Option T := load leaf node h (h.length + 1) s

theorem loadEntries_mono {f g : Slot A → Option T} {es : List (κ × Slot A)} {vs : List (κ × T)}
    (hfg : ∀ e ∈ es, ∀ v, (e.1, v) ∈ vs → f e.2 = some v → g e.2 = some v)
    (h : loadEntries f es = some vs) : loadEntries g es = some vs := by
  induction es generalizing vs with
  | nil => exact h
  | cons e es ih =>
    obtain ⟨v, hv, h⟩ := bind_eq_some_iff.mp h
    obtain ⟨ws, hws, rfl⟩ := map_eq_some_iff.mp h
    have hg := hfg e mem_cons_self v mem_cons_self hv
    have hrest := ih (fun e' he' w hw =>
      hfg e' (mem_cons_of_mem e he') w (mem_cons_of_mem _ hw)) hws
    simp [loadEntries, hg, hrest]

theorem load_succ {v : T} (hv : load leaf node h n s = some v) :
    load leaf node h (n + 1) s = some v := by
  induction n generalizing s v with
  | zero =>
    cases s with
    | atom a => exact hv
    | ref r => simp [load] at hv
  | succ n ih =>
    cases s with
    | atom a => exact hv
    | ref r =>
      obtain ⟨vs, hvs, rfl⟩ := map_eq_some_iff.mp hv
      rw [load, loadEntries_mono (fun e _ w _ hw => ih hw) hvs, map_some]

theorem load_le (hnm : n ≤ m) {v : T} (hv : load leaf node h n s = some v) : load leaf node h m s = some v := by
  induction hnm with
  | refl => exact hv
  | step _ ih => exact load_succ leaf node ih

theorem load_unique {v w : T}
    (hv : load leaf node h n s = some v) (hw : load leaf node h m s = some w) : v = w := by
  have hv := load_le leaf node (Nat.le_max_left n m) hv
  have hw := load_le leaf node (Nat.le_max_right n m) hw
  exact some.inj (hv.symm.trans hw)

variable {leaf node} {size : T → ℕ} (hsize : ∀ es, ∀ e ∈ es, size e.2 < size (node es))
include hsize

/-- On the way to a value the maps in `above` have been passed, each of which has a tree that is
    larger: so they differ, and are fewer than the maps of the store. -/
theorem load_of_above {v : T} {above : List ℕ} (hnodup : above.Nodup)
    (habove : ∀ q ∈ above, q < h.length ∧
      ∃ m w, load leaf node h m (.ref q) = some w ∧ size v < size w)
    (hv : load leaf node h n s = some v) :
    load leaf node h (h.length + 1 - above.length) s = some v := by
  induction n generalizing s v above with
  | zero =>
    cases s with
    | atom a => cases hlen : h.length + 1 - above.length <;> exact hv
    | ref r => simp [load] at hv
  | succ n ih =>
    cases s with
    | atom a => cases hlen : h.length + 1 - above.length <;> exact hv
    | ref r =>
      obtain ⟨vs, hvs, rfl⟩ := map_eq_some_iff.mp hv
      have hle : above.length ≤ h.length := by
        have hsub : above ⊆ range h.length :=
          fun q hq => mem_range.mpr (habove q hq).1
        simpa using (hnodup.subperm hsub).length_le
      obtain ⟨k, hk⟩ : ∃ k, h.length + 1 - above.length = k + 1 := ⟨h.length - above.length, by omega⟩
      rw [hk, load]
      by_cases hr : r < h.length
      · -- a map that has been passed would be inside itself
        have hnotMem : r ∉ above := by
          intro hmem
          obtain ⟨-, m, w, hw, hlt⟩ := habove r hmem
          rw [load_unique leaf node hv hw] at hlt
          exact absurd hlt (Nat.lt_irrefl _)
        have hk' : k = h.length + 1 - (r :: above).length := by
          rw [length_cons]
          omega
        rw [hk', loadEntries_mono ?_ hvs, map_some]
        intro e _ w hmem hw
        have hlt := hsize vs _ hmem
        refine ih (nodup_cons.mpr ⟨hnotMem, hnodup⟩) (fun q hq => ?_) hw
        cases mem_cons.mp hq with
        | inl heq =>
          subst heq
          exact ⟨hr, n + 1, node vs, hv, hlt⟩
        | inr hq =>
          obtain ⟨hlen, m, u, hu, hsmall⟩ := habove q hq
          exact ⟨hlen, m, u, hu, Nat.lt_trans hlt hsmall⟩
      · have hnil : entries h r = [] := by
          rw [entries, getD_eq_getElem?_getD, getElem?_eq_none (Nat.le_of_not_lt hr)]
          rfl
        rw [hnil] at hvs ⊢
        rw [← some.inj hvs]
        rfl

/-- As many steps as there are maps are enough. -/
theorem tree_eq_some {v : T} :
    tree leaf node h s = some v ↔ ∃ n, load leaf node h n s = some v := by
  constructor
  · intro hv
    exact ⟨_, hv⟩
  · intro ⟨n, hv⟩
    exact load_of_above hsize nodup_nil (by simp) hv

end Load

/-! ## Stores with other maps in between -/

section Graft

/-- Where a map is when `g` maps are put behind the first `c`. -/
def shift (c g r : ℕ) : ℕ := if r < c then r else r + g

/-- A value with its reference moved. -/
def Slot.shift (c g : ℕ) : Slot A → Slot A
  | .atom a => .atom a
  | .ref r => .ref (RefStore.shift c g r)

def shiftEntries (c g : ℕ) (es : List (κ × Slot A)) : List (κ × Slot A) :=
  es.map fun e => (e.1, e.2.shift c g)

/-- A store with other maps put behind the first `c`. -/
def graft (c : ℕ) (others h : Store κ A) : Store κ A :=
  (h.take c).map (shiftEntries c others.length) ++ others ++
    (h.drop c).map (shiftEntries c others.length)

/-- A reference to one of the first `n` maps, if it is one. -/
def Slot.Below (n : ℕ) : Slot A → Prop
  | .atom _ => True
  | .ref r => r < n

/-- The maps refer to maps of the store only. -/
def Closed (h : Store κ A) : Prop := ∀ es ∈ h, ∀ e ∈ es, e.2.Below h.length

theorem Slot.Below.mono {s : Slot A} (h : s.Below n) (hnm : n ≤ m) : s.Below m := by
  cases s with
  | atom a => trivial
  | ref r => exact Nat.lt_of_lt_of_le h hnm

theorem Slot.shift_of_below {s : Slot A} (h : s.Below c) (g : ℕ) : s.shift c g = s := by
  cases s with
  | atom a => rfl
  | ref r => exact congrArg Slot.ref (if_pos h)

theorem shiftEntries_of_below {es : List (κ × Slot A)} (h : ∀ e ∈ es, e.2.Below c) (g : ℕ) :
    shiftEntries c g es = es := by
  conv_rhs => rw [← map_id es]
  exact map_congr_left fun e he => by rw [Slot.shift_of_below (h e he), id_eq]

variable {c : ℕ} {others h : Store κ A}

/-- A map is added to a store. -/
theorem Closed.append (hh : Closed h) {es : List (κ × Slot A)}
    (hes : ∀ e ∈ es, e.2.Below h.length) : Closed (h ++ [es]) := by
  intro es' hmem e he
  have hle : h.length ≤ (h ++ [es]).length := by simp
  cases mem_append.mp hmem with
  | inl hmem => exact (hh es' hmem e he).mono hle
  | inr hmem =>
    obtain rfl := mem_singleton.mp hmem
    exact (hes e he).mono hle

/-- Behind a whole store the other maps are just added. -/
theorem graft_of_closed (hh : Closed h) : graft h.length others h = h ++ others := by
  have hmap : h.map (shiftEntries h.length others.length) = h := by
    conv_rhs => rw [← map_id h]
    exact map_congr_left fun es hes => by rw [shiftEntries_of_below (hh es hes), id_eq]
  simp [graft, hmap]

theorem length_graft : (graft c others h).length = h.length + others.length := by
  simp [graft]
  omega

theorem shift_length (hc : c ≤ h.length) :
    shift c others.length h.length = (graft c others h).length := by
  rw [shift, if_neg (by omega), length_graft]

theorem entries_graft (hc : c ≤ h.length) (r : ℕ) :
    entries (graft c others h) (shift c others.length r) =
      shiftEntries c others.length (entries h r) := by
  unfold entries graft shift
  simp only [getD_eq_getElem?_getD]
  split
  · rename_i hr
    rw [append_assoc, getElem?_append_left (by simp; omega)]
    simp only [getElem?_map, getElem?_take, if_pos hr]
    cases h[r]? <;> rfl
  · rename_i hr
    have hindex : r + others.length -
        ((h.take c).map (shiftEntries c others.length) ++ others).length = r - c := by
      simp
      omega
    rw [getElem?_append_right (by simp; omega), hindex, getElem?_map, getElem?_drop,
      Nat.add_sub_cancel' (Nat.le_of_not_lt hr)]
    cases h[r]? <;> rfl

theorem graft_set (hc : c ≤ h.length) (r : ℕ) (es : List (κ × Slot A)) :
    graft c others (h.set r es) =
      (graft c others h).set (shift c others.length r) (shiftEntries c others.length es) := by
  unfold graft shift
  rw [List.take_set, drop_set]
  split
  · rename_i hr
    rw [append_assoc, append_assoc, set_append_left _ _ (by simp; omega), map_set]
  · rename_i hr
    rw [set_append_right _ _ (by simp; omega), set_eq_of_length_le (by simp; omega), map_set]
    congr 2
    simp
    omega

theorem graft_append (hc : c ≤ h.length) (es : List (κ × Slot A)) :
    graft c others (h ++ [es]) = graft c others h ++ [shiftEntries c others.length es] := by
  unfold graft
  rw [take_append_of_le_length hc, drop_append_of_le_length hc, map_append,
    ← append_assoc, map_singleton]

variable [DecidableEq κ]

theorem lookup_shiftEntries (g : ℕ) (k : κ) (es : List (κ × Slot A)) :
    (shiftEntries c g es).lookup k = (es.lookup k).map (Slot.shift c g) := by
  induction es with
  | nil => rfl
  | cons e es ih =>
    unfold shiftEntries at ih ⊢
    rw [map_cons, lookup_cons, lookup_cons, ih]
    cases k == e.1 <;> rfl

theorem shiftEntries_put (g : ℕ) (k : κ) (s : Slot A) (es : List (κ × Slot A)) :
    shiftEntries c g (put k s es) =
      put k (s.shift c g) (shiftEntries c g es) := by
  induction es with
  | nil => rfl
  | cons e es ih =>
    unfold shiftEntries at ih ⊢
    simp only [put, map_cons]
    split
    · rfl
    · rw [map_cons, ih]

theorem shiftEntries_erase (g : ℕ) (k : κ) (es : List (κ × Slot A)) :
    shiftEntries c g (erase k es) = erase k (shiftEntries c g es) := by
  unfold shiftEntries erase
  rw [List.filter_map]
  rfl

theorem get_graft (hc : c ≤ h.length) (r : ℕ) (p : List κ) :
    get (graft c others h) (shift c others.length r) p =
      (get h r p).map (Slot.shift c others.length) := by
  induction p generalizing r with
  | nil => rfl
  | cons k p ih =>
    cases p with
    | nil => rw [get, entries_graft hc, lookup_shiftEntries, get]
    | cons k' p =>
      rw [get, entries_graft hc, lookup_shiftEntries, get]
      cases (entries h r).lookup k with
      | none => rfl
      | some s =>
        cases s with
        | atom a => rfl
        | ref r' => exact ih r'

theorem set_graft (hc : c ≤ h.length) (s : Slot A) (r : ℕ) (p : List κ) :
    set (s.shift c others.length) (graft c others h) (shift c others.length r) p =
      (graft c others (set s h r p).1, (set s h r p).2) := by
  induction p generalizing h r with
  | nil => rfl
  | cons k p ih =>
    cases p with
    | nil => rw [set, set, entries_graft hc, graft_set hc, shiftEntries_put]
    | cons k' p =>
      rw [set, set, entries_graft hc, lookup_shiftEntries]
      cases (entries h r).lookup k with
      | none =>
        simp only [map_none]
        rw [← ih (by simp; omega), graft_append (by simpa using hc), graft_set hc, shiftEntries_put,
          Slot.shift, shift_length hc]
        rfl
      | some s' =>
        cases s' with
        | atom a => rfl
        | ref r' => exact ih hc r'

theorem delete_graft (hc : c ≤ h.length) (r : ℕ) (p : List κ) :
    delete (graft c others h) (shift c others.length r) p = graft c others (delete h r p) := by
  induction p generalizing r with
  | nil => rfl
  | cons k p ih =>
    cases p with
    | nil => rw [delete, delete, entries_graft hc, graft_set hc, shiftEntries_erase]
    | cons k' p =>
      rw [delete, delete, entries_graft hc, lookup_shiftEntries]
      cases (entries h r).lookup k with
      | none => rfl
      | some s =>
        cases s with
        | atom a => rfl
        | ref r' => exact ih r'

variable {T : Type*} (leaf : A → T) (node : List (κ × T) → T)

omit [DecidableEq κ] in
theorem load_graft (hc : c ≤ h.length) (n : ℕ) (s : Slot A) :
    load leaf node (graft c others h) n (s.shift c others.length) = load leaf node h n s := by
  induction n generalizing s with
  | zero => cases s <;> rfl
  | succ n ih =>
    cases s with
    | atom a => rfl
    | ref r =>
      rw [Slot.shift, load, load, entries_graft hc]
      congr 1
      generalize entries h r = es
      induction es with
      | nil => rfl
      | cons e es ihes =>
        unfold shiftEntries at ihes ⊢
        simp [loadEntries, ih, ihes]

omit [DecidableEq κ] in
theorem tree_graft {node : List (κ × T) → T} {size : T → ℕ}
    (hsize : ∀ es, ∀ e ∈ es, size e.2 < size (node es)) (hc : c ≤ h.length) (s : Slot A) :
    tree leaf node (graft c others h) (s.shift c others.length) = tree leaf node h s := by
  apply ext
  intro v
  simp only [tree_eq_some hsize, load_graft leaf node hc]

end Graft

end RefStore
