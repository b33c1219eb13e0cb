import Mathlib.Data.List.Basic

/-!
# Streams with in-band markers

A queue of `Item`s carries data and, in band, markers that say "everything in front of me belongs to
this cut". `Walk adv mark s q t` says what reading the queue `q` means: starting at `s`, each data
item advances the position by `adv`, each marker stands at a position that `mark` allows for it, and
the end of the queue is reached at `t`.

The relation composes over append, so a proof about a pipeline of queues can
move an item from one queue to the next without looking at the others.
-/

/-- An element of a stream with markers named by `ι`. -/
inductive Item (α ι : Type*) where
  | data (a : α)
  | marker (id : ι)
deriving DecidableEq, Repr

namespace Item

variable {α ι S : Type*}

/-- The name of a marker, if the element is one. -/
def marker? : Item α ι → Option ι
  | .data _ => none
  | .marker id => some id

/-- The markers of a queue, front first. -/
def markers (q : List (Item α ι)) : List ι := q.filterMap marker?

@[simp] theorem markers_nil : markers ([] : List (Item α ι)) = [] := rfl

@[simp] theorem markers_data (a : α) (q : List (Item α ι)) :
    markers (.data a :: q) = markers q := rfl

@[simp] theorem markers_marker (id : ι) (q : List (Item α ι)) :
    markers (.marker id :: q) = id :: markers q := rfl

@[simp] theorem markers_append (q r : List (Item α ι)) :
    markers (q ++ r) = markers q ++ markers r := List.filterMap_append

@[simp] theorem markers_map_data (as : List α) :
    markers (as.map (.data : α → Item α ι)) = [] := by
  simp [markers, List.filterMap_map, Function.comp_def, marker?]

/-- Reading the queue from `s` ends at `t`. -/
def Walk (adv : S → α → S → Prop) (mark : ι → S → Prop) : S → List (Item α ι) → S → Prop
  | s, [], t => s = t
  | s, .data a :: q, t => ∃ u, adv s a u ∧ Walk adv mark u q t
  | s, .marker id :: q, t => mark id s ∧ Walk adv mark s q t

variable {adv : S → α → S → Prop} {mark mark' : ι → S → Prop} {q : List (Item α ι)}

theorem walk_append {s t : S} {r : List (Item α ι)} :
    Walk adv mark s (q ++ r) t ↔ ∃ u, Walk adv mark s q u ∧ Walk adv mark u r t := by
  induction q generalizing s with
  | nil => simp [Walk]
  | cons x q ih =>
    cases x with
    | data a =>
      simp only [List.cons_append, Walk, ih]
      constructor
      · rintro ⟨v, hv, u, hq, hr⟩
        exact ⟨u, ⟨v, hv, hq⟩, hr⟩
      · rintro ⟨u, ⟨v, hv, hq⟩, hr⟩
        exact ⟨v, hv, u, hq, hr⟩
    | marker id =>
      simp only [List.cons_append, Walk, ih]
      constructor
      · rintro ⟨hm, u, hq, hr⟩
        exact ⟨u, ⟨hm, hq⟩, hr⟩
      · rintro ⟨u, ⟨hm, hq⟩, hr⟩
        exact ⟨hm, u, hq, hr⟩

/-- Appending a data item moves the end of the queue by one. -/
theorem walk_snoc_data {s t u : S} {a : α} (hq : Walk adv mark s q t) (ha : adv t a u) : Walk adv mark s (q ++ [.data a]) u :=
  walk_append.mpr ⟨t, hq, u, ha, rfl⟩

/-- A marker may be appended when it is allowed at the end of the queue. -/
theorem walk_snoc_marker {s t : S} {id : ι} (hq : Walk adv mark s q t) (hm : mark id t) : Walk adv mark s (q ++ [.marker id]) t :=
  walk_append.mpr ⟨t, hq, hm, rfl⟩

/-- A walk only depends on what is said about the markers in the queue. -/
theorem walk_mono {s t : S}
    (h : ∀ id ∈ markers q, ∀ u, mark id u → mark' id u) (hq : Walk adv mark s q t) :
    Walk adv mark' s q t := by
  induction q generalizing s with
  | nil => exact hq
  | cons x q ih =>
    cases x with
    | data a =>
      obtain ⟨u, ha, hu⟩ := hq
      exact ⟨u, ha, ih h hu⟩
    | marker id =>
      obtain ⟨hm, hs⟩ := hq
      rw [markers_marker] at h
      refine ⟨h id List.mem_cons_self s hm, ih (fun j hj => h j (List.mem_cons_of_mem id hj)) hs⟩

end Item
