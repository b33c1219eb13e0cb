import Mathlib.Data.Fintype.Card
import Weibo.ForStd.Transducer

/-!
# Routing a stream into branches and merging it again

A `Router` spreads a stream over `n` branches: an element to be aligned goes to every branch, any
other element to one of them. `Aligned` says what a merge may make of the branches' outputs: an
interleaving in which an aligned element stands for one copy of it from every branch, and nothing
overtakes it.

`LaneOk` and `MergeOk` describe a merge in progress that parks each branch at an
aligned element until all branches have arrived there.
-/

open Function List
open Finset (mem_erase mem_univ univ)

variable {α : Type} {align : α → Bool}

/-! ## Routing -/

/-- Sends each element that is not aligned, possibly rewritten, to one branch. -/
structure Router (α : Type) (align : α → Bool) (n : ℕ) : Type 1 where
  Cursor : Type
  route : Cursor → α → Cursor × α × Fin n
  route_align : ∀ c a, align a = false → align (route c a).2.1 = false

namespace Router

variable {n : ℕ} (R : Router α align n)

/-- What branch `w` gets of the routed stream. -/
def lane (w : Fin n) : Transducer R.Cursor α α :=
  ⟨fun c a => if align a then (c, [a])
    else ((R.route c a).1, if (R.route c a).2.2 = w then [(R.route c a).2.1] else [])⟩

theorem lane_step_of_align (w : Fin n) (c : R.Cursor) {a : α} (h : align a = true) :
    (R.lane w).step c a = (c, [a]) := if_pos h

theorem lane_step_of_not_align (w : Fin n) (c : R.Cursor) {a : α} (h : align a = false) :
    (R.lane w).step c a =
      ((R.route c a).1, if (R.route c a).2.2 = w then [(R.route c a).2.1] else []) :=
  if_neg (by rw [h]; decide)

theorem lane_step_filter (w : Fin n) (c : R.Cursor) (a : α) :
    ((R.lane w).step c a).2.filter align = [a].filter align := by
  cases h : align a with
  | true => rw [R.lane_step_of_align w c h]
  | false =>
    rw [R.lane_step_of_not_align w c h, filter_cons_of_neg (by rw [h]; decide)]
    dsimp only
    split
    · rw [filter_cons_of_neg (by rw [R.route_align c a h]; decide)]
    · rfl

/-- Every branch gets all the aligned elements. -/
theorem lane_filter (w : Fin n) (c : R.Cursor) (xs : List α) :
    ((R.lane w).outs c xs).filter align = xs.filter align := by
  have h := (R.lane w).outs_filter (R.lane_step_filter w) c xs
  rwa [map_id'] at h

/-- What a branch gets ahead of an aligned element comes from what stands ahead of it in the
    stream. -/
theorem lane_split (w : Fin n) {c : R.Cursor} {xs g₁ g₂ : List α} {m : α} (hm : align m = true)
    (h : (R.lane w).outs c xs = g₁ ++ m :: g₂) :
    ∃ xs₁ xs₂, xs = xs₁ ++ m :: xs₂ ∧ (R.lane w).outs c xs₁ = g₁ := by
  have hstep : ∀ c a, m ∈ ((R.lane w).step c a).2 → ((R.lane w).step c a).2 = [m] ∧ id a = m := by
    intro c a hmem
    have hfilter : m ∈ ((R.lane w).step c a).2.filter align := mem_filter.mpr ⟨hmem, hm⟩
    rw [R.lane_step_filter] at hfilter
    obtain rfl := mem_singleton.mp (mem_filter.mp hfilter).1
    rw [R.lane_step_of_align w c hm]
    exact ⟨rfl, rfl⟩
  obtain ⟨xs₁, a, xs₂, hxs, ha, hout⟩ := (R.lane w).outs_split hstep h
  rw [id] at ha
  rw [ha] at hxs
  exact ⟨xs₁, xs₂, hxs, hout⟩

end Router

/-! ## Merging -/

section Aligned

variable {ι : Type} [DecidableEq ι]

/-- An interleaving of the branches' outputs that takes an aligned element from all of them at
    once. -/
inductive Aligned (align : α → Bool) : (ι → List α) → List α → Prop
  | nil : Aligned align (fun _ => []) []
  | data {os : ι → List α} {g : List α} {a : α} (w : ι) (h : Aligned align os g)
      (ha : align a = false) : Aligned align (Function.update os w (os w ++ [a])) (g ++ [a])
  | marker {os : ι → List α} {g : List α} {m : α} (h : Aligned align os g)
      (hm : align m = true) : Aligned align (fun w => os w ++ [m]) (g ++ [m])

namespace Aligned

variable {os : ι → List α} {g : List α}

/-- Every branch has emitted the merged stream's aligned elements. -/
theorem filter_eq (h : Aligned align os g) (w : ι) : (os w).filter align = g.filter align := by
  induction h with
  | nil => rfl
  | @data os g a v _ ha ih =>
    have hnil : [a].filter align = [] := filter_cons_of_neg (by rw [ha]; decide)
    rw [filter_append, hnil, append_nil]
    by_cases hwv : w = v
    · subst hwv
      rw [update_self, filter_append, hnil, append_nil, ih]
    · rw [update_of_ne hwv, ih]
  | marker _ _ ih => rw [filter_append, filter_append, ih]

/-- The merge can be cut at an aligned element. -/
theorem split (h : Aligned align os g) {g₁ g₂ : List α} {m : α} (hm : align m = true)
    (hg : g = g₁ ++ m :: g₂) :
    ∃ os₁ os₂ : ι → List α, (∀ w, os w = os₁ w ++ m :: os₂ w) ∧ Aligned align os₁ g₁ := by
  induction h generalizing g₂ with
  | nil => simp at hg
  | @data os g a v hal ha ih =>
    rcases eq_nil_or_concat g₂ with rfl | ⟨g₃, b, rfl⟩
    · obtain ⟨-, hlast⟩ := append_inj' hg rfl
      obtain rfl := (cons.inj hlast).1
      exact absurd ha (by rw [hm]; decide)
    · rw [concat_eq_append, ← cons_append, ← append_assoc] at hg
      obtain ⟨hg', -⟩ := append_inj' hg rfl
      obtain ⟨os₁, os₂, hos, hal₁⟩ := ih hg'
      refine ⟨os₁, update os₂ v (os₂ v ++ [a]), ?_, hal₁⟩
      intro w
      by_cases hwv : w = v
      · subst hwv
        rw [update_self, update_self, hos w]
        simp
      · rw [update_of_ne hwv, update_of_ne hwv, hos w]
  | @marker os g a hal ha ih =>
    rcases eq_nil_or_concat g₂ with rfl | ⟨g₃, b, rfl⟩
    · obtain ⟨rfl, hlast⟩ := append_inj' hg rfl
      obtain rfl := (cons.inj hlast).1
      exact ⟨os, fun _ => [], fun w => rfl, hal⟩
    · rw [concat_eq_append, ← cons_append, ← append_assoc] at hg
      obtain ⟨hg', -⟩ := append_inj' hg rfl
      obtain ⟨os₁, os₂, hos, hal₁⟩ := ih hg'
      refine ⟨os₁, fun w => os₂ w ++ [a], ?_, hal₁⟩
      intro w
      show os w ++ [a] = os₁ w ++ m :: (os₂ w ++ [a])
      rw [hos w]
      simp

end Aligned

end Aligned

/-! ## A merge in progress -/

/-- Where a branch stands at the merge: read on freely, its aligned element on the way to the merge,
    the aligned element counted, or waiting to be resumed. -/
inductive LaneStatus where
  | free
  | sent
  | counted
  | waking
deriving DecidableEq

/-- A branch's status, whether it is parked, what of it the merge holds back, and what of it is on
    the way to the merge. -/
def LaneOk (align : α → Bool) : LaneStatus → Bool → List α → List α → Prop
  | .free, parked, held, fan => parked = false ∧ held = [] ∧ ∀ a ∈ fan, align a = false
  | .sent, parked, held, fan => parked = true ∧ held = [] ∧
      ∃ ds m, fan = ds ++ [m] ∧ (∀ a ∈ ds, align a = false) ∧ align m = true
  | .counted, parked, held, fan => parked = true ∧ fan = [] ∧ ∃ m, held = [m] ∧ align m = true
  | .waking, parked, held, fan => parked = true ∧ held = [] ∧ fan = []

namespace LaneOk

variable {st : LaneStatus} {parked : Bool} {held fan : List α} {a : α}

theorem eq_free (h : LaneOk align st parked held fan) (hp : parked = false) : st = .free := by
  cases st with
  | free => rfl
  | sent => exact absurd (h.1.symm.trans hp) (by decide)
  | counted => exact absurd (h.1.symm.trans hp) (by decide)
  | waking => exact absurd (h.1.symm.trans hp) (by decide)

/-- A parked branch with nothing under way is counted or waits to be resumed. -/
theorem eq_counted (h : LaneOk align st true held []) (hwake : st ≠ .waking) : st = .counted := by
  cases st with
  | free => exact absurd h.1 (by decide)
  | sent =>
    obtain ⟨-, -, ds, m, hds, -⟩ := h
    simp at hds
  | counted => rfl
  | waking => exact absurd rfl hwake

/-- A branch that is read on sends one more element to the merge. -/
theorem collect (h : LaneOk align .free parked held fan) (a : α) :
    LaneOk align (if align a then .sent else .free) (align a) held (fan ++ [a]) := by
  obtain ⟨-, hheld, hfan⟩ := h
  cases ha : align a with
  | true => exact ⟨rfl, hheld, fan, a, rfl, hfan, ha⟩
  | false =>
    refine ⟨rfl, hheld, ?_⟩
    intro b hb
    rcases mem_append.mp hb with hb | hb
    · exact hfan b hb
    · rw [mem_singleton.mp hb, ha]

/-- The merge takes an element that is not aligned. -/
theorem take (h : LaneOk align st parked held (a :: fan)) (ha : align a = false) :
    held = [] ∧ LaneOk align st parked held fan := by
  cases st with
  | free =>
    obtain ⟨hp, hheld, hfan⟩ := h
    exact ⟨hheld, hp, hheld, fun b hb => hfan b (mem_cons_of_mem a hb)⟩
  | sent =>
    obtain ⟨hp, hheld, ds, m, hds, hall, hm⟩ := h
    cases ds with
    | nil =>
      cases hds
      exact absurd ha (by rw [hm]; decide)
    | cons d ds =>
      obtain ⟨-, hfan⟩ := cons.inj hds
      exact ⟨hheld, hp, hheld, ds, m, hfan, fun b hb => hall b (mem_cons_of_mem d hb), hm⟩
  | counted => exact absurd h.2.1 (by simp)
  | waking => exact absurd h.2.2 (by simp)

/-- An aligned element at the merge is the last one its branch has sent. -/
theorem arrive (h : LaneOk align st parked held (a :: fan)) (ha : align a = true) :
    st = .sent ∧ parked = true ∧ held = [] ∧ fan = [] := by
  cases st with
  | free => exact absurd (h.2.2 a mem_cons_self) (by rw [ha]; decide)
  | sent =>
    obtain ⟨hp, hheld, ds, m, hds, hall, -⟩ := h
    cases ds with
    | nil => exact ⟨rfl, hp, hheld, (cons.inj hds).2⟩
    | cons d ds =>
      cases hds
      exact absurd (hall a mem_cons_self) (by rw [ha]; decide)
  | counted => exact absurd h.2.1 (by simp)
  | waking => exact absurd h.2.2 (by simp)

end LaneOk

/-- The merge counts the aligned elements that arrived, or resumes the branches one after the
    other. -/
inductive MergePc where
  | receiving (arrived : ℕ)
  | resuming (next : ℕ)
deriving DecidableEq

/-- The count is that of the branches whose aligned element was taken; while the branches are
    resumed, those not resumed yet wait. -/
def MergeOk {n : ℕ} : MergePc → (Fin n → LaneStatus) → Prop
  | .receiving k, st => k < n ∧ k = (Finset.univ.filter fun w => st w = .counted).card ∧
      ∀ w, st w ≠ .waking
  | .resuming k, st => k < n ∧ ∀ w : Fin n, if k ≤ w.val then st w = .waking
      else st w = .free ∨ st w = .sent

namespace MergeOk

variable {n : ℕ} {pc : MergePc} {st : Fin n → LaneStatus}

theorem collect (h : MergeOk pc st) {w : Fin n} (hw : st w = .free) {s : LaneStatus}
    (hs : s = .free ∨ s = .sent) : MergeOk pc (update st w s) := by
  cases pc with
  | receiving k =>
    obtain ⟨hk, hcard, hwake⟩ := h
    refine ⟨hk, ?_, ?_⟩
    · rw [hcard]
      congr 1
      apply Finset.filter_congr
      intro v _
      by_cases hv : v = w
      · subst hv
        rw [update_self, hw]
        rcases hs with rfl | rfl <;> decide
      · rw [update_of_ne hv]
    · intro v
      by_cases hv : v = w
      · subst hv
        rw [update_self]
        rcases hs with rfl | rfl <;> decide
      · rw [update_of_ne hv]
        exact hwake v
  | resuming k =>
    obtain ⟨hk, hall⟩ := h
    refine ⟨hk, ?_⟩
    intro v
    by_cases hv : v = w
    · subst hv
      have hlt : ¬ k ≤ v.val := by
        intro hle
        have hv := hall v
        rw [if_pos hle, hw] at hv
        simp at hv
      rw [if_neg hlt, update_self]
      exact hs
    · rw [update_of_ne hv]
      exact hall v

/-- One more aligned element has arrived, and not the last one. -/
theorem count {k : ℕ} (h : MergeOk (.receiving k) st) {w : Fin n} (hw : st w = .sent)
    (hk : k + 1 < n) : MergeOk (.receiving (k + 1)) (update st w .counted) := by
  obtain ⟨-, hcard, hwake⟩ := h
  refine ⟨hk, ?_, ?_⟩
  · have hins : (univ.filter fun v => update st w .counted v = .counted) =
        insert w (univ.filter fun v => st v = .counted) := by
      ext v
      by_cases hv : v = w
      · subst hv
        simp
      · simp [hv]
    rw [hins, Finset.card_insert_of_notMem (by simp [hw]), hcard]
  · intro v
    by_cases hv : v = w
    · subst hv
      rw [update_self]
      decide
    · rw [update_of_ne hv]
      exact hwake v

/-- When the last aligned element arrives, all other branches are counted. -/
theorem all_counted {k : ℕ} (h : MergeOk (.receiving k) st) {w : Fin n} (hw : st w = .sent)
    (hk : ¬ k + 1 < n) {v : Fin n} (hv : v ≠ w) : st v = .counted := by
  obtain ⟨hlt, hcard, -⟩ := h
  by_contra hne
  have hsub : (univ.filter fun u => st u = .counted) ⊆ (univ.erase w).erase v := by
    intro u hu
    have hu' : st u = .counted := (Finset.mem_filter.mp hu).2
    refine mem_erase.mpr ⟨?_, mem_erase.mpr ⟨?_, mem_univ u⟩⟩
    · rintro rfl
      exact hne hu'
    · rintro rfl
      exact absurd (hw.symm.trans hu') (by decide)
  have hle := Finset.card_le_card hsub
  rw [Finset.card_erase_of_mem (mem_erase.mpr ⟨hv, mem_univ v⟩),
    Finset.card_erase_of_mem (mem_univ w), Finset.card_univ, Fintype.card_fin] at hle
  omega

/-- The branch that is resumed next waits for it. -/
theorem waking {k : ℕ} {h : k < n} (hm : MergeOk (.resuming k) st) : st ⟨k, h⟩ = .waking := by
  have hk := hm.2 ⟨k, h⟩
  rwa [if_pos (Nat.le_refl k)] at hk

/-- A branch is resumed. -/
theorem resume {k : ℕ} {h : k < n} (hm : MergeOk (.resuming k) st) :
    MergeOk (if k + 1 < n then .resuming (k + 1) else .receiving 0) (update st ⟨k, h⟩ .free) := by
  -- the branches up to `k` are read again, those after it wait
  have hstatus : ∀ v : Fin n, if k + 1 ≤ v.val then update st ⟨k, h⟩ .free v = .waking
      else update st ⟨k, h⟩ .free v = .free ∨ update st ⟨k, h⟩ .free v = .sent := by
    intro v
    by_cases hv : v = ⟨k, h⟩
    · subst hv
      rw [if_neg (by simp), update_self]
      exact .inl rfl
    · have hne : v.val ≠ k := fun heq => hv (Fin.ext heq)
      have hall := hm.2 v
      rw [update_of_ne hv]
      by_cases hle : k + 1 ≤ v.val
      · rw [if_pos (by omega)] at hall
        rwa [if_pos hle]
      · rw [if_neg (by omega)] at hall
        rwa [if_neg hle]
  split
  · exact ⟨by assumption, hstatus⟩
  · have hall : ∀ v : Fin n, update st ⟨k, h⟩ .free v = .free ∨
        update st ⟨k, h⟩ .free v = .sent := by
      intro v
      have hv := hstatus v
      rwa [if_neg (by omega)] at hv
    refine ⟨by omega, ?_, ?_⟩
    · symm
      rw [Finset.card_eq_zero, Finset.filter_eq_empty_iff]
      intro v _
      rcases hall v with hv | hv <;> rw [hv] <;> decide
    · intro v
      rcases hall v with hv | hv <;> rw [hv] <;> decide

end MergeOk
