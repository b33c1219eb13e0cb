import Mathlib.Algebra.BigOperators.Group.Finset.Piecewise
import Mathlib.Algebra.Order.Group.Multiset
import Weibo.ForStd.AlignedMerge

/-!
# Segments between aligned elements

The aligned elements of a stream cut it into segments.  `Shuffle` interleaves
the elements of several lists in any way that keeps the order within each list.
An aligned merge of streams is, segment by segment, a shuffle of the streams'
segments, with every aligned element once between them.
-/

open Function List Multiset

variable {α : Type} {align : α → Bool}

/-! ## Segments -/

namespace List

/-- The elements that stand behind exactly `j` aligned ones, without these. -/
def segment (align : α → Bool) : List α → ℕ → List α
  | [], _ => []
  | a :: l, j =>
    if align a then
      match j with
      | 0 => []
      | j + 1 => segment align l j
    else
      match j with
      | 0 => a :: segment align l 0
      | j + 1 => segment align l (j + 1)

@[simp] theorem segment_nil (j : ℕ) : segment align [] j = [] := rfl

theorem segment_cons_align_zero {a : α} (h : align a = true) (l : List α) :
    segment align (a :: l) 0 = [] := by
  rw [segment, if_pos h]

theorem segment_cons_align_succ {a : α} (h : align a = true) (l : List α) (j : ℕ) :
    segment align (a :: l) (j + 1) = segment align l j := by
  rw [segment, if_pos h]

theorem segment_cons_zero {a : α} (h : align a = false) (l : List α) :
    segment align (a :: l) 0 = a :: segment align l 0 := by
  rw [segment, if_neg (by rw [h]; decide)]

theorem segment_cons_succ {a : α} (h : align a = false) (l : List α) (j : ℕ) :
    segment align (a :: l) (j + 1) = segment align l (j + 1) := by
  rw [segment, if_neg (by rw [h]; decide)]

/-- The elements of `r` stand behind the aligned elements of `l` as well. -/
theorem segment_append (l r : List α) (j : ℕ) : segment align (l ++ r) j = segment align l j ++
      if (l.filter align).length ≤ j then segment align r (j - (l.filter align).length) else [] := by
  induction l generalizing j with
  | nil => simp
  | cons a l ih =>
    rw [cons_append]
    cases h : align a with
    | true =>
      rw [filter_cons_of_pos h, length_cons]
      cases j with
      | zero => simp [segment_cons_align_zero h]
      | succ j =>
        rw [segment_cons_align_succ h, segment_cons_align_succ h, ih j]
        simp [Nat.add_sub_add_right]
    | false =>
      rw [filter_cons_of_neg (by rw [h]; decide)]
      cases j with
      | zero => rw [segment_cons_zero h, segment_cons_zero h, ih 0, cons_append]
      | succ j => rw [segment_cons_succ h, segment_cons_succ h, ih (j + 1)]

/-- A stream without aligned elements is all in the first segment. -/
theorem segment_of_none {l : List α} (h : l.filter align = []) (j : ℕ) :
    segment align l j = if j = 0 then l else [] := by
  induction l generalizing j with
  | nil => simp
  | cons a l ih =>
    have ha : align a = false := by
      by_contra hne
      rw [filter_cons_of_pos (by simpa using hne)] at h
      simp at h
    rw [filter_cons_of_neg (by rw [ha]; decide)] at h
    cases j with
    | zero => rw [segment_cons_zero ha, ih h 0, if_pos rfl, if_pos rfl]
    | succ j => rw [segment_cons_succ ha, ih h (j + 1), if_neg (by omega), if_neg (by omega)]

end List

/-! ## Shuffles -/

section

variable {ι : Type} [DecidableEq ι] {g : List α} {os : ι → List α}

/-- An interleaving of the lists that keeps the order within each of them. -/
inductive Shuffle : (ι → List α) → List α → Prop
  | nil : Shuffle (fun _ => []) []
  | snoc {ls : ι → List α} {g : List α} (w : ι) (a : α) (h : Shuffle ls g) :
      Shuffle (Function.update ls w (ls w ++ [a])) (g ++ [a])

/-- One of the lists grows. -/
theorem sum_update_append [Fintype ι] {M : Type*} [AddCommMonoid M] {f : List α → M}
    (hf : ∀ l l', f (l ++ l') = f l + f l') (ls : ι → List α) (v : ι) (xs : List α) :
    ∑ w, f (update ls v (ls v ++ xs) w) = ∑ w, f (ls w) + f xs := by
  have hsum : ∀ w, f (update ls v (ls v ++ xs) w) = f (ls w) + if w = v then f xs else 0 := by
    intro w
    by_cases hw : w = v
    · subst hw
      rw [update_self, if_pos rfl, hf]
    · rw [update_of_ne hw, if_neg hw, add_zero]
  rw [Finset.sum_congr rfl fun w _ => hsum w, Finset.sum_add_distrib,
    Finset.sum_ite_eq' Finset.univ v, if_pos (Finset.mem_univ v)]

/-- A shuffle holds what the lists hold together, nothing more or less often. -/
theorem Shuffle.sum_eq [Fintype ι] {ls : ι → List α} (h : Shuffle ls g) :
    (g : Multiset α) = ∑ w, (ls w : Multiset α) := by
  induction h with
  | nil => simp
  | @snoc ls g v a _ ih =>
    have hsum := sum_update_append (f := fun l => (l : Multiset α))
      (fun l l' => (coe_add l l').symm) ls v [a]
    rw [← coe_add, ih, hsum]

/-- An aligned merge shuffles each segment. -/
theorem Aligned.shuffle_segment (h : Aligned align os g) (j : ℕ) :
    Shuffle (fun w => (os w).segment align j) (g.segment align j) := by
  induction h with
  | nil => exact Shuffle.nil
  | @data os g a v hal ha ih =>
    have hone : ∀ k, [a].segment align k = if k = 0 then [a] else [] :=
      fun k => segment_of_none (filter_cons_of_neg (by rw [ha]; decide)) k
    -- the new element stands behind all aligned elements of the merged stream
    have hsnoc : ∀ l : List α, (l.filter align).length = (g.filter align).length →
        (l ++ [a]).segment align j =
          l.segment align j ++ if j = (g.filter align).length then [a] else [] := by
      intro l hl
      rw [segment_append, hl, hone]
      congr 1
      by_cases hj : j = (g.filter align).length
      · rw [if_pos (by omega), if_pos (by omega), if_pos hj]
      · rw [if_neg hj]
        split
        · rw [if_neg (by omega)]
        · rfl
    rw [hsnoc g rfl]
    by_cases hj : j = (g.filter align).length
    · rw [if_pos hj]
      have hlanes : (fun w => (update os v (os v ++ [a]) w).segment align j) =
          update (fun w => (os w).segment align j) v ((os v).segment align j ++ [a]) := by
        funext w
        by_cases hw : w = v
        · subst hw
          rw [update_self, update_self, hsnoc _ (by rw [hal.filter_eq w]), if_pos hj]
        · rw [update_of_ne hw, update_of_ne hw]
      rw [hlanes]
      exact ih.snoc v a
    · rw [if_neg hj, append_nil]
      have hlanes : (fun w => (update os v (os v ++ [a]) w).segment align j) =
          fun w => (os w).segment align j := by
        funext w
        by_cases hw : w = v
        · subst hw
          rw [update_self, hsnoc _ (by rw [hal.filter_eq w]), if_neg hj, append_nil]
        · rw [update_of_ne hw]
      rw [hlanes]
      exact ih
  | @marker os g m hal hm ih =>
    have hsnoc : ∀ l : List α, (l ++ [m]).segment align j = l.segment align j := by
      intro l
      rw [segment_append]
      split
      · cases hj : j - (l.filter align).length with
        | zero => rw [segment_cons_align_zero hm, append_nil]
        | succ k => rw [segment_cons_align_succ hm, segment_nil, append_nil]
      · rw [append_nil]
    simp only [hsnoc]
    exact ih

/-- Apart from aligned elements, an aligned merge holds what the lists hold together. -/
theorem Aligned.sum_filter [Fintype ι] (h : Aligned align os g)
    {p : α → Bool} (hp : ∀ a, align a = true → p a = false) :
    (g.filter p : Multiset α) = ∑ w, ((os w).filter p : Multiset α) := by
  induction h with
  | nil => simp
  | @data os g a v _ _ ih =>
    have hsum := sum_update_append (f := fun l => (l.filter p : Multiset α))
      (fun l l' => by rw [filter_append, coe_add]) os v [a]
    rw [filter_append, ← coe_add, ih, hsum]
  | @marker os g m _ hm ih =>
    have hnone : [m].filter p = [] := filter_cons_of_neg (by rw [hp m hm]; decide)
    simp only [filter_append, hnone, append_nil]
    exact ih

/-- Elements that only one list has come out of an aligned merge in its order. -/
theorem Aligned.filter_of_one (h : Aligned align os g) {p : α → Bool}
    (hp : ∀ a, align a = true → p a = false) {w : ι} (hone : ∀ v, v ≠ w → (os v).filter p = []) : g.filter p = (os w).filter p := by
  induction h with
  | nil => rfl
  | @data os g a v hal ha ih =>
    have hrest : ∀ u, u ≠ w → (os u).filter p = [] := by
      intro u hu
      have hnone := hone u hu
      by_cases huv : u = v
      · subst huv
        rw [update_self, filter_append] at hnone
        exact (append_eq_nil_iff.mp hnone).1
      · rwa [update_of_ne huv] at hnone
    rw [filter_append, ih hrest]
    by_cases hw : w = v
    · subst hw
      rw [update_self, filter_append]
    · have hnone := hone v (Ne.symm hw)
      rw [update_self, filter_append] at hnone
      rw [update_of_ne hw, (append_eq_nil_iff.mp hnone).2, append_nil]
  | @marker os g m hal hm ih =>
    have hm' : [m].filter p = [] := filter_cons_of_neg (by rw [hp m hm]; decide)
    have hrest : ∀ u, u ≠ w → (os u).filter p = [] := by
      intro u hu
      have hnone := hone u hu
      rwa [filter_append, hm', append_nil] at hnone
    rw [filter_append, filter_append, hm', append_nil, append_nil, ih hrest]

end

/-! ## Streams that agree segment by segment -/

/-- The same aligned elements, and between them the same elements in any order. -/
structure SegmentwisePerm (align : α → Bool) (l₁ l₂ : List α) : Prop where
  aligned : l₁.filter align = l₂.filter align
  segments : ∀ j, (l₁.segment align j).Perm (l₂.segment align j)

variable {l₁ l₂ l₃ : List α}

/-- Two streams that agree with a third agree. -/
theorem SegmentwisePerm.trans_symm (h₁ : SegmentwisePerm align l₁ l₃)
    (h₂ : SegmentwisePerm align l₂ l₃) : SegmentwisePerm align l₁ l₂ :=
  ⟨h₁.aligned.trans h₂.aligned.symm, fun j => (h₁.segments j).trans (h₂.segments j).symm⟩

theorem SegmentwisePerm.trans (h₁ : SegmentwisePerm align l₁ l₂)
    (h₂ : SegmentwisePerm align l₂ l₃) : SegmentwisePerm align l₁ l₃ :=
  ⟨h₁.aligned.trans h₂.aligned, fun j => (h₁.segments j).trans (h₂.segments j)⟩

section

variable {e : α → List α} (hkeep : ∀ a, align a = true → e a = [a])
  (hdrop : ∀ a, align a = false → (e a).filter align = [])

include hkeep hdrop

/-- Expanding the elements in between keeps the aligned ones, and is done segment by segment. -/
theorem segment_flatMap (l : List α) : (l.flatMap e).filter align = l.filter align ∧
    ∀ j, segment align (l.flatMap e) j = (segment align l j).flatMap e := by
  induction l with
  | nil => exact ⟨rfl, fun _ => rfl⟩
  | cons a l ih =>
    rw [flatMap_cons]
    cases h : align a with
    | true =>
      rw [hkeep a h, singleton_append, filter_cons_of_pos h, filter_cons_of_pos h, ih.1]
      refine ⟨rfl, fun j => ?_⟩
      cases j with
      | zero => rw [segment_cons_align_zero h, segment_cons_align_zero h]; rfl
      | succ j => rw [segment_cons_align_succ h, segment_cons_align_succ h, ih.2]
    | false =>
      rw [filter_append, hdrop a h, filter_cons_of_neg (by simp [h]), ih.1]
      refine ⟨rfl, fun j => ?_⟩
      rw [segment_append, hdrop a h, segment_of_none (hdrop a h)]
      cases j with
      | zero => simp [segment_cons_zero h, ih.2]
      | succ j => simp [segment_cons_succ h, ih.2]

theorem SegmentwisePerm.flatMap (h : SegmentwisePerm align l₁ l₂) :
    SegmentwisePerm align (l₁.flatMap e) (l₂.flatMap e) := by
  obtain ⟨haligned₁, hsegments₁⟩ := segment_flatMap hkeep hdrop l₁
  obtain ⟨haligned₂, hsegments₂⟩ := segment_flatMap hkeep hdrop l₂
  refine ⟨by rw [haligned₁, h.aligned, haligned₂], fun j => ?_⟩
  rw [hsegments₁, hsegments₂]
  exact (h.segments j).flatMap_right e

end

section

variable {ι : Type} [Fintype ι]

/-- The lists together make up one stream, which aligned elements of the lists cut at the same
    places. -/
inductive Spread (align : α → Bool) : (ι → List α) → List α → Prop
  | nil : Spread align (fun _ => []) []
  | data {os : ι → List α} {g : List α} (xs : ι → List α) (ys : List α)
      (hsum : (ys : Multiset α) = ∑ w, (xs w : Multiset α)) (hys : ys.filter align = [])
      (h : Spread align os g) : Spread align (fun w => xs w ++ os w) (ys ++ g)
  | marker {os : ι → List α} {g : List α} {m : α} (hm : align m = true)
      (h : Spread align os g) : Spread align (fun w => m :: os w) (m :: g)

namespace Spread

variable {os : ι → List α} {g : List α}

/-- What is spread over the lists is as little aligned as the whole. -/
theorem filter_part {xs : ι → List α} {ys : List α}
    (hsum : (ys : Multiset α) = ∑ w, (xs w : Multiset α)) (hys : ys.filter align = []) (w : ι) :
    (xs w).filter align = [] := by
  rw [filter_eq_nil_iff] at hys ⊢
  intro a ha
  have hmem : a ∈ (ys : Multiset α) := by
    rw [hsum]
    exact mem_sum.mpr ⟨w, Finset.mem_univ w, mem_coe.mpr ha⟩
  exact hys a (mem_coe.mp hmem)

theorem filter_eq (h : Spread align os g) (w : ι) : (os w).filter align = g.filter align := by
  induction h with
  | nil => rfl
  | data xs ys hsum hys _ ih =>
    rw [filter_append, filter_append, filter_part hsum hys w, hys, ih]
  | marker hm _ ih => rw [filter_cons_of_pos hm, filter_cons_of_pos hm, ih]

/-- Each segment is spread over the segments of the lists. -/
theorem sum_segment (h : Spread align os g) (j : ℕ) :
    (g.segment align j : Multiset α) = ∑ w, ((os w).segment align j : Multiset α) := by
  induction h generalizing j with
  | nil => simp
  | @data os g xs ys hsum hys _ ih =>
    have hstep : ∀ l : List α, l.filter align = [] → ∀ r : List α,
        ((l ++ r).segment align j : Multiset α) =
          (if j = 0 then (l : Multiset α) else 0) + (r.segment align j : Multiset α) := by
      intro l hl r
      rw [segment_append, hl, segment_of_none hl]
      split <;> simp
    rw [hstep ys hys, Finset.sum_congr rfl fun w _ => hstep (xs w) (filter_part hsum hys w) (os w),
      Finset.sum_add_distrib, ih j, hsum]
    congr 1
    split
    · rfl
    · simp
  | @marker os g m hm _ ih =>
    cases j with
    | zero => simp [segment_cons_align_zero hm]
    | succ j => simpa only [segment_cons_align_succ hm] using ih j

/-- An aligned merge of the lists agrees with the stream they make up. -/
theorem segmentwisePerm [DecidableEq ι] [Nonempty ι] (h : Spread align os g) {out : List α}
    (hout : Aligned align os out) : SegmentwisePerm align out g := by
  obtain ⟨w⟩ := ‹Nonempty ι›
  constructor
  · rw [← hout.filter_eq w, h.filter_eq w]
  · intro j
    rw [← coe_eq_coe, (hout.shuffle_segment j).sum_eq, h.sum_segment j]

end Spread

end
