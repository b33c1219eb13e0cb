import Mathlib.Data.Int.Basic
import Mathlib.Data.List.SplitBy
import Mathlib.Data.List.Sort

/-!
# Points on a line, grouped by gaps

Points belong together if there is a chain of points between them in which neighbours are less than
`gap` apart. A `GapCover` of a set of points is a set of half-open intervals, one for each such
group: from the first point of the group to `gap` after the last one. There is only one for a set of
points. It can be had in two ways: point by point, merging all intervals that the interval of the
new point overlaps; or by sorting the points and cutting the list at the gaps.

## Key results

- `GapCover.insert`: one more point
- `GapCover.unique`: two covers of the same points are the same
- `gapCover_gapGroups`: sort and cut
-/

open List

/-- The intervals `S` are those of the groups of the points `T`. -/
structure GapCover (gap : Int) (T : Int → Prop) (S : Int × Int → Prop) : Prop where
  span : ∀ w, S w → w.1 < w.2
  first : ∀ w, S w → T w.1
  last : ∀ w, S w → T (w.2 - gap)
  cover : ∀ t, T t → ∃ w, S w ∧ w.1 ≤ t ∧ t + gap ≤ w.2
  -- no stretch of length `gap` between the first and the last point is without a point
  linked : ∀ w, S w → ∀ x, w.1 ≤ x → x + gap < w.2 → ∃ t, T t ∧ x < t ∧ t < x + gap
  disjoint : ∀ w, S w → ∀ w', S w' → w.1 < w'.2 → w'.1 < w.2 → w = w'

namespace GapCover

variable {gap : Int} {T T' : Int → Prop} {S S' : Int × Int → Prop}

theorem empty (gap : Int) : GapCover gap (fun _ => False) fun _ => False := by
  constructor <;> simp

theorem congr (h : GapCover gap T S) (hT : ∀ t, T' t ↔ T t) (hS : ∀ w, S' w ↔ S w) :
    GapCover gap T' S' := by
  obtain rfl : T' = T := funext fun t => propext (hT t)
  obtain rfl : S' = S := funext fun w => propext (hS w)
  exact h

/-- The interval that contains a point reaches at least `gap` beyond it. -/
theorem le_stop (h : GapCover gap T S) (pos : 0 < gap) {w : Int × Int} (hw : S w) {t : Int} (ht : T t)
    (hle : w.1 ≤ t) (hlt : t < w.2) : t + gap ≤ w.2 := by
  obtain ⟨w', hw', hle', hstop⟩ := h.cover t ht
  obtain rfl := h.disjoint w hw w' hw' (by omega) (by omega)
  exact hstop

/-! ## One more point -/

/-- An interval that the interval of a new point overlaps. -/
def Touches (gap t₀ : Int) (S : Int × Int → Prop) (w : Int × Int) : Prop :=
  S w ∧ t₀ < w.2 ∧ w.1 < t₀ + gap

/-- The new point's interval and all that it overlaps, as one interval. -/
structure Merges (gap t₀ : Int) (S : Int × Int → Prop) (m : Int × Int) : Prop where
  start_le : m.1 ≤ t₀
  start_le_of : ∀ w, Touches gap t₀ S w → m.1 ≤ w.1
  start_eq : m.1 = t₀ ∨ ∃ w, Touches gap t₀ S w ∧ m.1 = w.1
  le_stop : t₀ + gap ≤ m.2
  le_stop_of : ∀ w, Touches gap t₀ S w → w.2 ≤ m.2
  stop_eq : m.2 = t₀ + gap ∨ ∃ w, Touches gap t₀ S w ∧ m.2 = w.2

/-- What the new point's interval does not overlap, the merged interval does not overlap either:
    merging once is enough. -/
theorem Merges.touches_of_overlap {t₀ : Int} {m : Int × Int} (hm : Merges gap t₀ S m)
    (h : GapCover gap T S) {w : Int × Int} (hw : S w) (hlt : w.1 < m.2) (hlt' : m.1 < w.2) :
    Touches gap t₀ S w := by
  by_contra hnot
  have hapart : w.2 ≤ t₀ ∨ t₀ + gap ≤ w.1 := by
    by_contra hboth
    exact hnot ⟨hw, by omega, by omega⟩
  rcases hapart with hbefore | hafter
  · -- an overlapped interval reaches back to `w`
    rcases hm.start_eq with heq | ⟨o, ho, heq⟩
    · omega
    · have hspan := h.span w hw
      have hstop := ho.2.1
      obtain rfl := h.disjoint o ho.1 w hw (by omega) (by omega)
      exact hnot ho
  · rcases hm.stop_eq with heq | ⟨o, ho, heq⟩
    · omega
    · have hspan := h.span w hw
      have hstart := ho.2.2
      obtain rfl := h.disjoint o ho.1 w hw (by omega) (by omega)
      exact hnot ho

theorem insert (h : GapCover gap T S) (pos : 0 < gap) {t₀ : Int} {m : Int × Int}
    (hm : Merges gap t₀ S m) :
    GapCover gap (fun t => T t ∨ t = t₀) fun w => (S w ∧ ¬ Touches gap t₀ S w) ∨ w = m where
  span := by
    rintro w (⟨hw, -⟩ | rfl)
    · exact h.span w hw
    · have := hm.start_le
      have := hm.le_stop
      omega
  first := by
    rintro w (⟨hw, -⟩ | rfl)
    · exact .inl (h.first w hw)
    · rcases hm.start_eq with heq | ⟨o, ho, heq⟩
      · exact .inr heq
      · rw [heq]
        exact .inl (h.first o ho.1)
  last := by
    rintro w (⟨hw, -⟩ | rfl)
    · exact .inl (h.last w hw)
    · rcases hm.stop_eq with heq | ⟨o, ho, heq⟩
      · exact .inr (by omega)
      · rw [heq]
        exact .inl (h.last o ho.1)
  cover := by
    rintro t (ht | rfl)
    · obtain ⟨w, hw, hle, hstop⟩ := h.cover t ht
      by_cases htouch : Touches gap t₀ S w
      · have hstart := hm.start_le_of w htouch
        have hend := hm.le_stop_of w htouch
        exact ⟨m, .inr rfl, by omega, by omega⟩
      · exact ⟨w, .inl ⟨hw, htouch⟩, hle, hstop⟩
    · exact ⟨m, .inr rfl, hm.start_le, hm.le_stop⟩
  linked := by
    rintro w (⟨hw, -⟩ | rfl) x hle hlt
    · obtain ⟨t, ht, hbetween⟩ := h.linked w hw x hle hlt
      exact ⟨t, .inl ht, hbetween⟩
    · by_cases hx : x < t₀
      · -- either inside the leftmost interval or the new point is next
        rcases hm.start_eq with heq | ⟨o, ho, heq⟩
        · omega
        · by_cases hstop : x + gap < o.2
          · obtain ⟨t, ht, hbetween⟩ := h.linked o ho.1 x (by omega) hstop
            exact ⟨t, .inl ht, hbetween⟩
          · have := ho.2.1
            exact ⟨t₀, .inr rfl, hx, by omega⟩
      · -- either inside the rightmost interval or its first point is next
        rcases hm.stop_eq with heq | ⟨o, ho, heq⟩
        · omega
        · by_cases hstart : o.1 ≤ x
          · obtain ⟨t, ht, hbetween⟩ := h.linked o ho.1 x hstart (by omega)
            exact ⟨t, .inl ht, hbetween⟩
          · have := ho.2.2
            exact ⟨o.1, .inl (h.first o ho.1), by omega, by omega⟩
  disjoint := by
    rintro w (⟨hw, hnot⟩ | rfl) w' (⟨hw', hnot'⟩ | rfl) hlt hlt'
    · exact h.disjoint w hw w' hw' hlt hlt'
    · exact absurd (hm.touches_of_overlap h hw hlt hlt') hnot
    · exact absurd (hm.touches_of_overlap h hw' hlt' hlt) hnot'
    · rfl

/-- Points that lie apart are covered apart. -/
theorem union (h : GapCover gap T S) (h' : GapCover gap T' S')
    (hapart : ∀ w, S w → ∀ w', S' w' → w.2 ≤ w'.1) :
    GapCover gap (fun t => T t ∨ T' t) fun w => S w ∨ S' w where
  span w hw := hw.elim (h.span w) (h'.span w)
  first w hw := hw.imp (h.first w) (h'.first w)
  last w hw := hw.imp (h.last w) (h'.last w)
  cover t ht := by
    rcases ht with ht | ht
    · obtain ⟨w, hw, hle⟩ := h.cover t ht
      exact ⟨w, .inl hw, hle⟩
    · obtain ⟨w, hw, hle⟩ := h'.cover t ht
      exact ⟨w, .inr hw, hle⟩
  linked w hw x hle hlt := by
    rcases hw with hw | hw
    · obtain ⟨t, ht, hbetween⟩ := h.linked w hw x hle hlt
      exact ⟨t, .inl ht, hbetween⟩
    · obtain ⟨t, ht, hbetween⟩ := h'.linked w hw x hle hlt
      exact ⟨t, .inr ht, hbetween⟩
  disjoint w hw w' hw' hlt hlt' := by
    -- one of each cannot overlap
    rcases hw with hw | hw <;> rcases hw' with hw' | hw'
    · exact h.disjoint w hw w' hw' hlt hlt'
    · have := hapart w hw w' hw'
      omega
    · have := hapart w' hw' w hw
      omega
    · exact h'.disjoint w hw w' hw' hlt hlt'

/-! ## Uniqueness -/

section Unique

variable (h : GapCover gap T S) (h' : GapCover gap T S') (pos : 0 < gap)
include h h' pos

/-- An interval of one cover starts where the interval of the other one does that holds its first
    point. -/
theorem start_unique {w w' : Int × Int} (hw : S w) (hw' : S' w') (hle : w'.1 ≤ w.1)
    (hstop : w.1 + gap ≤ w'.2) : w'.1 = w.1 := by
  by_contra hne
  -- then some point is less than `gap` before the first point of `w`
  have hbefore : ∃ t, T t ∧ w.1 - gap < t ∧ t < w.1 := by
    by_cases hgap : w'.1 ≤ w.1 - gap
    · obtain ⟨t, ht, hlt, hlt'⟩ := h'.linked w' hw' (w.1 - gap) hgap (by omega)
      exact ⟨t, ht, hlt, by omega⟩
    · exact ⟨w'.1, h'.first w' hw', by omega, by omega⟩
  obtain ⟨t, ht, hlt, hlt'⟩ := hbefore
  obtain ⟨v, hv, hvle, hvstop⟩ := h.cover t ht
  have hspan := h.span w hw
  obtain rfl := h.disjoint v hv w hw (by omega) (by omega)
  omega

theorem stop_unique {w w' : Int × Int} (hw : S w) (hw' : S' w') (hstart : w'.1 = w.1) :
    w'.2 ≤ w.2 := by
  by_contra hlt
  have hlast := h.last w hw
  obtain ⟨v, hv, hvle, hvstop⟩ := h.cover _ hlast
  have hspan := h.span w hw
  obtain rfl := h.disjoint v hv w hw (by omega) (by omega)
  -- behind the last point of `w` there would be another one
  obtain ⟨t, ht, hlt₁, hlt₂⟩ := h'.linked w' hw' (v.2 - gap) (by omega) (by omega)
  have := h.le_stop pos hv ht (by omega) (by omega)
  omega

theorem subset {w : Int × Int} (hw : S w) : S' w := by
  obtain ⟨w', hw', hle, hstop⟩ := h'.cover w.1 (h.first w hw)
  have hstart := start_unique h h' pos hw hw' hle hstop
  have hle' := stop_unique h h' pos hw hw' hstart
  have hge := stop_unique h' h pos hw' hw hstart.symm
  obtain rfl : w = w' := Prod.ext hstart.symm (by omega)
  exact hw'

/-- The cover of a set of points is unique. -/
theorem unique (w : Int × Int) : S w ↔ S' w := ⟨subset h h' pos, subset h' h pos⟩

end Unique

end GapCover

/-! ## Sort and cut -/

section Groups

variable {α : Type*} (f : α → Int) (gap : Int)

/-- The groups of the elements of a list, by the point of each: the list is sorted and cut wherever
    two neighbours are at least `gap` apart. -/
def gapGroups (l : List α) : List (List α) :=
  (l.insertionSort fun a b => f a ≤ f b).splitBy fun a b => decide (f b - f a < gap)

/-- The interval of a group: from its first point to `gap` after its last. -/
def groupSpan : List α → Int × Int
  | [] => (0, 0)
  | a :: g => (f a, f ((a :: g).getLast (List.cons_ne_nil a g)) + gap)

/-- The groups as `splitBy` leaves them: of a sorted list, without gaps inside and with gaps in
    between. -/
structure Grouped (gs : List (List α)) : Prop where
  sorted : gs.flatten.Pairwise fun a b => f a ≤ f b
  nonempty : [] ∉ gs
  inside : ∀ g ∈ gs, g.IsChain fun a b => f b - f a < gap
  between : gs.IsChain fun g g' => ∃ h h', gap ≤ f (g'.head h') - f (g.getLast h)

theorem grouped_gapGroups (l : List α) : Grouped f gap (gapGroups f gap l) where
  sorted := by
    have htotal : Std.Total fun a b => f a ≤ f b := ⟨fun a b => le_total (f a) (f b)⟩
    have htrans : IsTrans α fun a b => f a ≤ f b := ⟨fun a b c => le_trans⟩
    rw [gapGroups, flatten_splitBy]
    exact pairwise_insertionSort _ l
  nonempty := nil_notMem_splitBy _ _
  inside g hg := by
    have hchain := isChain_of_mem_splitBy hg
    exact hchain.imp fun a b hab => of_decide_eq_true hab
  between := by
    have hchain := isChain_getLast_head_splitBy (fun a b => decide (f b - f a < gap))
      (l.insertionSort fun a b => f a ≤ f b)
    refine hchain.imp fun g g' hgg' => ?_
    obtain ⟨h, h', hfalse⟩ := hgg'
    exact ⟨h, h', not_lt.mp (of_decide_eq_false hfalse)⟩

theorem gapGroups_flatten_perm (l : List α) : (gapGroups f gap l).flatten.Perm l := by
  rw [gapGroups, flatten_splitBy]
  exact perm_insertionSort _ l

variable {f gap} {g : List α}

theorem groupSpan_eq (h : g ≠ []) : groupSpan f gap g = (f (g.head h), f (g.getLast h) + gap) := by
  cases g with
  | nil => exact absurd rfl h
  | cons a g => rfl

/-- The points of a sorted group lie in its interval. -/
theorem mem_groupSpan (gap : Int) (hsorted : g.Pairwise fun a b => f a ≤ f b) {a : α} (ha : a ∈ g) :
    (groupSpan f gap g).1 ≤ f a ∧ f a + gap ≤ (groupSpan f gap g).2 := by
  rw [groupSpan_eq (ne_nil_of_mem ha)]
  constructor
  · exact hsorted.rel_head ha
  · have := hsorted.rel_getLast ha
    dsimp only
    omega

/-- In a group without gaps the next point is near. -/
theorem exists_next (hchain : g.IsChain fun a b => f b - f a < gap) (h : g ≠ [])
    {x : Int} (hle : f (g.head h) ≤ x) (hlt : x < f (g.getLast h)) :
    ∃ a ∈ g, x < f a ∧ f a < x + gap := by
  induction g with
  | nil => exact absurd rfl h
  | cons a g ih =>
    cases g with
    | nil => exact absurd hle (not_le.mpr hlt)
    | cons b g =>
      obtain ⟨hab, hchain⟩ := isChain_cons_cons.mp hchain
      by_cases hb : f b ≤ x
      · obtain ⟨c, hc, hnext⟩ := ih hchain (cons_ne_nil b g) hb hlt
        exact ⟨c, mem_cons_of_mem a hc, hnext⟩
      · have hle' : f a ≤ x := hle
        exact ⟨b, mem_cons_of_mem a mem_cons_self, by omega, by omega⟩

/-- A single group. -/
theorem gapCover_group (pos : 0 < gap) (h : g ≠ [])
    (hsorted : g.Pairwise fun a b => f a ≤ f b) (hchain : g.IsChain fun a b => f b - f a < gap) :
    GapCover gap (fun t => ∃ a ∈ g, f a = t) fun w => w = groupSpan f gap g where
  span := by
    rintro w rfl
    have := mem_groupSpan gap hsorted (head_mem h)
    omega
  first := by
    rintro w rfl
    rw [groupSpan_eq h]
    exact ⟨_, head_mem h, rfl⟩
  last := by
    rintro w rfl
    rw [groupSpan_eq h]
    exact ⟨_, getLast_mem h, by dsimp only; omega⟩
  cover := by
    rintro t ⟨a, ha, rfl⟩
    exact ⟨_, rfl, mem_groupSpan gap hsorted ha⟩
  linked := by
    rintro w rfl x hle hlt
    rw [groupSpan_eq h] at hle hlt
    obtain ⟨a, ha, hnext⟩ := exists_next hchain h hle (by dsimp only at hlt; omega)
    exact ⟨f a, ⟨a, ha, rfl⟩, hnext⟩
  disjoint := by
    rintro w rfl w' rfl _ _
    rfl

namespace Grouped

variable {g : List α} {gs : List (List α)}

theorem tail (h : Grouped f gap (g :: gs)) : Grouped f gap gs where
  sorted := by
    have hsorted := h.sorted
    rw [flatten_cons, pairwise_append] at hsorted
    exact hsorted.2.1
  nonempty hmem := h.nonempty (mem_cons_of_mem g hmem)
  inside g' hg' := h.inside g' (mem_cons_of_mem g hg')
  between := h.between.tail

theorem sorted_group (h : Grouped f gap gs) (hg : g ∈ gs) : g.Pairwise fun a b => f a ≤ f b :=
  (pairwise_flatten.mp h.sorted).1 g hg

theorem ne_nil (h : Grouped f gap gs) (hg : g ∈ gs) : g ≠ [] := by
  rintro rfl
  exact h.nonempty hg

/-- Behind a group there is a gap. -/
theorem stop_le (h : Grouped f gap (g :: gs)) {g' : List α} (hg' : g' ∈ gs) :
    (groupSpan f gap g).2 ≤ (groupSpan f gap g').1 := by
  cases gs with
  | nil => cases hg'
  | cons g₁ gs =>
    obtain ⟨⟨hne, hne₁, hgap⟩, -⟩ := isChain_cons_cons.mp h.between
    have hne' := h.tail.ne_nil hg'
    -- the first point behind the gap is the lowest one of what follows
    have hfirst : f (g₁.head hne₁) ≤ f (g'.head hne') := by
      rcases mem_cons.mp hg' with rfl | hg'
      · exact le_refl _
      · have hsorted := h.tail.sorted
        rw [flatten_cons, pairwise_append] at hsorted
        exact hsorted.2.2 _ (head_mem hne₁) _ (mem_flatten.mpr ⟨g', hg', head_mem hne'⟩)
    rw [groupSpan_eq hne, groupSpan_eq hne']
    dsimp only
    omega

/-- The intervals of the groups follow one another. -/
theorem pairwise (h : Grouped f gap gs) :
    gs.Pairwise fun g g' => (groupSpan f gap g).2 ≤ (groupSpan f gap g').1 := by
  induction gs with
  | nil => exact Pairwise.nil
  | cons g gs ih => exact pairwise_cons.mpr ⟨fun g' hg' => h.stop_le hg', ih h.tail⟩

theorem gapCover (h : Grouped f gap gs) (pos : 0 < gap) :
    GapCover gap (fun t => ∃ a ∈ gs.flatten, f a = t) fun w => ∃ g ∈ gs, groupSpan f gap g = w := by
  induction gs with
  | nil => exact (GapCover.empty gap).congr (by simp) (by simp)
  | cons g gs ih =>
    have hg : g ∈ g :: gs := mem_cons_self
    have hgroup := gapCover_group pos (h.ne_nil hg) (h.sorted_group hg) (h.inside g hg)
    have hunion := hgroup.union (ih h.tail) (by
      rintro w rfl w' ⟨g', hg', rfl⟩
      exact h.stop_le hg')
    refine hunion.congr (fun t => ?_) (fun w => ?_)
    · simp [or_and_right, exists_or]
    · rw [eq_comm (a := w)]
      simp

/-- The elements in the interval of a group are those of the group. -/
theorem filter_flatten (h : Grouped f gap gs) (pos : 0 < gap) (hg : g ∈ gs) :
    (gs.flatten.filter fun a =>
      decide ((groupSpan f gap g).1 ≤ f a ∧ f a < (groupSpan f gap g).2)) = g := by
  have hin : ∀ {g' : List α}, g' ∈ gs → ∀ a ∈ g',
      (groupSpan f gap g').1 ≤ f a ∧ f a < (groupSpan f gap g').2 := by
    intro g' hg' a ha
    have := mem_groupSpan gap (h.sorted_group hg') ha
    omega
  induction gs with
  | nil => cases hg
  | cons g₀ gs ih =>
    rw [flatten_cons, filter_append]
    -- groups end before the next one starts, so the others have no element in the interval
    rcases mem_cons.mp hg with rfl | hmem
    · have hfirst := filter_eq_self.mpr fun a ha => decide_eq_true (hin hg a ha)
      have hrest : gs.flatten.filter (fun a =>
          decide ((groupSpan f gap g).1 ≤ f a ∧ f a < (groupSpan f gap g).2)) = [] := by
        rw [filter_eq_nil_iff]
        intro a ha hlt
        obtain ⟨g', hg', ha⟩ := mem_flatten.mp ha
        have hle := h.stop_le hg'
        have hstart := (hin (mem_cons_of_mem g hg') a ha).1
        have := (of_decide_eq_true hlt).2
        omega
      rw [hfirst, hrest, append_nil]
    · have hnone : g₀.filter (fun a =>
          decide ((groupSpan f gap g).1 ≤ f a ∧ f a < (groupSpan f gap g).2)) = [] := by
        rw [filter_eq_nil_iff]
        intro a ha hle
        have hstop := h.stop_le hmem
        have hlt := (hin mem_cons_self a ha).2
        have := (of_decide_eq_true hle).1
        omega
      rw [hnone, nil_append]
      exact ih h.tail hmem fun hg' => hin (mem_cons_of_mem g₀ hg')

end Grouped

/-- Sorting and cutting gives the cover of the points of a list. -/
theorem gapCover_gapGroups (pos : 0 < gap) (l : List α) :
    GapCover gap (fun t => ∃ a ∈ l, f a = t) fun w =>
      ∃ g ∈ gapGroups f gap l, groupSpan f gap g = w := by
  refine ((grouped_gapGroups f gap l).gapCover pos).congr (fun t => ?_) (fun w => Iff.rfl)
  simp only [(gapGroups_flatten_perm f gap l).mem_iff]

/-- And the groups hold the elements in their intervals. -/
theorem filter_perm_gapGroups (pos : 0 < gap) {l : List α} (hg : g ∈ gapGroups f gap l) :
    (l.filter fun a =>
      decide ((groupSpan f gap g).1 ≤ f a ∧ f a < (groupSpan f gap g).2)).Perm g := by
  have h := (gapGroups_flatten_perm f gap l).symm.filter fun a =>
    decide ((groupSpan f gap g).1 ≤ f a ∧ f a < (groupSpan f gap g).2)
  rwa [(grouped_gapGroups f gap l).filter_flatten pos hg] at h

end Groups
