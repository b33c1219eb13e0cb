import Weibo.ForStd.AlignedMerge

/-!
# The lanes of an aligned merge

`Lanes` is the state of a merge of `n` branches: what each branch has emitted, which branches are
parked, the common queue and the counter of the merge. Nothing is said about where the branches'
outputs come from or how long the queues may get; a program whose queues are bounded takes fewer of
these steps.

`Flow` says where every element that a branch has emitted is.  Each of the
merge's steps keeps it, provided that the branches agree on the aligned
elements.
-/

variable {α : Type} {align : α → Bool} {n : ℕ}

/-- The branches on their way through a merge. -/
@[ext]
structure Lanes (α : Type) (n : ℕ) where
  /-- What the branches have emitted and not put into the common queue yet. -/
  ahead : Fin n → List α
  parked : Fin n → Bool
  /-- The common queue, with the branch each element comes from. -/
  fanIn : List (Fin n × α)
  merge : MergePc

namespace Lanes

open Function List

/-- Lanes that differ at most in one branch are equal if they agree there. -/
theorem ext_at {l l' : Lanes α n} (w : Fin n)
    (hoff : ∀ v, v ≠ w → l.ahead v = l'.ahead v ∧ l.parked v = l'.parked v)
    (hahead : l.ahead w = l'.ahead w) (hparked : l.parked w = l'.parked w)
    (hfanIn : l.fanIn = l'.fanIn) (hmerge : l.merge = l'.merge) : l = l' := by
  refine Lanes.ext (funext fun v => ?_) (funext fun v => ?_) hfanIn hmerge
  all_goals by_cases hv : v = w
  all_goals simp [hv, hoff, hahead, hparked]

/-- The part of the common queue that comes from one branch. -/
def fanInOf (l : Lanes α n) (w : Fin n) : List α :=
  l.fanIn.filterMap fun x => if x.1 = w then some x.2 else none

/-- Where everything the branches have sent is. Of what branch `w` has sent, `os w` is in the merged
    stream `dst`, `held w` is the aligned element that the merge holds back, and the rest is in the
    queues. -/
structure Flow (align : α → Bool) (l : Lanes α n) (sent os held : Fin n → List α)
    (st : Fin n → LaneStatus) (dst : List α) : Prop where
  sent_eq : ∀ w, sent w = os w ++ held w ++ l.fanInOf w ++ l.ahead w
  aligned : Aligned align os dst
  lane : ∀ w, LaneOk align (st w) (l.parked w) (held w) (l.fanInOf w)
  merge_ok : MergeOk l.merge st

/-- The branches agree on the aligned elements as far as they have sent them. -/
def Agree (align : α → Bool) (sent : Fin n → List α) : Prop :=
  ∀ w v, (sent w).filter align <+: (sent v).filter align ∨
    (sent v).filter align <+: (sent w).filter align

/-- Initial parts of one and the same list agree. -/
theorem agree_of_isPrefix {sent : Fin n → List α} {ms : List α}
    (h : ∀ w, (sent w).filter align <+: ms) : Agree align sent :=
  fun w v => prefix_or_prefix_of_prefix (h w) (h v)

variable {w : Fin n} {a : α}

theorem fanInOf_concat {l l' : Lanes α n} (h : l'.fanIn = l.fanIn ++ [(w, a)]) (v : Fin n) : l'.fanInOf v = l.fanInOf v ++ if w = v then [a] else [] := by
  simp only [fanInOf, h, filterMap_append]
  by_cases hw : w = v
  · simp [hw]
  · simp [hw]

theorem fanInOf_self {l : Lanes α n} {rest : List (Fin n × α)} (h : l.fanIn = (w, a) :: rest)
    (m : MergePc) : l.fanInOf w = a :: fanInOf { l with fanIn := rest, merge := m } w := by
  simp [fanInOf, h]

theorem fanInOf_of_ne {l : Lanes α n} {rest : List (Fin n × α)} (h : l.fanIn = (w, a) :: rest)
    (m : MergePc) {v : Fin n} (hv : v ≠ w) :
    l.fanInOf v = fanInOf { l with fanIn := rest, merge := m } v := by
  simp [fanInOf, h, hv.symm]

namespace Flow

variable {l : Lanes α n} {sent os held : Fin n → List α} {st : Fin n → LaneStatus} {dst : List α}
  {rest : List (Fin n × α)}

/-- Nothing has been sent and nobody waits. -/
theorem start (pos : 0 < n) :
    Flow align (⟨fun _ => [], fun _ => false, [], .receiving 0⟩ : Lanes α n) (fun _ => [])
      (fun _ => []) (fun _ => []) (fun _ => .free) [] := by
  refine ⟨fun _ => rfl, .nil, ?_, pos, ?_, ?_⟩
  · intro w
    exact ⟨rfl, rfl, fun a ha => absurd ha (by simp [fanInOf])⟩
  · symm
    rw [Finset.card_eq_zero, Finset.filter_eq_empty_iff]
    intro w _
    show LaneStatus.free ≠ .counted
    decide
  · intro w
    show LaneStatus.free ≠ .waking
    decide

variable (h : Flow align l sent os held st dst)

include h

/-- A branch emits more. -/
theorem feed (w : Fin n) (xs : List α) :
    Flow align { l with ahead := update l.ahead w (l.ahead w ++ xs) }
      (update sent w (sent w ++ xs)) os held st dst := by
  refine ⟨?_, h.aligned, h.lane, h.merge_ok⟩
  intro v
  show _ = os v ++ held v ++ l.fanInOf v ++ update l.ahead w (l.ahead w ++ xs) v
  by_cases hv : v = w
  · subst hv
    rw [update_self, update_self, h.sent_eq v, append_assoc]
  · rw [update_of_ne hv, update_of_ne hv, h.sent_eq v]

/-- A branch that is not parked puts an element into the common queue. -/
theorem collect {rest : List α} (hp : l.parked w = false) (hahead : l.ahead w = a :: rest) :
    Flow align { l with
        ahead := update l.ahead w rest
        fanIn := l.fanIn ++ [(w, a)]
        parked := update l.parked w (align a) } sent os held
      (update st w (if align a then .sent else .free)) dst := by
  have hfree : st w = .free := (h.lane w).eq_free hp
  have hconcat : ∀ v, fanInOf { l with
        ahead := update l.ahead w rest
        fanIn := l.fanIn ++ [(w, a)]
        parked := update l.parked w (align a) } v =
      l.fanInOf v ++ if w = v then [a] else [] := fanInOf_concat rfl
  refine ⟨?_, h.aligned, ?_, ?_⟩
  · intro v
    rw [h.sent_eq v, hconcat v]
    by_cases hv : v = w
    · subst hv
      simp [hahead]
    · simp [update_of_ne hv, if_neg (Ne.symm hv)]
  · intro v
    rw [hconcat v]
    by_cases hv : v = w
    · subst hv
      simp only [update_self, if_true]
      have hlane := h.lane v
      rw [hfree] at hlane
      exact hlane.collect a
    · simp only [update_of_ne hv, if_neg (Ne.symm hv), append_nil]
      exact h.lane v
  · apply h.merge_ok.collect hfree
    split
    · exact .inr rfl
    · exact .inl rfl

/-- The merge emits an element that is not aligned. -/
theorem merge_data (hfan : l.fanIn = (w, a) :: rest) (ha : align a = false) :
    Flow align { l with fanIn := rest } sent (update os w (os w ++ [a])) held st (dst ++ [a]) := by
  -- in front of data the merge holds nothing of this branch
  have hlane := h.lane w
  rw [fanInOf_self hfan l.merge] at hlane
  obtain ⟨hheld, hafter⟩ := hlane.take ha
  refine ⟨?_, h.aligned.data w ha, ?_, h.merge_ok⟩
  · intro v
    rw [h.sent_eq v]
    by_cases hv : v = w
    · subst hv
      rw [fanInOf_self hfan l.merge, hheld, update_self]
      simp
    · rw [fanInOf_of_ne hfan l.merge hv, update_of_ne hv]
  · intro v
    by_cases hv : v = w
    · subst hv
      exact hafter
    · exact fanInOf_of_ne hfan l.merge hv ▸ h.lane v

/-- The merge holds an aligned element back. -/
theorem merge_hold {k : ℕ} (hpc : l.merge = .receiving k)
    (hfan : l.fanIn = (w, a) :: rest) (ha : align a = true) (hk : k + 1 < n) :
    Flow align { l with fanIn := rest, merge := .receiving (k + 1) } sent os
      (update held w [a]) (update st w .counted) dst := by
  have hlane := h.lane w
  rw [fanInOf_self hfan (.receiving (k + 1))] at hlane
  obtain ⟨hsent, hparked, hheld, hempty⟩ := hlane.arrive ha
  have hmerge := h.merge_ok
  rw [hpc] at hmerge
  refine ⟨?_, h.aligned, ?_, hmerge.count hsent hk⟩
  · intro v
    rw [h.sent_eq v]
    by_cases hv : v = w
    · subst hv
      rw [fanInOf_self hfan (.receiving (k + 1)), hheld, update_self]
      simp
    · rw [fanInOf_of_ne hfan (.receiving (k + 1)) hv, update_of_ne hv]
  · intro v
    by_cases hv : v = w
    · subst hv
      rw [update_self, update_self]
      exact ⟨hparked, hempty, a, rfl, ha⟩
    · rw [update_of_ne hv, update_of_ne hv]
      exact fanInOf_of_ne hfan (.receiving (k + 1)) hv ▸ h.lane v

/-- What branches hold next after the merged stream is the same aligned element. -/
theorem next_eq (hagree : Agree align sent) {v : Fin n} {b : α} {r t : List α} (ha : align a = true)
    (hb : align b = true) (hw : held w ++ l.fanInOf w ++ l.ahead w = a :: r)
    (hv : held v ++ l.fanInOf v ++ l.ahead v = b :: t) : a = b := by
  -- both continue the aligned elements of the merged stream
  have hfilter : ∀ {u : Fin n} {c : α} {q : List α}, align c = true →
      held u ++ l.fanInOf u ++ l.ahead u = c :: q →
      (sent u).filter align = dst.filter align ++ c :: q.filter align := by
    intro u c q hc hu
    rw [h.sent_eq u, append_assoc (os u ++ held u), append_assoc (os u), ← append_assoc (held u),
      hu, filter_append, h.aligned.filter_eq u, filter_cons_of_pos hc]
  rcases hagree w v with hpre | hpre
  · rw [hfilter ha hw, hfilter hb hv, prefix_append_right_inj] at hpre
    exact (cons_prefix_cons.mp hpre).1
  · rw [hfilter ha hw, hfilter hb hv, prefix_append_right_inj] at hpre
    exact (cons_prefix_cons.mp hpre).1.symm

/-- The last copy of an aligned element has arrived: it is emitted once for all branches. -/
theorem merge_emit (hagree : Agree align sent) {k : ℕ} (hpc : l.merge = .receiving k)
    (hfan : l.fanIn = (w, a) :: rest) (ha : align a = true) (hk : ¬ k + 1 < n) :
    Flow align { l with fanIn := rest, merge := .resuming 0 } sent (fun v => os v ++ [a])
      (fun _ => []) (fun _ => .waking) (dst ++ [a]) := by
  have hself := fanInOf_self hfan (.resuming 0)
  have hlane := h.lane w
  rw [hself] at hlane
  obtain ⟨hsent, hparked, hheld, hempty⟩ := hlane.arrive ha
  have hmerge := h.merge_ok
  rw [hpc] at hmerge
  have hnext : held w ++ l.fanInOf w ++ l.ahead w = a :: l.ahead w := by
    rw [hheld, hself, hempty]
    rfl
  -- every other branch is parked and the merge holds its copy of `a`
  have hother : ∀ v, v ≠ w → l.parked v = true ∧ l.fanInOf v = [] ∧ held v = [a] := by
    intro v hv
    have hv' := h.lane v
    rw [hmerge.all_counted hsent hk hv] at hv'
    obtain ⟨hpv, hfv, b, hbv, hb⟩ := hv'
    refine ⟨hpv, hfv, ?_⟩
    have hnextv : held v ++ l.fanInOf v ++ l.ahead v = b :: l.ahead v := by
      rw [hbv, hfv]
      rfl
    rw [hbv, h.next_eq hagree hb ha hnextv hnext]
  refine ⟨?_, h.aligned.marker ha, ?_, ?_⟩
  · intro v
    rw [h.sent_eq v]
    by_cases hv : v = w
    · subst hv
      rw [append_assoc, append_assoc, ← append_assoc (held v), hnext, hempty]
      simp
    · obtain ⟨-, hfv, hbv⟩ := hother v hv
      rw [← fanInOf_of_ne hfan (.resuming 0) hv, hfv, hbv]
      simp
  · intro v
    by_cases hv : v = w
    · subst hv
      exact ⟨hparked, rfl, hempty⟩
    · obtain ⟨hpv, hfv, -⟩ := hother v hv
      exact ⟨hpv, rfl, (fanInOf_of_ne hfan _ hv).symm.trans hfv⟩
  · refine ⟨Nat.lt_of_le_of_lt (Nat.zero_le _) w.isLt, ?_⟩
    intro v
    rw [if_pos (Nat.zero_le _)]

/-- The merge resumes a branch. -/
theorem resume {k : ℕ} (hpc : l.merge = .resuming k) (hk : k < n) : Flow align { l with
        parked := update l.parked ⟨k, hk⟩ false
        merge := if k + 1 < n then .resuming (k + 1) else .receiving 0 } sent os held
      (update st ⟨k, hk⟩ .free) dst := by
  have hmerge := h.merge_ok
  rw [hpc] at hmerge
  refine ⟨h.sent_eq, h.aligned, ?_, hmerge.resume⟩
  intro v
  by_cases hv : v = ⟨k, hk⟩
  · subst hv
    have hlane := h.lane ⟨k, hk⟩
    rw [hmerge.waking] at hlane
    obtain ⟨-, hheld, hempty⟩ := hlane
    simp only [update_self]
    refine ⟨rfl, hheld, ?_⟩
    intro a hmem
    have hmem' : a ∈ l.fanInOf ⟨k, hk⟩ := hmem
    rw [hempty] at hmem'
    simp at hmem'
  · simp only [update_of_ne hv]
    exact h.lane v

end Flow

end Lanes
