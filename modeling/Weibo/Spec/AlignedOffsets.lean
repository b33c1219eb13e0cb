import Weibo.ForStd.Run
import Weibo.Model.OffsetTracker

/-!
# Do checkpoint offsets cover every partition across restarts?

The source's tracker seeds its map with the restored offsets, so that a
partition that stays quiet keeps its position (`tracker_position`).  The injector
keeps a map of its own that starts empty in every run, and this is the map
checkpoints are made of: a partition that receives no record in a run
disappears from the checkpoints of that run (`quiet_partition_dropped`).
`offsets_complete_iff_busy` says exactly when all partitions are covered.
-/

namespace Weibo

open List Option

/-! ## The last record of a partition -/

theorem nextForwarded_isSome {rs : List Record} {p : Int} :
    (nextForwarded rs p).isSome ↔ ∃ r ∈ rs, r.isData = true ∧ r.partition = p := by
  unfold nextForwarded
  rw [isSome_map, getLast?_isSome]
  constructor
  · intro hne
    obtain ⟨r, hr⟩ := exists_mem_of_ne_nil _ hne
    rw [mem_filter, Bool.and_eq_true, beq_iff_eq] at hr
    exact ⟨r, hr.1, hr.2⟩
  · rintro ⟨r, hr, hdata, hp⟩
    apply ne_nil_of_mem (a := r)
    rw [mem_filter, hdata, hp]
    exact ⟨hr, by simp⟩

namespace OffsetRun

variable {s s' : OffsetRun}

/-! ## What the two maps hold -/

/-- The injector's map says what this run has forwarded, the tracker's map what it has read on top
    of what it restored. -/
structure Inv (s : OffsetRun) : Prop where
  aligned : ∀ p, s.inj.offsets p = nextForwarded s.forwarded p
  tracked : ∀ p, s.tracker.consumed p =
    (nextForwarded (s.forwarded ++ s.sourceCh) p).or (s.restored p)

theorem inv_initial : Inv initial := ⟨fun _ => rfl, fun _ => rfl⟩

theorem inv_step (e : Event) (h : Inv s) (hs : step s e = some s') : Inv s' := by
  revert hs
  fun_cases step s e <;> intro hs <;> cases hs
  case case3.refl =>
    refine ⟨fun _ => rfl, fun p => ?_⟩
    show OffsetTracker.consumed _ p = Option.or none (OffsetTracker.restored _ p)
    cases s.saved with
    | none => rfl
    | some offsets => exact none_or.symm
  case case4.refl r _ =>
    refine ⟨h.aligned, fun p => ?_⟩
    have hp := h.tracked p
    cases hd : r.isData with
    | false =>
      simp only [restored, ← append_assoc, nextForwarded_append_marker hd] at hp ⊢
      exact hp
    | true =>
      simp only [restored, if_true, ← append_assoc, nextForwarded_append_data hd] at hp ⊢
      show Function.update s.tracker.consumed r.partition _ p = _
      rw [Function.update_apply]
      split
      · rfl
      · exact hp
  case case7.refl r _ hch _ _ =>
    refine ⟨Injector.track_aligned h.aligned r, fun p => ?_⟩
    -- the record moves from the channel to the forwarded ones
    have hp := h.tracked p
    rw [hch, append_cons] at hp
    exact hp
  all_goals exact ⟨h.aligned, h.tracked⟩

/-! ## Registrations -/

/-- A registration covers exactly the partitions that were busy in its run. -/
theorem complete_iff_busy (h : Inv s) (id : String) :
    Registration.Complete ⟨id, s.inj.offsets, s.restored, s.forwarded, s.consumed⟩ ↔
      ∀ p, p ∈ s.consumed ∨ (s.restored p).isSome →
        ∃ r ∈ s.forwarded, r.isData = true ∧ r.partition = p := by
  constructor
  · intro hc p hp
    obtain ⟨n, -, hn⟩ := hc p hp
    rw [← nextForwarded_isSome, ← h.aligned p]
    exact isSome_iff_exists.mpr ⟨n, hn⟩
  · intro hbusy p hp
    obtain ⟨n, hn⟩ := isSome_iff_exists.mp (nextForwarded_isSome.mpr (hbusy p hp))
    refine ⟨n, ?_, (h.aligned p).trans hn⟩
    show (nextForwarded s.forwarded p).or _ = some n
    rw [hn]
    rfl

theorem allComplete_step (e : Event) (h : Inv s) (hP : s.AllComplete) (hs : step s e = some s') : s'.AllComplete ↔ AllBusy s e := by
  revert hs
  fun_cases step s e <;> intro hs <;> cases hs
  case case9.refl kind _ =>
    -- only the new registration can be incomplete
    rw [AllBusy, ← complete_iff_busy h (s.inj.nextID kind)]
    constructor
    · intro hall
      exact hall _ (mem_append_right _ mem_cons_self)
    · intro hnew g hg
      rcases List.mem_append.mp hg with hold | hlast
      · exact hP g hold
      · rw [mem_singleton.mp hlast]
        exact hnew
  all_goals exact iff_of_true hP trivial

/-- All registrations of a run of runs are complete exactly when no barrier is injected before every
    partition it has to cover has delivered a record. -/
theorem offsets_complete_iff_busy (es : List Event) :
    Run.Always step AllComplete initial es ↔ Run.Along step AllBusy initial es :=
  Run.always_iff_along (fun _ e _ hi _ hs _ => inv_step e hi hs)
    (fun _ e _ hi hp hs => allComplete_step e hi hp hs) inv_initial
    (fun g hg => absurd hg (by simp [initial]))

/-- Both partitions are busy in the first run, only partition 0 in the second. -/
def quietSecondRun : List Event :=
  [.start 1, .emit { partition := 0, offset := 0 }, .emit { partition := 1, offset := 0 },
    .forward, .forward, .barrier .periodic, .save "cp-1-1", .crash, .start 2,
    .emit { partition := 0, offset := 1 }, .forward, .barrier .periodic]

/-- The second run restores partition 1 at offset 1, and its checkpoint does not mention the
    partition. -/
theorem quiet_partition_dropped :
    ∃ s, Run.exec step initial quietSecondRun = some s ∧ s.restored 1 = some 1 ∧
      (∃ g ∈ s.registered, g.id = "cp-2-1" ∧ g.offsets 0 = some 2 ∧ g.offsets 1 = none) ∧
      ¬ s.AllComplete := by
  have hrestored : (Run.exec step initial quietSecondRun).map (fun s => s.restored 1) =
      some (some 1) := by decide
  have hregistered : (Run.exec step initial quietSecondRun).map
      (fun s => s.registered.map fun g => (g.id, g.offsets 0, g.offsets 1, g.restored 1)) =
      some [("cp-1-1", some 1, some 1, none), ("cp-2-1", some 2, none, some 1)] := by decide
  obtain ⟨s, hs, hrestored⟩ := map_eq_some_iff.mp hrestored
  rw [hs, map_some, some.injEq] at hregistered
  have hmem : ("cp-2-1", some 2, none, some 1) ∈
      s.registered.map fun g => (g.id, g.offsets 0, g.offsets 1, g.restored 1) := by
    rw [hregistered]
    simp
  obtain ⟨g, hg, heq⟩ := List.mem_map.mp hmem
  simp only [Prod.mk.injEq] at heq
  obtain ⟨hid, h0, h1, hr⟩ := heq
  refine ⟨s, hs, hrestored, ⟨g, hg, hid, h0, h1⟩, fun hall => ?_⟩
  obtain ⟨n, -, hn⟩ := hall g hg 1 (.inr (by rw [hr]; rfl))
  rw [h1] at hn
  simp at hn

end OffsetRun

end Weibo
