import Weibo.ForStd.Run
import Weibo.Model.Plan

/-!
# A barrier is a consistent cut

The offsets registered for a barrier and the states that operators and clones hand to their
callbacks as the barrier passes belong to one and the same prefix of the stream, although each of
them is taken at another time and post-barrier records are already under way elsewhere.

The stages do the work: `planComponent` is a component, so what is observed at
a barrier anywhere in it is due to exactly what was forwarded ahead of that
barrier.  What is left is that the injector's barriers are all different and
that its offsets keep up with what it forwards.
-/

namespace Weibo

open Function List Record

/-! ## Plans start out empty -/

section Fresh

/-- Components of single operators. -/
abbrev OperatorComponent := Component OperatorCell
  (Cell.Config KeyOrder Record (Option OperatorSnapshot) Record.isCut Record.isMarker)
  (Cell.Event KeyOrder) (Option OperatorSnapshot) Record.isCut Record.isMarker

variable {comp : OperatorComponent} (hfresh : ∀ M init, comp.Ok (Cell.fresh M init) [] [])
  (hpasses : ∀ M i j, comp.passes (comp.config (Cell.fresh M i)) =
    comp.passes (comp.config (Cell.fresh M j)))

include hfresh in
theorem chain_ok_fresh {ι : Type*} (loop : ι → OperatorLoop) (init : ∀ i, (loop i).State)
    (is : List ι) :
    comp.chain.Ok (is.map fun i => Cell.fresh (loop i) (init i)) [] [] := by
  induction is with
  | nil => rfl
  | cons i is ih => exact ⟨[], hfresh (loop i) (init i), ih⟩

include hpasses in
/-- The clones of two workers differ in their states only. -/
theorem chain_passes_fresh {ι : Type*} (loop : ι → OperatorLoop) (i j : ∀ k, (loop k).State)
    (is : List ι) :
    comp.chain.passes (comp.chain.config (is.map fun k => Cell.fresh (loop k) (i k))) =
      comp.chain.passes (comp.chain.config (is.map fun k => Cell.fresh (loop k) (j k))) := by
  funext a
  show comp.chainPasses (_ : List _) a = comp.chainPasses (_ : List _) a
  simp only [Component.chainPasses, Component.chain, map_map, all_map, comp_def]
  congr 1
  funext k
  rw [hpasses (loop k) (i k) (j k)]

variable {tf : TimeFormat}

include hfresh hpasses in
/-- The workers of a keyed stage have got nothing yet. -/
theorem keyed_flow_fresh (kb : KeyBy)
    (clones : List ((op : StatefulOperator) × (Fin kb.partitions → (op.loop tf).State))) :
    Fork.Flow comp.chain (Fork.fresh kb.pos kb.router () fun w =>
        clones.map fun c => Cell.fresh (c.1.loop tf) (c.2 w)) [] [] [] (fun _ => []) (fun _ => [])
      (fun _ => []) fun _ => .free := by
  apply Fork.flow_fresh comp.chain
  · intro w
    exact chain_ok_fresh hfresh (fun c => c.1.loop tf) (fun c => c.2 w) clones
  · intro w v
    exact chain_passes_fresh hpasses (fun c => c.1.loop tf) (fun c => c.2 w) (fun c => c.2 v)
      clones

include hfresh hpasses in
/-- A stage has consumed and emitted nothing yet. -/
theorem StageSpec.build_ok (spec : StageSpec tf) :
    (comp.either comp.chain.fork).Ok spec.build [] [] := by
  cases spec with
  | channel op init => exact hfresh (op.loop tf) init
  | stateless ops parallelism =>
    by_cases h : 1 < parallelism
    · rw [build, dif_pos h]
      apply Fork.ok_fresh comp.chain
      · intro w
        exact chain_ok_fresh hfresh (fun _ : Unit => statelessLoop ops) (fun _ => ()) [()]
      · intro w v
        rfl
    · rw [build, dif_neg h]
      exact hfresh (statelessLoop ops) ()
  | keyed kb clones => exact ⟨_, _, _, _, _, keyed_flow_fresh hfresh hpasses kb clones⟩

variable (comp) in
include hfresh hpasses in
theorem plan_ok_build (plan : List (StageSpec tf)) :
    (comp.either comp.chain.fork).chain.Ok (plan.map StageSpec.build) [] [] := by
  induction plan with
  | nil => rfl
  | cons spec plan ih => exact ⟨[], spec.build_ok hfresh hpasses, ih⟩

end Fresh

theorem planComponent_ok_build (plan : List (StageSpec tf)) :
    planComponent.Ok (plan.map StageSpec.build) [] [] :=
  plan_ok_build operatorComponent Cell.ok_fresh (fun _ _ _ => rfl) plan

/-! ## Sequential reduce -/

/-- One `Reduce` over a stream, with nothing else around it. -/
def reduceAll (tf : TimeFormat) (fn : ReduceFn) (s : ReduceState) (rs : List Record) :
    ReduceState :=
  rs.foldl (fun s r => if r.isData then (reduceRecord tf fn s r).1 else s) s

theorem reduceAll_cons (tf : TimeFormat) (fn : ReduceFn) (s : ReduceState) (r : Record)
    (rs : List Record) :
    reduceAll tf fn s (r :: rs) =
      reduceAll tf fn (if r.isData then (reduceRecord tf fn s r).1 else s) rs := rfl

/-- The operator's loop leads to the state of the sequential `Reduce`, whatever the environment
    chooses. -/
theorem reduceLoop_state (tf : TimeFormat) (fn : ReduceFn) (s : ReduceState)
    (done : List (KeyOrder × Record)) :
    (reduceLoop tf fn).toTransducer.state s done = reduceAll tf fn s (done.map Prod.snd) := by
  -- the order the environment chooses is not read by this operator
  induction done generalizing s with
  | nil => rfl
  | cons x done ih =>
    rw [Transducer.state, ih, map_cons, reduceAll_cons]
    congr 1
    cases hc : x.2.isCut with
    | true =>
      rw [Machine.toTransducer_step_cut _ hc, if_neg]
      simp [isData, (Bool.and_eq_true_iff.mp hc).1]
    | false =>
      rw [Machine.toTransducer_step_of_not_cut _ hc]
      have hdata : x.2.isData = !x.2.isWatermark := by
        rw [← isMarker_of_not_isCut hc, isMarker_eq_not_isData, Bool.not_not]
      show (if x.2.isWatermark then (s, [x.2]) else reduceRecord tf fn s x.2).1 = _
      rw [hdata]
      cases x.2.isWatermark <;> rfl

/-- The record carries no window bounds. -/
def Unwindowed (r : Record) : Prop :=
  r.headers.lookup "window_start" = none ∧ r.headers.lookup "window_end" = none

/-- A worker's `Reduce` state is the part of the sequential one that holds the keys routed to the
    worker. -/
theorem reduceAll_lane (tf : TimeFormat) (fn : ReduceFn) (kb : KeyBy) (w : Fin kb.partitions)
    {pre : List Record} (hpre : ∀ r ∈ pre, Unwindowed r) {s t : ReduceState}
    (hst : ∀ k, t.entries k = if kb.routeKey k = w then s.entries k else none) (k : Bytes) :
    (reduceAll tf fn t ((kb.router.lane w).outs () pre)).entries k =
      if kb.routeKey k = w then (reduceAll tf fn s (pre.map kb.rekey)).entries k else none := by
  induction pre generalizing s t with
  | nil => exact hst k
  | cons r pre ih =>
    have hrest : ∀ r ∈ pre, Unwindowed r := fun r hr => hpre r (mem_cons_of_mem _ hr)
    obtain ⟨hstart, hend⟩ := hpre r mem_cons_self
    rw [map_cons, reduceAll_cons, kb.rekey_isData]
    cases hm : r.isMarker with
    | true =>
      -- a marker goes to every worker and changes no state
      have hdata := isMarker_eq_true.mp hm
      rw [kb.lane_outs_marker w hm, reduceAll_cons, hdata]
      exact ih hrest hst
    | false =>
      have hdata := isMarker_eq_false.mp hm
      have hentries : ∀ u : ReduceState, (reduceRecord tf fn u (kb.rekey r)).1.entries =
          update u.entries (kb.keySelector r)
            (some ((fn (u.entries (kb.keySelector r)) (kb.rekey r)).getD [])) := fun u =>
        reduceRecord_of_no_window tf fn u hstart hend
      rw [kb.lane_outs_data w hm, hdata, if_pos rfl]
      by_cases hw : kb.routeKey (kb.keySelector r) = w
      · -- routed here: both states take the record
        rw [if_pos hw, singleton_append, reduceAll_cons, kb.rekey_isData, hdata, if_pos rfl]
        apply ih hrest
        intro k'
        rw [hentries, hentries, hst (kb.keySelector r), if_pos hw]
        by_cases hk : k' = kb.keySelector r
        · subst hk
          rw [update_self, update_self, if_pos hw]
        · rw [update_of_ne hk, update_of_ne hk]
          exact hst k'
      · -- routed elsewhere: the sequential state changes at a key of another worker
        rw [if_neg hw, nil_append]
        apply ih hrest
        intro k'
        rw [hentries, hst k']
        by_cases hk : k' = kb.keySelector r
        · subst hk
          rw [if_neg hw, if_neg hw]
        · rw [update_of_ne hk]

/-- The union of the workers' snapshots: the entry of the first worker that has one. -/
def unionEntries {n : ℕ} (snaps : Fin n → Bytes → Option Bytes) (k : Bytes) : Option Bytes :=
  (List.finRange n).findSome? fun w => snaps w k

/-- The union of the parts of a map is the map. -/
theorem unionEntries_of_split {n : ℕ} {snaps : Fin n → Bytes → Option Bytes}
    {f : Bytes → Option Bytes} (route : Bytes → Fin n)
    (h : ∀ w k, snaps w k = if route k = w then f k else none) : unionEntries snaps = f := by
  funext k
  cases hf : f k with
  | none =>
    rw [unionEntries, findSome?_eq_none_iff]
    intro w _
    rw [h, hf, ite_self]
  | some v =>
    -- the worker of the key has the entry, so some first one has
    have hne : unionEntries snaps k ≠ none := by
      intro hnone
      have hw := findSome?_eq_none_iff.mp hnone (route k) (mem_finRange _)
      rw [h, if_pos rfl, hf] at hw
      simp at hw
    obtain ⟨u, hu⟩ := Option.ne_none_iff_exists'.mp hne
    obtain ⟨w, -, hw⟩ := exists_of_findSome?_eq_some hu
    rw [h] at hw
    split at hw
    · rw [hu, ← hw, hf]
    · simp at hw

/-! ## The cut -/

namespace CutRun

variable {tf : TimeFormat} {plan : List (StageSpec tf)} {s s' : CutRun}

/-- What a barrier cuts off. In each clause `pre` is what the injector forwarded ahead of the
    barrier. -/
structure ConsistentCut (plan : List (StageSpec tf)) (s : CutRun) : Prop where
  /-- Offsets are registered for every barrier, and they are the next offsets of what was forwarded
      ahead of it. -/
  offsets : ∀ id pre, pre ++ [Record.newBarrier id] <+: s.forwarded →
    (id, nextForwarded pre) ∈ s.registered ∧
    ∀ offs, (id, offs) ∈ s.registered → offs = nextForwarded pre
  /-- Callbacks are called for barriers of the injector only. -/
  barriers : ∀ m c, (m, c) ∈ s.handed → ∃ id pre, m = Record.newBarrier id ∧
    pre ++ [m] <+: s.forwarded
  /-- What is handed to a callback is the state that exactly those records lead to. -/
  states : ∀ id pre c, pre ++ [Record.newBarrier id] <+: s.forwarded →
    (Record.newBarrier id, c) ∈ s.handed → planComponent.Observes (planConfig plan) pre c
  /-- If the first stage is keyed and reduces records without window bounds, the workers' snapshots
      together are the state of one sequential `Reduce`. -/
  reduce : ∀ (kb : KeyBy) (fn : ReduceFn) (init : Fin kb.partitions → ReduceState) ops stages,
    plan = .keyed kb (⟨.reduce fn, init⟩ :: ops) :: stages →
    (∀ w k, (init w).entries k ≠ none → kb.routeKey k = w) →
    ∀ id pre, pre ++ [Record.newBarrier id] <+: s.forwarded → (∀ r ∈ pre, Unwindowed r) →
    ∀ snaps : Fin kb.partitions → Bytes → Option Bytes,
      (∀ w, (Record.newBarrier id, (0, .inr (w.val, 0, some (.reduce (snaps w))))) ∈ s.handed) →
      unionEntries snaps = (reduceAll tf fn ⟨unionEntries fun w => (init w).entries, zeroTime⟩
        (pre.map kb.rekey)).entries

/-- The injector's barriers are all different and its offsets are those of what it forwarded;
    everything handed out so far belongs to its barrier's prefix. -/
structure Inv (plan : List (StageSpec tf)) (s : CutRun) : Prop where
  ok : planComponent.Ok s.stages s.forwarded s.delivered
  config_eq : planComponent.config s.stages = planConfig plan
  cuts : s.forwarded.filter Record.isCut = s.registered.map fun g => Record.newBarrier g.1
  issued : ∀ g ∈ s.registered, ∃ i kind, i ≤ s.injector.checkpointID ∧
    g.1 = mkID s.injector.runNonce i kind
  nodup : (s.registered.map Prod.fst).Nodup
  aligned : ∀ p, s.injector.offsets p = nextForwarded s.forwarded p
  registered : ∀ g ∈ s.registered, ∃ pre, pre ++ [Record.newBarrier g.1] <+: s.forwarded ∧
    g.2 = nextForwarded pre
  handed : ∀ x ∈ s.handed, x.1.isCut = true ∧ ∃ pre, pre ++ [x.1] <+: s.forwarded ∧
    planComponent.Observes (planConfig plan) pre x.2

theorem newBarrier_injective : Injective newBarrier := fun _ _ h =>
  congrArg checkpointID h

/-- No two barriers in the stream are the same. -/
theorem Inv.nodup_cuts (h : Inv plan s) : (s.forwarded.filter isCut).Nodup := by
  have hmap : (s.registered.map fun g => newBarrier g.1) =
      (s.registered.map Prod.fst).map newBarrier := by
    rw [map_map]
    rfl
  rw [h.cuts, hmap]
  exact h.nodup.map newBarrier_injective

/-- Every barrier in the stream was registered. -/
theorem Inv.exists_registered (h : Inv plan s) {m : Record} (hm : m ∈ s.forwarded)
    (hcut : m.isCut = true) : ∃ g ∈ s.registered, m = newBarrier g.1 := by
  have hmem := mem_filter.mpr ⟨hm, hcut⟩
  rw [h.cuts] at hmem
  obtain ⟨g, hg, hgm⟩ := mem_map.mp hmem
  exact ⟨g, hg, hgm.symm⟩

/-- What was forwarded ahead of a barrier is determined by the barrier. -/
theorem Inv.prefix_unique (h : Inv plan s) {m : Record} (hm : m.isCut = true)
    {pre pre' : List Record} (hpre : pre ++ [m] <+: s.forwarded)
    (hpre' : pre' ++ [m] <+: s.forwarded) : pre = pre' := by
  obtain ⟨post, hpost⟩ := hpre
  obtain ⟨post', hpost'⟩ := hpre'
  rw [append_assoc, singleton_append] at hpost hpost'
  exact append_cons_inj_of_nodup (hpost ▸ h.nodup_cuts) hm (hpost.trans hpost'.symm)

theorem inv_initial (runNonce : ℕ) : Inv plan (initial runNonce plan) where
  ok := planComponent_ok_build plan
  config_eq := rfl
  cuts := rfl
  issued g hg := absurd hg (by simp [initial])
  nodup := nodup_nil
  aligned _ := rfl
  registered g hg := absurd hg (by simp [initial])
  handed x hx := absurd hx (by simp [initial])

theorem inv_forward (h : Inv plan s) {r : Record} (hr : r.isBarrier = false) :
    Inv plan { s.send r with injector := s.injector.track r } := by
  have hmono : ∀ l : List Record, l <+: s.forwarded → l <+: s.forwarded ++ [r] :=
    fun l hl => hl.trans (prefix_append _ _)
  have hcut : r.isCut = false := by rw [isCut, hr, Bool.false_and]
  refine ⟨planComponent.ok_push _ _ _ _ h.ok, (planComponent.config_push _ _).trans h.config_eq,
    ?_, ?_, h.nodup, Injector.track_aligned h.aligned r, ?_, ?_⟩
  · show (s.forwarded ++ [r]).filter isCut = _
    rw [filter_append, filter_cons_of_neg (by rw [hcut]; decide), filter_nil, append_nil]
    exact h.cuts
  · intro g hg
    rw [Injector.track_checkpointID, Injector.track_runNonce]
    exact h.issued g hg
  · intro g hg
    obtain ⟨pre, hpre, hoffs⟩ := h.registered g hg
    exact ⟨pre, hmono _ hpre, hoffs⟩
  · intro x hx
    obtain ⟨hm, pre, hpre, hobs⟩ := h.handed x hx
    exact ⟨hm, pre, hmono _ hpre, hobs⟩

theorem inv_barrier (h : Inv plan s) (kind : BarrierKind) :
    Inv plan { s.send (newBarrier (s.injector.nextID kind)) with
      injector := s.injector.barrier kind
      registered := s.registered ++ [(s.injector.nextID kind, s.injector.offsets)] } := by
  have hmono : ∀ l : List Record, l <+: s.forwarded →
      l <+: s.forwarded ++ [newBarrier (s.injector.nextID kind)] :=
    fun l hl => hl.trans (prefix_append _ _)
  refine ⟨planComponent.ok_push _ _ _ _ h.ok, (planComponent.config_push _ _).trans h.config_eq,
    ?_, ?_, ?_, ?_, ?_, ?_⟩
  · show (s.forwarded ++ [newBarrier (s.injector.nextID kind)]).filter isCut = _
    rw [filter_append, h.cuts, map_append]
    rfl
  · intro g hg
    rcases mem_append.mp hg with hg | hg
    · obtain ⟨i, kind', hi, hid⟩ := h.issued g hg
      exact ⟨i, kind', Nat.le_succ_of_le hi, hid⟩
    · rw [mem_singleton.mp hg]
      exact ⟨s.injector.checkpointID + 1, kind, Nat.le_refl _, rfl⟩
  · -- the new id carries a number that no earlier one has
    rw [map_append, nodup_append]
    refine ⟨h.nodup, nodup_singleton _, ?_⟩
    intro id hid id' hid' heq
    obtain ⟨g, hg, rfl⟩ := mem_map.mp hid
    obtain ⟨i, kind', hi, hgid⟩ := h.issued g hg
    rw [map_singleton, mem_singleton] at hid'
    rw [hid', hgid] at heq
    have hnum : i = s.injector.checkpointID + 1 := (mkID_injective heq).2.1
    omega
  · intro p
    show s.injector.offsets p = nextForwarded (s.forwarded ++ [_]) p
    rw [nextForwarded_append_marker (newBarrier_isData _)]
    exact h.aligned p
  · intro g hg
    rcases mem_append.mp hg with hg | hg
    · obtain ⟨pre, hpre, hoffs⟩ := h.registered g hg
      exact ⟨pre, hmono _ hpre, hoffs⟩
    · rw [mem_singleton.mp hg]
      exact ⟨s.forwarded, prefix_refl _, funext h.aligned⟩
  · intro x hx
    obtain ⟨hm, pre, hpre, hobs⟩ := h.handed x hx
    exact ⟨hm, pre, hmono _ hpre, hobs⟩

theorem inv_stage (h : Inv plan s) {i : ℕ} {e : StageEvent} {stages : List Stage}
    {out : List Record} {obs : List (Record × (ℕ × StageCallback))}
    (hstep : planComponent.step s.stages (i, e) = some (stages, out, obs)) :
    Inv plan { s with
      stages := stages
      delivered := s.delivered ++ out
      handed := s.handed ++ obs } := by
  refine ⟨planComponent.ok_step _ _ _ _ _ _ _ h.ok hstep,
    (planComponent.config_step _ _ _ _ _ hstep).trans h.config_eq, h.cuts, h.issued, h.nodup,
    h.aligned, h.registered, ?_⟩
  intro x hx
  rcases mem_append.mp hx with hx | hx
  · exact h.handed x hx
  · -- a callback is called now: the stages are a component
    obtain ⟨hm, f₁, f₂, hsrc, hobs⟩ := planComponent.ok_observes _ _ _ _ _ _ _ x.1 x.2 h.ok
      h.nodup_cuts hstep hx
    rw [h.config_eq] at hobs
    refine ⟨hm, f₁, ⟨f₂, ?_⟩, hobs⟩
    rw [hsrc, append_assoc]
    rfl

theorem inv_step (e : Event) (h : Inv plan s) (hs : step s e = some s') : Inv plan s' := by
  revert hs
  fun_cases step s e <;> intro hs <;> try cases hs
  case case1.refl hguard => exact inv_forward h hguard.2
  case case3.refl kind _ _ => exact inv_barrier h kind
  case case5 =>
    obtain ⟨⟨stages, out, obs⟩, hstep, rfl⟩ := Option.map_eq_some_iff.mp hs
    exact inv_stage h hstep

/-- What the clone of a first `Reduce` observes, in terms of the sequential one. -/
theorem reduce_observed {kb : KeyBy} {fn : ReduceFn} {init : Fin kb.partitions → ReduceState}
    {ops : List ((op : StatefulOperator) × (Fin kb.partitions → (op.loop tf).State))}
    {stages : List (StageSpec tf)} {pre : List Record} {w : Fin kb.partitions}
    {entries : Bytes → Option Bytes}
    (h : planComponent.Observes (planConfig (.keyed kb (⟨.reduce fn, init⟩ :: ops) :: stages)) pre
      (0, .inr (w.val, 0, some (.reduce entries)))) :
    entries = (reduceAll tf fn (init w) ((kb.router.lane w).outs () pre)).entries := by
  obtain ⟨_, done, hdone, hobs⟩ := h
  have hentries : entries = ((reduceLoop tf fn).toTransducer.state (init w) done).entries :=
    OperatorSnapshot.reduce.inj (Option.some.inj hobs)
  rw [hentries, reduceLoop_state, hdone]
  rfl

/-- Times written in unary. -/
def unaryFormat : TimeFormat where
  format t := List.replicate (Equiv.intEquivNat t) 48
  parse b := some (Equiv.intEquivNat.symm b.length)
  parse_format t := by rw [List.length_replicate, Equiv.symm_apply_apply]
  slash_notMem_format t h := absurd (List.eq_of_mem_replicate h) (by decide)
  ascii_format t b h := by
    rw [List.eq_of_mem_replicate h]
    decide

/-- Two workers that count the records per key. -/
def countPlan : List (StageSpec unaryFormat) :=
  [.keyed ⟨Record.key, 2, by decide⟩
    [⟨.reduce fun accum _ => some (1 :: accum.getD []), fun _ => (⟨fun _ => none, zeroTime⟩ :
      ReduceState)⟩]]

/-- Worker 1 counts a record from behind the barrier before worker 0 meets the barrier. -/
def overtaken : List Event :=
  let order : KeyOrder := ⟨id, fun l => List.Perm.refl l⟩
  [.forward { key := [0] }, .forward { key := [1], offset := 1 }, .barrier .periodic,
    .forward { key := [0], offset := 2 }] ++
  [.route, .route, .route, .send, .send, .route, .branch 1 (0, .take order),
    .branch 1 (0, .take order), .branch 1 (0, .take order), .branch 0 (0, .take order),
    .branch 0 (0, .take order)].map fun e => Event.stage 0 (.inr e)

end CutRun

end Weibo
