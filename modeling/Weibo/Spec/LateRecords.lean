import Weibo.Spec.KeyedWindow
import Weibo.Spec.WatermarkStream

/-!
# Only late records are dropped

A window operator drops a record that is below its current watermark. Between the source and the
operator records are reordered, copied to other channels and changed by stateless stages, but no
record overtakes a watermark. So the watermark that makes a record late was emitted ahead of the
record it comes from, and that one was late for the source already.

## Key results

- `stages_traced`: stateless stages let no record overtake a marker
- `readStage_step`: the log holds what each worker has read of its part of the
  stream
- `late_below_lateness`: what the window operator drops as late is later than
  allowed, and the watermarks it sees ascend
-/

namespace Weibo

open List Option Record StageSpec

/-! ## Stages, with what stopped operators emit -/

/-- One operator as a component that emits nothing unaccounted for. -/
def exactOperator : OperatorComponent := Cell.exactComponent Record.isMarker_of_isCut

def exactStage := exactOperator.either exactOperator.chain.fork

def exactPlan := exactStage.chain

theorem exactStage_push : exactStage.push = stageComponent.push := by
  funext st xs
  cases st <;> rfl

theorem exactStage_step : exactStage.step = stageComponent.step := by
  funext st e
  have hpush : exactOperator.push = operatorComponent.push := rfl
  have hstep : exactOperator.step = operatorComponent.step := rfl
  have hchainPush : exactOperator.chain.push = operatorComponent.chain.push := by
    funext cs xs
    exact exactOperator.chainPush_congr hpush cs xs
  have hchainStep : exactOperator.chain.step = operatorComponent.chain.step := by
    funext cs e
    exact exactOperator.chainStep_congr hpush hstep cs e.1 e.2
  cases st with
  | inl c => cases e <;> rfl
  | inr f =>
    cases e with
    | inl e => rfl
    | inr e =>
      show (f.step exactOperator.chain e).map _ = (f.step operatorComponent.chain e).map _
      rw [Fork.step_congr _ hchainPush hchainStep]

/-- The plan runs as before. -/
theorem exactPlan_push (ss : List Stage) (xs : List Record) :
    exactPlan.push ss xs = planComponent.push ss xs :=
  exactStage.chainPush_congr exactStage_push ss xs

theorem exactPlan_step (ss : List Stage) (e : ℕ × StageEvent) :
    exactPlan.step ss e = planComponent.step ss e :=
  exactStage.chainStep_congr exactStage_push exactStage_step ss e.1 e.2

/-! ## Stateless stages -/

/-- A data record through a sequence of stateless stages. -/
def processStages : List (List SingleProcessor × ℕ) → Record → List Record
  | [], r => [r]
  | p :: ps, r => (processChain p.1 r).flatMap (processStages ps)

variable {src dst : List Record} {stages : List Stage} {log : List Taken} {e : StageEvent} {i : ℕ}

/-- The loop of a stateless worker. -/
theorem operator_traced {c : OperatorCell} {ops : List SingleProcessor}
    (hc : exactOperator.config c = ⟨statelessLoop ops, ()⟩) (h : exactOperator.Ok c src dst) :
    Traced isMarker (fun r x => x ∈ processChain ops r) src dst := by
  obtain ⟨M, init, state, inbox, closed⟩ := c
  cases hc
  refine Cell.ExactOk.traced isMarker_of_isCut ?_ ?_ (fun _ _ => rfl) h
  · intro _ _ a ha b hb
    have hb' : b ∈ if a.isMarker then [a] else processChain ops a := hb
    rw [if_pos ha] at hb'
    rw [mem_singleton.mp hb', ha]
  · intro _ _ a ha b hb
    have hb' : b ∈ if a.isMarker then [a] else processChain ops a := hb
    rwa [if_neg (by rw [ha]; decide)] at hb'

/-- A stage that runs a chain of stateless operators, on one worker or more. -/
def RunsStateless (ops : List SingleProcessor) :
    Cell.Config KeyOrder Record (Option OperatorSnapshot) Record.isCut Record.isMarker ⊕
      ForkConfig (List (Cell.Config KeyOrder Record (Option OperatorSnapshot) Record.isCut
        Record.isMarker)) Record Record.isMarker → Prop
  | .inl k => k = ⟨statelessLoop ops, ()⟩
  | .inr k => (∀ c a, a = (k.router.route c a).2.1) ∧ ∀ w, k.branch w = [⟨statelessLoop ops, ()⟩]

theorem runsStateless_build {tf : TimeFormat} (ops : List SingleProcessor) (parallelism : ℕ) :
    RunsStateless ops (exactStage.config (stateless ops parallelism : StageSpec tf).build) := by
  by_cases h : 1 < parallelism
  · rw [build, dif_pos h]
    exact ⟨fun _ _ => rfl, fun _ => rfl⟩
  · rw [build, dif_neg h]
    exact rfl

theorem stage_traced {st : Stage} {ops : List SingleProcessor}
    (hc : RunsStateless ops (exactStage.config st)) (h : exactStage.Ok st src dst) :
    Traced isMarker (fun r x => x ∈ processChain ops r) src dst := by
  cases st with
  | inl c => exact operator_traced hc h
  | inr f =>
    obtain ⟨hroute, hbranch⟩ := hc
    have hok : Fork.Ok exactOperator.chain f src dst := h
    have htraced := hok.traced hroute fun w src dst hw => by
      -- each worker runs one loop over the whole chain
      obtain ⟨c, hf, hc⟩ := map_eq_singleton_iff.mp (hbranch w)
      rw [hf] at hw
      obtain ⟨mid, hmid, rfl⟩ := hw
      exact operator_traced hc hmid
    refine htraced.mono ?_
    rintro a b ⟨a', rfl, hb⟩
    exact hb

/-- No record overtakes a marker on its way through stateless stages. -/
theorem stages_traced {tf : TimeFormat} {pre : List (List SingleProcessor × ℕ)} {ss : List Stage}
    (hc : ss.map exactStage.config =
      pre.map fun p => exactStage.config (stateless p.1 p.2 : StageSpec tf).build)
    (h : exactStage.ChainOk ss src dst) :
    Traced isMarker (fun r x => x ∈ processStages pre r) src dst := by
  induction pre generalizing ss src with
  | nil =>
    obtain rfl := map_eq_nil_iff.mp hc
    obtain rfl : src = dst := h
    refine (Traced.refl src).mono ?_
    rintro a b rfl
    exact mem_singleton_self a
  | cons p pre ih =>
    obtain ⟨st, ss, rfl, hst, hss⟩ := map_eq_cons_iff.mp hc
    obtain ⟨mid, hmid, hrest⟩ := h
    have hruns : RunsStateless p.1 (exactStage.config st) := by
      rw [hst]
      exact runsStateless_build p.1 p.2
    refine ((stage_traced hruns hmid).trans (ih hss hrest)).mono ?_
    rintro a b ⟨x, hx, hb⟩
    exact mem_flatMap.mpr ⟨x, hx, hb⟩

/-! ## What the first clones of a stage have read -/

/-- What the first clone of a worker has taken. -/
def seen (log : List Taken) (i w : ℕ) : List Record :=
  (log.filter fun t => t.stage == i && t.worker == w && t.clone == 0).map Taken.record

theorem seen_append (log log' : List Taken) (i w : ℕ) :
    seen (log ++ log') i w = seen log i w ++ seen log' i w := by
  rw [seen, filter_append, map_append]
  rfl

theorem seen_eq_nil {w : ℕ} (h : ∀ t ∈ log, ¬ (t.stage = i ∧ t.worker = w ∧ t.clone = 0)) : seen log i w = [] := by
  rw [seen, map_eq_nil_iff, filter_eq_nil_iff]
  intro t ht
  simpa only [Bool.and_eq_true, beq_iff_eq, and_assoc] using h t ht

/-- A log entry is about the clone that takes the step. -/
theorem mem_taken {t : Taken} (h : t ∈ taken stages i e) :
    t.stage = i ∧ ∃ k order f c, e = .inr (.branch t.worker (k, .take order)) ∧ t.clone = k ∧
      stages[i]? = some (.inr f) ∧
      ∃ hw : t.worker < f.n, (f.branch ⟨t.worker, hw⟩)[k]? = some c ∧
        nextTaken c = some t.record ∧ t.late = dropsLate c t.record := by
  revert h
  fun_cases taken stages i e <;> intro h <;> try cases h
  case case1 w k order f hf hw c hc =>
    rw [mem_toList, map_eq_some_iff] at h
    obtain ⟨r, hr, rfl⟩ := h
    exact ⟨rfl, k, order, f, c, rfl, rfl, hf, hw, hc, hr, rfl⟩

/-- What the first operator of a worker's chain has not read yet. -/
def Waiting (b : List OperatorCell) (queue : List Record) : Prop :=
  ∃ c cs, b = c :: cs ∧ c.inbox = queue

theorem waiting_push (b : List OperatorCell) (queue xs : List Record) (h : Waiting b queue) :
    Waiting (exactOperator.chain.push b xs).1 (queue ++ xs) := by
  obtain ⟨c, cs, rfl, rfl⟩ := h
  exact ⟨_, _, rfl, rfl⟩

/-- A keyed stage of which the log tells what the workers have read. -/
def ReadStage (log : List Taken) (i : ℕ) (st : Stage) (src dst : List Record) : Prop :=
  ∃ f, st = .inr f ∧ Fork.ReadOk exactOperator.chain Waiting (seen log i) f src dst

theorem readStage_push (st : Stage) (src dst xs : List Record) (h : ReadStage log i st src dst) :
    ReadStage log i (exactStage.push st xs).1 (src ++ xs) (dst ++ (exactStage.push st xs).2) := by
  obtain ⟨f, rfl, hread⟩ := h
  refine ⟨_, rfl, ?_⟩
  show Fork.ReadOk _ _ _ _ _ (dst ++ [])
  rw [append_nil]
  exact hread.push xs

/-- The step of a worker reads what the log says. -/
theorem read_branch {f : Fork (List OperatorCell) Record isMarker}
    (hget : stages[i]? = some (.inr f)) (log : List Taken) {w : Fin f.n} {e : ℕ × Cell.Event KeyOrder}
    {b : List OperatorCell} {out queue : List Record}
    {obs : List (Record × (ℕ × Option OperatorSnapshot))} (hqueue : Waiting (f.branch w) queue)
    (hstep : exactOperator.chain.step (f.branch w) e = some (b, out, obs)) :
    ∃ queue', Waiting b queue' ∧
      seen log i w ++ queue = seen (log ++ taken stages i (.inr (.branch w e))) i w ++ queue' := by
  obtain ⟨c, cs, hb, rfl⟩ := hqueue
  obtain ⟨k, ev⟩ := e
  rw [hb] at hstep
  simp only [seen_append, append_assoc]
  cases k with
  | succ k =>
    -- another clone: nothing is logged for the first one
    obtain ⟨⟨cs', o, ob⟩, hcs, heq⟩ := map_eq_some_iff.mp hstep
    cases heq
    have hnone : seen (taken stages i (.inr (.branch w (k + 1, ev)))) i w = [] := by
      apply seen_eq_nil
      rintro t ht ⟨-, -, hclone⟩
      obtain ⟨-, k', order, f', c', heq, hk, -⟩ := mem_taken ht
      simp only [Sum.inr.injEq, ForkEvent.branch.injEq, Prod.mk.injEq] at heq
      omega
    exact ⟨c.inbox, ⟨c, cs', rfl, rfl⟩, by rw [hnone, nil_append]⟩
  | zero =>
    obtain ⟨⟨c', o, ob⟩, hc, heq⟩ := map_eq_some_iff.mp hstep
    cases heq
    cases ev with
    | take order =>
      obtain ⟨a, rest, hcl, hin, rfl, -⟩ := Cell.step_take hc
      refine ⟨rest, ⟨_, _, rfl, rfl⟩, ?_⟩
      have htaken : taken stages i (.inr (.branch w (0, .take order))) =
          [⟨i, w, 0, a, dropsLate c a⟩] := by
        simp only [taken, hget, dif_pos w.isLt, Fin.eta, hb, getElem?_cons_zero, nextTaken, hcl,
          hin, Bool.false_eq_true, if_false, head?_cons, map_some, toList_some]
      have hseen : seen [⟨i, w, 0, a, dropsLate c a⟩] i w = [a] := by
        rw [seen, filter_cons_of_pos (by simp)]
        rfl
      rw [htaken, hseen, hin, singleton_append]
    | finish order =>
      obtain ⟨-, rfl, -⟩ := Cell.step_finish hc
      exact ⟨c.inbox, ⟨_, _, rfl, rfl⟩, rfl⟩

theorem readStage_step {st st' : Stage} {out : List Record} {obs : List (Record × StageCallback)}
    (hget : stages[i]? = some st) (h : ReadStage log i st src dst)
    (hstep : exactStage.step st e = some (st', out, obs)) :
    ReadStage (log ++ taken stages i e) i st' src (dst ++ out) := by
  obtain ⟨f, rfl, hread⟩ := h
  cases e with
  | inl e => simp [exactStage, Component.either, Component.eitherStep] at hstep
  | inr e =>
    obtain ⟨⟨f', o, ob⟩, hf, heq⟩ := map_eq_some_iff.mp hstep
    cases heq
    refine ⟨f', rfl, hread.step waiting_push ?_ ?_ hf⟩
    · -- only the steps of clones are logged
      intro hne
      funext w
      have hnone : seen (taken stages i (.inr e)) i w = [] := by
        apply seen_eq_nil
        intro t ht
        obtain ⟨-, k, order, f'', c, heq, -⟩ := mem_taken ht
        exact absurd (Sum.inr.inj heq) (hne _ _)
      rw [seen_append, hnone, append_nil]
    · rintro w e' b o' ob' queue rfl hqueue hb
      refine ⟨?_, read_branch hget log hqueue hb⟩
      intro v hv
      have hnone : seen (taken stages i (.inr (.branch w e'))) i v = [] := by
        apply seen_eq_nil
        rintro t ht ⟨-, hworker, -⟩
        obtain ⟨-, k, order, f'', c, heq, -⟩ := mem_taken ht
        simp only [Sum.inr.injEq, ForkEvent.branch.injEq] at heq
        omega
      rw [seen_append, hnone, append_nil]

/-! ## Late records of a window operator -/

/-- The current watermark is the highest one that the operator has seen. -/
theorem state_currentWatermark (tf : TimeFormat) (assigner : WindowAssigner)
    (reducer : Option ReduceFn) (s : WindowState) (done : List (KeyOrder × Record)) :
    ((windowLoop tf assigner reducer).toTransducer.state s done).currentWatermark =
      highest s.currentWatermark ((done.map Prod.snd).filter isWatermark) := by
  induction done generalizing s with
  | nil => rfl
  | cons x done ih =>
    obtain ⟨order, r⟩ := x
    rw [Transducer.state, ih, map_cons]
    rcases windowLoop_step_cases tf assigner reducer s order r with
      ⟨-, hw, -, -, hstep⟩ | ⟨hw, hstep⟩ | ⟨-, hw, -, -, hstep⟩ | ⟨-, hw, -, -, hstep⟩ <;> rw [hstep]
    · rw [filter_cons_of_neg (by rw [hw]; decide)]
    · rw [filter_cons_of_pos hw]
      rfl
    -- dropped or buffered, the watermark stays
    · rw [filter_cons_of_neg (by rw [hw]; decide)]
    · rw [filter_cons_of_neg (by rw [hw]; decide)]

/-- A window operator that started without a watermark drops a record only below one that it saw. -/
theorem below_of_dropsLate {tf : TimeFormat} {assigner : WindowAssigner} {reducer : Option ReduceFn}
    {c : OperatorCell} {windows : WindowBuffers} {done : List (KeyOrder × Record)} {r : Record}
    (hc : exactOperator.config c = ⟨windowLoop tf assigner reducer, ⟨windows, zeroTime⟩⟩)
    (hstate : c.state = c.machine.toTransducer.state c.init done) (hlate : dropsLate c r = true) :
    r.isMarker = false ∧
      ∃ m ∈ done.map Prod.snd, m.isWatermark = true ∧ r.timestamp < m.timestamp := by
  obtain ⟨M, init, state, inbox, closed⟩ := c
  cases hc
  dsimp only at hstate
  subst hstate
  have hlate' : (r.isData && ((windowLoop tf assigner reducer).toTransducer.state
      ⟨windows, zeroTime⟩ done).currentWatermark != zeroTime && decide (r.timestamp <
      ((windowLoop tf assigner reducer).toTransducer.state
      ⟨windows, zeroTime⟩ done).currentWatermark)) = true := hlate
  simp only [Bool.and_eq_true, bne_iff_ne, decide_eq_true_eq] at hlate'
  obtain ⟨⟨hdata, hne⟩, hlt⟩ := hlate'
  refine ⟨isMarker_eq_false.mpr hdata, ?_⟩
  rw [state_currentWatermark] at hne hlt
  obtain ⟨m, hm, hts⟩ := (highest_eq _ _).resolve_left hne
  obtain ⟨hm, hw⟩ := mem_filter.mp hm
  exact ⟨m, hm, hw, by rw [hts]; exact hlt⟩

/-! ## A window stage behind stateless stages -/

section Plan

variable {tf : TimeFormat} {pre : List (List SingleProcessor × ℕ)} {kb : KeyBy}
  {assigner : WindowAssigner} {reducer : Option ReduceFn}
  {clones : List ((op : StatefulOperator) × (Fin kb.partitions → (op.loop tf).State))}
  {post : List (StageSpec tf)}

/-- Stateless stages, a keyed stage that starts with a window operator, and any stages behind it. No
    state was restored into the window operator. -/
def windowPlan (pre : List (List SingleProcessor × ℕ)) (kb : KeyBy) (assigner : WindowAssigner)
    (reducer : Option ReduceFn)
    (clones : List ((op : StatefulOperator) × (Fin kb.partitions → (op.loop tf).State)))
    (post : List (StageSpec tf)) : List (StageSpec tf) :=
  pre.map (fun p => .stateless p.1 p.2) ++
    .keyed kb (⟨.window assigner reducer, fun _ => ⟨∅, zeroTime⟩⟩ :: clones) :: post

/-- A keyed stage whose workers start with a window operator. -/
def RunsWindow (tf : TimeFormat) (kb : KeyBy) (assigner : WindowAssigner)
    (reducer : Option ReduceFn) :
    Cell.Config KeyOrder Record (Option OperatorSnapshot) Record.isCut Record.isMarker ⊕
      ForkConfig (List (Cell.Config KeyOrder Record (Option OperatorSnapshot) Record.isCut
        Record.isMarker)) Record Record.isMarker → Prop
  | .inl _ => False
  | .inr k => k.n = kb.partitions ∧ (∀ c a, (k.router.route c a).2.1 = kb.rekey a) ∧
      ∀ w, ∃ ks, k.branch w = ⟨windowLoop tf assigner reducer, ⟨∅, zeroTime⟩⟩ :: ks

/-- What the clones of the window stage have read, and which watermark made them drop a record. -/
structure LogInv (pre : List (List SingleProcessor × ℕ)) (kb : KeyBy) (assigner : WindowAssigner)
    (reducer : Option ReduceFn)
    (clones : List ((op : StatefulOperator) × (Fin kb.partitions → (op.loop tf).State)))
    (post : List (StageSpec tf)) (run : CutRun) (log : List Taken) : Prop where
  ok : exactStage.ChainOkAt (ReadStage log pre.length) pre.length run.stages run.forwarded
    run.delivered
  config_eq : run.stages.map exactStage.config =
    (windowPlan pre kb assigner reducer clones post).map fun spec => exactStage.config spec.build
  late : ∀ l₁ t l₂, log = l₁ ++ t :: l₂ → t.stage = pre.length → t.clone = 0 →
    t.worker < kb.partitions ∧ (t.late = true → t.record.isMarker = false ∧
      ∃ m ∈ seen l₁ pre.length t.worker, m.isWatermark = true ∧ t.record.timestamp < m.timestamp)

namespace LogInv

variable {run run' : CutRun} {log : List Taken}

section Taken

variable (h : LogInv pre kb assigner reducer clones post run log)

include h

theorem config_take : (run.stages.take pre.length).map exactStage.config =
      pre.map fun p => exactStage.config (stateless p.1 p.2 : StageSpec tf).build := by
  rw [map_take, h.config_eq, windowPlan, map_append, List.map_map, take_left' (length_map _)]
  rfl

theorem config_window {st : Stage} (hget : run.stages[pre.length]? = some st) :
    RunsWindow tf kb assigner reducer (exactStage.config st) := by
  have hmap : (run.stages.map exactStage.config)[pre.length]? = some (exactStage.config st) := by
    rw [getElem?_map, hget]
    rfl
  rw [h.config_eq, windowPlan, map_append, getElem?_append_right
    (by rw [length_map, length_map]), length_map, length_map, Nat.sub_self]
    at hmap
  rw [← some.inj hmap]
  exact ⟨rfl, fun _ _ => rfl, fun w => ⟨_, rfl⟩⟩

/-- A clone of the window operator drops a record below a watermark it has read. -/
theorem late_taken {t : Taken} (ht : t ∈ taken run.stages pre.length e) (hclone : t.clone = 0) :
    t.worker < kb.partitions ∧ (t.late = true → t.record.isMarker = false ∧
      ∃ m ∈ seen log pre.length t.worker, m.isWatermark = true ∧
        t.record.timestamp < m.timestamp) := by
  obtain ⟨-, k, order, f, c, -, hk, hget, hw, hc, -, hlate⟩ := mem_taken ht
  obtain rfl : k = 0 := hk.symm.trans hclone
  obtain ⟨hn, -, hbranch⟩ := h.config_window hget
  refine ⟨by rw [← hn]; exact hw, fun hdrop => ?_⟩
  -- the clone's state is due to what the log says it has read
  obtain ⟨st, mid, mid', hget', -, f', rfl, taken', srcs, os, held, sts, hflow, hread⟩ := h.ok.focus
  obtain rfl : f = f' := Sum.inr.inj (some.inj (hget.symm.trans hget'))
  obtain ⟨queue, ⟨c', cs, hb, rfl⟩, hsrcs⟩ := hread ⟨t.worker, hw⟩
  rw [hb, getElem?_cons_zero] at hc
  cases hc
  have hok := hflow.branch_ok ⟨t.worker, hw⟩
  rw [hb] at hok
  obtain ⟨out, ⟨done, extra, hsrc, hstate, -⟩, -⟩ := hok
  have hdone : done.map Prod.snd = seen log pre.length t.worker :=
    append_cancel_right (hsrc.symm.trans hsrcs)
  obtain ⟨ks, hks⟩ := hbranch ⟨t.worker, hw⟩
  have hks' : (f.branch ⟨t.worker, hw⟩).map exactOperator.config =
    ⟨windowLoop tf assigner reducer, ⟨∅, zeroTime⟩⟩ :: ks := hks
  rw [hb, map_cons] at hks'
  rw [hlate] at hdrop
  rw [← hdone]
  exact below_of_dropsLate (cons.inj hks').1 hstate hdrop

omit h in
theorem initial (runNonce : ℕ) : LogInv pre kb assigner reducer clones post
    (.initial runNonce (windowPlan pre kb assigner reducer clones post)) [] where
  ok := by
    show exactStage.ChainOkAt _ _ ((windowPlan pre kb assigner reducer clones post).map build) [] []
    rw [windowPlan, map_append]
    induction pre with
    | nil =>
      have hflow : Fork.Flow exactOperator.chain _ _ _ _ _ _ _ _ :=
        keyed_flow_fresh Cell.exactOk_fresh (fun _ _ _ => rfl) kb
          (⟨.window assigner reducer, fun _ => ⟨∅, zeroTime⟩⟩ :: clones)
      refine ⟨[], ⟨_, rfl, _, _, _, _, _, hflow, ?_⟩,
        plan_ok_build exactOperator Cell.exactOk_fresh (fun _ _ _ => rfl) post⟩
      intro w
      exact ⟨[], ⟨_, _, rfl, rfl⟩, rfl⟩
    | cons p pre ih =>
      have hok : exactStage.Ok (stateless p.1 p.2 : StageSpec tf).build [] [] :=
        build_ok Cell.exactOk_fresh (fun _ _ _ => rfl) _
      exact ⟨[], hok, ih⟩
  config_eq := map_map
  late l₁ t l₂ hsplit := absurd hsplit (by simp)

/-- Something is sent into the first stage. -/
theorem send {r : Record}
    (hstages : run'.stages = (run.send r).stages) (hforwarded : run'.forwarded = run.forwarded ++ [r])
    (hdelivered : run'.delivered = (run.send r).delivered) :
    LogInv pre kb assigner reducer clones post run' log := by
  have hpush := exactStage.chainOkAt_push readStage_push [r] h.ok
  refine ⟨?_, ?_, h.late⟩
  · rw [hstages, hforwarded, hdelivered, CutRun.send, ← exactPlan_push]
    exact hpush
  · rw [hstages, CutRun.send, ← exactPlan_push, ← h.config_eq]
    exact exactPlan.config_push run.stages [r]

/-- A step of a stage. -/
theorem stage {out : List Record} {obs : List (Record × (ℕ × StageCallback))}
    (hstep : planComponent.step run.stages (i, e) = some (stages, out, obs))
    (hstages : run'.stages = stages) (hforwarded : run'.forwarded = run.forwarded)
    (hdelivered : run'.delivered = run.delivered ++ out) :
    LogInv pre kb assigner reducer clones post run' (log ++ taken run.stages i e) := by
  rw [← exactPlan_step] at hstep
  refine ⟨?_, ?_, ?_⟩
  · rw [hstages, hforwarded, hdelivered]
    refine exactStage.chainOkAt_step readStage_push ?_ ?_ h.ok hstep
    · -- a step of another stage is not in this part of the log
      intro hne
      funext st src dst
      have hsame : seen (log ++ taken run.stages i e) pre.length = seen log pre.length := by
        funext w
        have hnone : seen (taken run.stages i e) pre.length w = [] := by
          apply seen_eq_nil
          rintro t ht ⟨hstage, -⟩
          exact hne ((mem_taken ht).1.symm.trans hstage)
        rw [seen_append, hnone, append_nil]
      rw [ReadStage, ReadStage, hsame]
    · intro st st' src dst out obs hi hget hread hone
      obtain rfl : i = pre.length := hi
      exact readStage_step hget hread hone
  · rw [hstages, ← h.config_eq]
    exact exactPlan.config_step _ _ _ _ _ hstep
  · intro l₁ t l₂ hsplit hstage hclone
    -- a step logs one record at most
    have hone : taken run.stages i e = [] ∨ ∃ t', taken run.stages i e = [t'] := by
      unfold taken
      split
      · split
        · split
          · split
            · cases nextTaken _ with
              | none => exact .inl rfl
              | some r => exact .inr ⟨_, rfl⟩
            · exact .inl rfl
          · exact .inl rfl
        · exact .inl rfl
      · exact .inl rfl
    rcases hone with hnone | ⟨t', ht'⟩
    · rw [hnone, append_nil] at hsplit
      exact h.late l₁ t l₂ hsplit hstage hclone
    · rw [ht'] at hsplit
      rcases concat_eq_append_cons hsplit with ⟨rfl, rfl, -⟩ | ⟨l₃, -, hsplit⟩
      · have hmem : t ∈ taken run.stages i e := by
          rw [ht']
          exact mem_singleton_self t
        obtain rfl : i = pre.length := (mem_taken hmem).1.symm.trans hstage
        exact h.late_taken hmem hclone
      · exact h.late l₁ t l₃ hsplit hstage hclone

end Taken

theorem step {s s' : EventTimeRun} {e : EventTimeRun.Event}
    (h : LogInv pre kb assigner reducer clones post s.run s.log)
    (hs : EventTimeRun.step s e = some s') :
    LogInv pre kb assigner reducer clones post s'.run s'.log := by
  obtain ⟨hrun, hlog⟩ | ⟨r, hrun, hlog⟩ | ⟨kind, hrun, hlog, -⟩ | ⟨i, ev, hrun, hlog⟩ :=
    EventTimeRun.run_step hs
  · rw [hrun, hlog]
    exact h
  · rw [hlog]
    simp only [CutRun.step] at hrun
    split at hrun
    swap
    · cases hrun
    rw [← some.inj hrun]
    exact h.send rfl rfl rfl
  · rw [hlog]
    simp only [CutRun.step] at hrun
    split at hrun
    swap
    · cases hrun
    rw [← some.inj hrun]
    exact h.send rfl rfl rfl
  · rw [hlog]
    obtain ⟨⟨stages, out, obs⟩, hstep, heq⟩ := map_eq_some_iff.mp hrun
    rw [← heq]
    exact h.stage hstep rfl rfl rfl

end LogInv

/-- The records that make up a worker's input come from the stream. -/
theorem LogInv.traced {run : CutRun}
    (h : LogInv pre kb assigner reducer clones post run log) {w : ℕ} (hw : w < kb.partitions) :
    ∃ queue, Traced isMarker (fun r x => x ∈ (processStages pre r).map kb.rekey)
        run.forwarded (seen log pre.length w ++ queue) ∧
      ((seen log pre.length w).filter isMarker).Sublist (run.forwarded.filter isMarker) := by
  obtain ⟨st, mid, mid', hget, hok, f, rfl, taken, srcs, os, held, sts, hflow, hread⟩ := h.ok.focus
  obtain ⟨hn, hroute, -⟩ := h.config_window hget
  have hw' : w < f.n := by
    rw [show f.n = kb.partitions from hn]
    exact hw
  obtain ⟨queue, -, hsrcs⟩ := hread ⟨w, hw'⟩
  have hsrcs' : srcs ⟨w, hw'⟩ = seen log pre.length w ++ queue := hsrcs
  refine ⟨queue, ?_, ?_⟩
  · have hlane : Traced isMarker (fun a b => kb.rekey a = b) mid (srcs ⟨w, hw'⟩) :=
      hflow.traced_srcs (fun c a => (hroute c a).symm) ⟨w, hw'⟩
    rw [hsrcs'] at hlane
    refine ((stages_traced h.config_take hok).trans hlane).mono ?_
    rintro a b ⟨x, hx, rfl⟩
    exact mem_map_of_mem hx
  · have hstages := (exactStage.chainOk_align hok).sublist.trans filter_sublist
    have hworker := (hflow.filter_srcs ⟨w, hw'⟩).sublist
    rw [hsrcs', filter_append] at hworker
    exact (sublist_append_left _ _).trans (hworker.trans hstages)

namespace EventTimeRun

variable {L : Int} {runNonce : ℕ} {input : List Record} {es : List Event} {s : EventTimeRun}

/-- What is below some timestamp of a list is below the highest one. -/
theorem below_max {rs : List Record} {r : Record} (hr : r ∈ rs) {t : Int} (ht : t < r.timestamp - L) :
    ∃ m, (rs.map timestamp).max? = some m ∧ t < m - L := by
  have hmem : r.timestamp ∈ rs.map timestamp := mem_map_of_mem hr
  obtain ⟨m, hm⟩ := isSome_iff_exists.mp (isSome_max?_of_mem hmem)
  have hle : r.timestamp ≤ m := (max?_eq_some_iff.mp hm).2 _ hmem
  exact ⟨m, hm, by omega⟩

/-- In every run, a window operator behind stateless stages drops a record as late only if it comes
    from one that the source emitted when an earlier record was ahead of it by more than the allowed
    lateness. And the watermarks that the operator sees ascend; only the last one of the source may
    be lower than others, if a record is dated later than that. -/
theorem late_below_lateness (hinput : ∀ r ∈ input, r.isData = true)
    (h : Run.exec step (initial L runNonce (windowPlan pre kb assigner reducer clones post) input)
      es = some s) :
    (∀ t ∈ s.log, t.stage = pre.length → t.clone = 0 → t.late = true →
      ∃ before r after m, input = before ++ r :: after ∧
        t.record ∈ (processStages pre r).map kb.rekey ∧
        (before.map Record.timestamp).max? = some m ∧ t.record.timestamp < m - L) ∧
    ∀ w, ((seen s.log pre.length w).filter Record.isWatermark).Pairwise fun m m' =>
      m.timestamp ≤ m'.timestamp ∨
        m'.timestamp = maxWatermark ∧ ∃ r ∈ input, maxWatermark + L < r.timestamp := by
  have hstream : StreamInv L input s :=
    Run.exec_invariant (fun _ _ _ => streamInv_step hinput) (streamInv_initial L runNonce _ input) h
  have hlog : LogInv pre kb assigner reducer clones post s.run s.log :=
    Run.exec_invariant (I := fun s => LogInv pre kb assigner reducer clones post s.run s.log)
      (fun _ _ _ h hs => h.step hs) (LogInv.initial runNonce) h
  refine ⟨?_, ?_⟩
  · intro t ht hstage hclone hlate
    obtain ⟨l₁, l₂, hsplit⟩ := append_of_mem ht
    obtain ⟨hw, hdrop⟩ := hlog.late l₁ t l₂ hsplit hstage hclone
    obtain ⟨hdata, m, hm, hmw, hlt⟩ := hdrop hlate
    -- the worker has read the watermark ahead of the record
    obtain ⟨queue, htraced, -⟩ := hlog.traced hw
    have hseen : seen s.log pre.length t.worker ++ queue = seen l₁ pre.length t.worker ++
        t.record :: (seen l₂ pre.length t.worker ++ queue) := by
      rw [hsplit, seen_append, append_assoc]
      have hone : seen (t :: l₂) pre.length t.worker =
          t.record :: seen l₂ pre.length t.worker := by
        rw [seen, filter_cons_of_pos (by simp [hstage, hclone])]
        rfl
      rw [hone]
      rfl
    -- so it was forwarded ahead of the record that this one comes from
    obtain ⟨f₁, r, f₂, hf, hr, hrx, hahead⟩ := htraced _ _ _ hseen hdata
    have hmarker : m.isMarker = true := by rw [Record.isMarker, hmw, Bool.or_true]
    obtain ⟨before, after, heq, r', hr', hts⟩ :=
      hstream.watermark_ahead hf hr (hahead m hm hmarker) hmw
    obtain ⟨max, hmax, hbelow⟩ := below_max (L := L) hr' (hts ▸ hlt)
    exact ⟨before, r, after, max, heq, hrx, hmax, hbelow⟩
  · intro w
    by_cases hw : w < kb.partitions
    · obtain ⟨-, -, hsub⟩ := hlog.traced hw
      have hmarks : ∀ l : List Record,
          (l.filter Record.isMarker).filter Record.isWatermark = l.filter Record.isWatermark := by
        intro l
        rw [List.filter_filter]
        apply filter_congr
        intro m _
        cases hm : m.isWatermark with
        | false => rfl
        | true => rw [Record.isMarker, hm, Bool.or_true]; rfl
      have hsub' : ((seen s.log pre.length w).filter Record.isWatermark).Sublist s.emitted := by
        have hforwarded := hsub.filter Record.isWatermark
        rw [hmarks, hmarks, ← hstream.filter_watermark] at hforwarded
        exact hforwarded.trans (filter_sublist.trans (sublist_append_left _ _))
      refine (hstream.watermarks_ascend.sublist hsub').imp_of_mem ?_
      intro m m' hm hm' hle
      exact hle (mem_filter.mp hm).2 (mem_filter.mp hm').2
    · -- there is no such worker
      have hnone : seen s.log pre.length w = [] := by
        apply seen_eq_nil
        rintro t ht ⟨hstage, rfl, hclone⟩
        obtain ⟨l₁, l₂, hsplit⟩ := append_of_mem ht
        exact hw (hlog.late l₁ t l₂ hsplit hstage hclone).1
      rw [hnone]
      exact List.Pairwise.nil

end EventTimeRun

end Plan

/-! ## Late records and late watermarks -/

namespace EventTimeRun

/-- Windows of ten over some workers, and nothing else. -/
abbrev windowOnly (n : ℕ) (pos : 0 < n) : List (StageSpec CutRun.unaryFormat) :=
  windowPlan [] ⟨Record.key, n, pos⟩ (tumbling 10 0) none [] []

/-- A record that is late by more than five: the watermark arrives ahead of it. -/
def straggler : List Event :=
  let order : KeyOrder := ⟨id, fun l => List.Perm.refl l⟩
  [.record, .send, .tick, .send, .record, .send, .forward, .forward, .forward] ++
  [.route, .route, .send, .route, .branch 0 (0, .take order), .branch 0 (0, .take order),
    .branch 0 (0, .take order)].map fun e => Event.stage 0 (.inr e)

theorem late_below_lateness_straggler :
    ∃ s t, Run.exec step (initial 5 1 (windowOnly 1 Nat.one_pos)
        [{ timestamp := 20 }, { timestamp := 1 }]) straggler = some s ∧
      t ∈ s.log ∧ t.late = true ∧ t.record.timestamp = 1 ∧
      ∃ before r after m, ([{ timestamp := 20 }, { timestamp := 1 }] : List Record) =
          before ++ r :: after ∧ t.record = r ∧
        (before.map Record.timestamp).max? = some m ∧ t.record.timestamp < m - 5 := by
  have hlog : (Run.exec step (initial 5 1 (windowOnly 1 Nat.one_pos)
      [{ timestamp := 20 }, { timestamp := 1 }]) straggler).map (fun s => s.log.map fun t =>
        (t.stage, t.clone, t.late, t.record.timestamp)) =
      some [(0, 0, false, 20), (0, 0, false, 15), (0, 0, true, 1)] := by decide
  obtain ⟨s, hs, hmap⟩ := map_eq_some_iff.mp hlog
  have hmem : (0, 0, true, 1) ∈ s.log.map fun t =>
      (t.stage, t.clone, t.late, t.record.timestamp) := by
    rw [hmap]
    decide
  obtain ⟨t, ht, heq⟩ := List.mem_map.mp hmem
  simp only [Prod.mk.injEq] at heq
  obtain ⟨hstage, hclone, hlate, hts⟩ := heq
  obtain ⟨before, r, after, m, hin, hr, hm, hlt⟩ :=
    (late_below_lateness (by decide) hs).1 t ht hstage hclone hlate
  exact ⟨s, t, hs, ht, hlate, hts, before, r, after, m, hin, mem_singleton.mp hr, hm, hlt⟩

/-- The last watermark behind that of a record from the end of 9999. -/
def yearEnd : List Event :=
  let order : KeyOrder := ⟨id, fun l => List.Perm.refl l⟩
  [.record, .send, .tick, .send, .exhausted, .send, .forward, .forward, .forward] ++
  [.route, .route, .send, .send, .route, .send, .send, .branch 1 (0, .take order),
    .branch 1 (0, .take order)].map fun e => Event.stage 0 (.inr e)

/-- A record dated 9999-12-31: a worker sees the watermark of that day less five seconds and then
    the last one, the start of that year. -/
theorem last_watermark_falls_back :
    ∃ s, Run.exec step (initial 5000000000 1 (windowOnly 2 Nat.two_pos)
        [{ timestamp := 253402214400000000000 }]) yearEnd = some s ∧
      ¬ ((seen s.log 0 1).filter Record.isWatermark).Pairwise fun m m' =>
        m.timestamp ≤ m'.timestamp := by
  have hseen : (Run.exec step (initial 5000000000 1 (windowOnly 2 Nat.two_pos)
      [{ timestamp := 253402214400000000000 }]) yearEnd).map
        (fun s => ((seen s.log 0 1).filter Record.isWatermark).map Record.timestamp) =
      some [253402214395000000000, maxWatermark] := by decide
  obtain ⟨s, hs, hmarks⟩ := map_eq_some_iff.mp hseen
  refine ⟨s, hs, fun hascend => ?_⟩
  have hpair : [253402214395000000000, maxWatermark].Pairwise (· ≤ ·) := by
    rw [← hmarks]
    exact pairwise_map.mpr hascend
  exact absurd hpair (by decide)

end EventTimeRun

end Weibo
