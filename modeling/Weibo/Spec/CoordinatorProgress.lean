import Weibo.Spec.CoordinatorShutdown

/-!
# Stopping the coordinator is safe and comes to its end

The safety part of `shutdown_safe` reads off the invariant.  For the absence of
deadlock, each blocked call names another goroutine it waits for: a sender
waits for the worker, the once for the caller inside it, `sendWg.Wait` for a
sender and `wg.Wait` for the worker, and the worker waits for nobody but the
holder of the mutex.  `calls_return` adds that the waiting is not endless.
-/

namespace Weibo

open List Option

namespace Stopping

variable {Snap Blob : Type} {s s' : Stopping Snap Blob}

/-! ## No deadlock -/

/-- Some goroutine can take a step. -/
def CanStep (s : Stopping Snap Blob) : Prop := ∃ e, e.ofGoroutine = true ∧ (s.step e).isSome

theorem canStep_sender {i : ℕ} {c : Sender} (hc : s.senders[i]? = some c)
    (h : (s.senderStep i c).isSome) : s.CanStep :=
  ⟨.sender i, rfl, by simp only [step, hc]; exact h⟩

theorem canStep_stopper {i : ℕ} {pc : StopperPc}
    (hc : s.stoppers[i]? = some pc) (h : (s.stopperStep i pc).isSome) : s.CanStep :=
  ⟨.stopper i, rfl, by simp only [step, hc]; exact h⟩

/-- The holder of the mutex never blocks inside its critical section. -/
theorem canStep_of_held (hs : s.Inv) {g : Holder} (hmu : s.mu = some g) : s.CanStep := by
  have hg := hs.holder g hmu
  cases g with
  | sender i =>
    obtain ⟨c, hc, hpc⟩ := hg
    refine canStep_sender hc ?_
    simp only [senderStep, hpc]
    split <;> rfl
  | stopper i => exact canStep_stopper hg rfl
  | worker =>
    refine ⟨.worker {}, rfl, ?_⟩
    rcases hg with ⟨id, hw⟩ | ⟨id, hw⟩ <;> simp [step, workerStep, hw]

/-- The worker only blocks at an empty channel that is not closed, or at a mutex held by somebody
    else. -/
theorem canStep_worker (hmu : s.mu = none) (hexited : s.worker ≠ .exited)
    (hevents : s.events ≠ [] ∨ s.closed = true) : s.CanStep := by
  refine ⟨.worker {}, rfl, ?_⟩
  simp only [step, workerStep]
  cases hw : s.worker with
  | receive =>
    cases hev : s.events with
    | nil =>
      have hclosed : s.closed = true := hevents.resolve_left (by simp [hev])
      simp only [hclosed, if_true]
      split <;> rfl
    | cons id rest => rfl
  | exited => exact absurd hw hexited
  | _ => simp [acquire, hmu]

/-- A registered send goes through as soon as the worker has taken an id. -/
theorem canStep_of_inFlight (hs : s.Inv) (hmu : s.mu = none) {c : Sender}
    (hc : c ∈ s.senders) (hpc : c.inFlight = true) : s.CanStep := by
  obtain ⟨i, hi⟩ := mem_iff_getElem?.mp hc
  simp only [Sender.inFlight, Bool.or_eq_true, beq_iff_eq] at hpc
  rcases hpc with hsend | hdone
  · by_cases hroom : s.events.length < Coordinator.eventsCap
    · refine canStep_sender hi ?_
      simp only [senderStep, hsend, hroom, if_true]
      split <;> rfl
    · -- the channel is full, so the worker has something to take
      have hne : s.events ≠ [] := by
        intro hnil
        simp [hnil, Coordinator.eventsCap] at hroom
      exact canStep_worker hmu (fun hw => hne (hs.exited hw).2) (.inl hne)
  · refine canStep_sender hi ?_
    simp only [senderStep, hdone]
    split <;> rfl

/-- The caller inside the once waits for registered sends only. -/
theorem canStep_of_inOnce (hs : s.Inv) (hmu : s.mu = none)
    {pc : StopperPc} (hc : pc ∈ s.stoppers) (hpc : pc.inOnce = true) : s.CanStep := by
  obtain ⟨i, hi⟩ := mem_iff_getElem?.mp hc
  cases pc with
  | once | waitWorker | returned => cases hpc
  | lock => exact canStep_stopper hi (by simp [stopperStep, acquire, hmu])
  | locked => exact canStep_stopper hi rfl
  | waitSends =>
    by_cases hzero : s.sendWg = 0
    · exact canStep_stopper hi (by simp [stopperStep, hzero])
    · have hpos : 0 < s.senders.countP Sender.inFlight := by
        have := hs.sendWg
        omega
      obtain ⟨c, hmem, hflight⟩ := countP_pos_iff.mp hpos
      exact canStep_of_inFlight hs hmu hmem hflight
  | close =>
    refine canStep_stopper hi ?_
    simp only [stopperStep]
    split <;> rfl

/-- As long as a call has not returned, some goroutine can take a step. -/
theorem canStep_of_unfinished (hs : s.Inv) (h : s.Unfinished) : s.CanStep := by
  cases hmu : s.mu with
  | some g => exact canStep_of_held hs hmu
  | none =>
    rcases h with ⟨c, hc, hpc⟩ | ⟨pc, hc, hpc⟩
    · obtain ⟨i, hi⟩ := mem_iff_getElem?.mp hc
      cases hcpc : c.pc with
      | lock => exact canStep_sender hi (by simp [senderStep, hcpc, acquire, hmu])
      | locked =>
        refine canStep_sender hi ?_
        simp only [senderStep, hcpc]
        split <;> rfl
      | send | done => exact canStep_of_inFlight hs hmu hc (by simp [Sender.inFlight, hcpc])
      | returned => exact absurd hcpc hpc
    · obtain ⟨i, hi⟩ := mem_iff_getElem?.mp hc
      cases pc with
      | lock | locked | waitSends | close => exact canStep_of_inOnce hs hmu hc rfl
      | once =>
        cases honce : s.stopOnce with
        | fresh | done => exact canStep_stopper hi (by simp [stopperStep, honce])
        | running =>
          -- wait for the caller that is inside
          have hcount := hs.once
          rw [if_pos honce] at hcount
          obtain ⟨pc', hmem, hin⟩ := countP_pos_iff.mp (by omega :
            0 < s.stoppers.countP StopperPc.inOnce)
          exact canStep_of_inOnce hs hmu hmem hin
      | waitWorker =>
        by_cases hexited : s.worker = .exited
        · have hwg : s.wg = 0 := by rw [hs.wg, hexited]; rfl
          exact canStep_stopper hi (by simp [stopperStep, hwg])
        · exact canStep_worker hmu hexited (.inr (hs.reached _ hc))
      | returned => exact absurd rfl hpc

/-- Stopping is safe in every interleaving: nothing is sent on the closed channel; when a call of
    `Stop` has returned, the worker has taken every id off the queue and every finalization that got
    past the halted check has come to its end; and as long as some call has not returned, some
    goroutine can take a step. -/
theorem shutdown_safe {es : List StopEvent} {s : Stopping Snap Blob}
    (h : Run.exec step {} es = some s) :
    (s.panicked = false ∧ ∀ c ∈ s.senders, c.pc = .send → s.closed = false) ∧
      (s.StopReturned → s.taken = s.enqueued ∧ s.events = []) ∧
      (s.StopReturned → s.ended = s.begun ∧ s.worker = .exited) ∧
      (s.Unfinished → ∃ e, e.ofGoroutine = true ∧ (s.step e).isSome) := by
  have hs : s.Inv := Run.exec_invariant step_inv initial_inv h
  refine ⟨⟨hs.panicked, ?_⟩, ?_, ?_, canStep_of_unfinished hs⟩
  · intro c hc hpc
    have hpos : 0 < s.senders.countP Sender.inFlight :=
      countP_pos_iff.mpr ⟨c, hc, by simp [Sender.inFlight, hpc]⟩
    by_contra hclosed
    have hzero := (hs.quiet (by simpa using hclosed)).2
    have := hs.sendWg
    omega
  · intro hstop
    have hevents := (hs.exited (hs.reached _ hstop)).2
    have henqueued := hs.enqueued
    rw [hevents, append_nil] at henqueued
    exact ⟨henqueued.symm, hevents⟩
  · intro hstop
    have hexited : s.worker = .exited := hs.reached _ hstop
    have hbegun := hs.begun
    rw [hexited] at hbegun
    exact ⟨(hbegun.trans (append_nil _)).symm, hexited⟩

/-- A schedule in which a checkpoint is being finalized when two calls of `Stop` come in, while a
    second checkpoint waits in the queue and a third call has just registered its send. -/
def stopWhileFinalizing : List StopEvent :=
  [.onSinkPrepared "c1" none, .onSinkPrepared "c2" none, .onSinkPrepared "c3" none, .sender 0,
    .sender 0, .sender 0, .sender 0, .worker {}, .worker {}, .worker {}, .worker {}, .sender 1,
    .sender 1, .sender 1, .sender 2, .sender 2, .stop, .stop, .stopper 0, .stopper 0, .stopper 0,
    .sender 1, .sender 2, .sender 2, .stopper 0, .stopper 0, .stopper 1, .worker {}, .worker {},
    .worker {}, .worker {}, .worker {}, .worker {}, .worker {}, .worker {}, .worker {}, .worker {},
    .worker {}, .worker {}, .worker {}, .stopper 1, .stopper 0]

/-- In that schedule the finalization comes to its end and the other two ids are drained. -/
theorem shutdown_safe_while_finalizing :
    ∃ s : Stopping Unit Unit, Run.exec step {} stopWhileFinalizing = some s ∧
      s.StopReturned ∧ s.enqueued = ["c1", "c2", "c3"] ∧ s.taken = s.enqueued ∧
      s.begun = ["c1"] ∧ s.ended = s.begun := by
  have hrun : (Run.exec step ({} : Stopping Unit Unit) stopWhileFinalizing).map
      (fun s => (s.stoppers, s.enqueued, s.begun)) =
      some ([.returned, .returned], ["c1", "c2", "c3"], ["c1"]) := rfl
  obtain ⟨s, hs, hobs⟩ := map_eq_some_iff.mp hrun
  simp only [Prod.mk.injEq] at hobs
  obtain ⟨hstoppers, henqueued, hbegun⟩ := hobs
  have hstop : s.StopReturned := by simp [StopReturned, hstoppers]
  obtain ⟨-, hqueue, hfinal, -⟩ := shutdown_safe hs
  exact ⟨s, hs, hstop, henqueued, (hqueue hstop).1, hbegun, (hfinal hstop).1⟩

/-! ## Every call returns -/

/-- A step of a goroutine; no new call comes in. -/
def goroutineStep (s : Stopping Snap Blob) (e : StopEvent) : Option (Stopping Snap Blob) :=
  if e.ofGoroutine then s.step e else none

/-- How many steps a call of `OnSinkPrepared` can cause, those of the worker included. -/
def senderRank (c : Sender) : ℕ :=
  match c.pc with
  | .lock => 17
  | .locked => 16
  | .send => 15
  | .done => 1
  | .returned => 0

def stopperRank : StopperPc → ℕ
  | .once => 6
  | .lock => 5
  | .locked => 4
  | .waitSends => 3
  | .close => 2
  | .waitWorker => 1
  | .returned => 0

/-- How many steps the worker can take before it receives again. -/
def workerRank : WorkerPc Snap Blob → ℕ
  | .lock _ => 13
  | .locked _ => 12
  | .save _ _ => 11
  | .hook .persistPrepared _ _ => 10
  | .commitSink _ _ => 9
  | .hook .sinkCommitted _ _ => 8
  | .updateStatus _ _ => 7
  | .hook .persistCompleted _ _ => 6
  | .commitOffsets _ _ => 5
  | .hook .offsetsCommitted _ _ => 4
  | .haltLock _ | .abortSink _ _ => 3
  | .haltLocked _ | .report _ _ => 2
  | .receive => 1
  | .exited => 0

def rank (s : Stopping Snap Blob) : ℕ :=
  Run.total senderRank s.senders + Run.total stopperRank s.stoppers + 13 * s.events.length +
    workerRank s.worker

theorem senderStep_rank {i : ℕ} {c : Sender}
    (hc : s.senders[i]? = some c) (h : s.senderStep i c = some s') : s'.rank < s.rank := by
  have hsum := fun pc : SenderPc => Run.total_set senderRank { c with pc := pc } hc
  have hlocked := hsum .locked
  have hsend := hsum .send
  have hdone := hsum .done
  have hret := hsum .returned
  revert h
  fun_cases senderStep s i c <;> intro h
  all_goals simp only [senderRank, *] at hlocked hsend hdone hret
  case case1 =>
    obtain ⟨-, rfl⟩ := of_acquire h
    simp only [rank, setSender]
    omega
  all_goals cases h
  all_goals
    simp +zetaDelta only [rank, setSender, register, length_append, length_singleton]
    omega

theorem stopperStep_rank {i : ℕ} {pc : StopperPc}
    (hc : s.stoppers[i]? = some pc) (h : s.stopperStep i pc = some s') : s'.rank < s.rank := by
  have hlt (pc' : StopperPc) (hpc : stopperRank pc' < stopperRank pc) :
      Run.total stopperRank (s.stoppers.set i pc') < Run.total stopperRank s.stoppers := by
    have := Run.total_set stopperRank pc' hc
    omega
  revert h
  fun_cases stopperStep s i pc <;> intro h
  case case4 =>
    obtain ⟨-, rfl⟩ := of_acquire h
    have := hlt .locked (by decide)
    simp only [rank, setStopper]
    omega
  all_goals cases h
  all_goals
    simp only [rank, setStopper, Nat.add_lt_add_iff_right, Nat.add_lt_add_iff_left]
    exact hlt _ (by decide)

theorem workerStep_rank {reply : Reply} (h : s.workerStep reply = some s') : s'.rank < s.rank := by
  -- nothing but the worker and the queue changes
  suffices hrank : s'.senders = s.senders ∧ s'.stoppers = s.stoppers ∧
      13 * s'.events.length + workerRank s'.worker < 13 * s.events.length + workerRank s.worker by
    obtain ⟨hsenders, hstoppers, hlt⟩ := hrank
    simp only [rank, hsenders, hstoppers]
    omega
  revert h
  fun_cases workerStep s reply <;> intro h
  case case5 id hw =>
    obtain ⟨-, rfl⟩ := of_acquire h
    simp [hw, workerRank]
  case case17 id hw =>
    obtain ⟨-, rfl⟩ := of_acquire h
    simp [hw, workerRank]
  all_goals cases h
  case case1.refl hw id rest hevents =>
    simp only [hw, hevents, workerRank, length_cons, true_and]
    omega
  case case6.refl id hw =>
    unfold finalizeLocked
    split
    · simp [hw, workerRank]
    · dsimp only
      split
      · simp [hw, workerRank, finish]
      · split <;> simp [hw, workerRank]
  case case9.refl step id p hw _ => cases step <;> simp [hw, workerRank]
  case case10.refl step id p hw _ => cases step <;> simp [hw, workerRank]
  case case11.refl step id p hw _ =>
    cases step with
    | persistCompleted =>
      simp only [afterHook]
      split <;> simp [hw, workerRank]
    | _ => simp [hw, workerRank, afterHook, finish]
  all_goals simp [*, workerRank, finish]

theorem goroutineStep_some {e : StopEvent} (h : s.goroutineStep e = some s') : e.ofGoroutine = true ∧ s.step e = some s' := by
  unfold goroutineStep at h
  rwa [ite_none_right_eq_some] at h

theorem goroutineStep_inv (s : Stopping Snap Blob) (e : StopEvent) (s' : Stopping Snap Blob)
    (hs : s.Inv) (h : s.goroutineStep e = some s') : s'.Inv :=
  step_inv s e s' hs (goroutineStep_some h).2

theorem goroutineStep_rank (s : Stopping Snap Blob) (e : StopEvent) (s' : Stopping Snap Blob)
    (h : s.goroutineStep e = some s') : s'.rank < s.rank := by
  obtain ⟨he, h⟩ := goroutineStep_some h
  cases e with
  | onSinkPrepared id sinkErr => cases he
  | stop => cases he
  | sender i =>
    obtain ⟨c, hc, h⟩ := bind_eq_some_iff.mp h
    exact senderStep_rank hc h
  | stopper i =>
    obtain ⟨pc, hc, h⟩ := bind_eq_some_iff.mp h
    exact stopperStep_rank hc h
  | worker reply => exact workerStep_rank h

/-- From every reachable state, however the goroutines are scheduled, they come to rest if no new
    call is made, and then every call has returned. -/
theorem calls_return {es : List StopEvent} (h : Run.exec step {} es = some s) :
    Run.Terminates (@goroutineStep Snap Blob) ∧
      ∀ es' s', Run.exec goroutineStep s es' = some s' → Run.Stuck goroutineStep s' →
        ¬ s'.Unfinished := by
  refine ⟨Run.terminates_of_decreasing goroutineStep_rank, fun es' s' h' hstuck hopen => ?_⟩
  have hs' : s'.Inv := Run.exec_invariant goroutineStep_inv (Run.exec_invariant step_inv initial_inv h) h'
  obtain ⟨e, he, hsome⟩ := canStep_of_unfinished hs' hopen
  refine hstuck.not_isSome e ?_
  unfold goroutineStep
  rw [if_pos he]
  exact hsome

/-- The schedule above, cut off when nobody has returned yet. -/
theorem calls_return_stopWhileFinalizing :
    ∃ s : Stopping Unit Unit, Run.exec step {} (stopWhileFinalizing.take 18) = some s ∧
      ∀ es' s', Run.exec goroutineStep s es' = some s' → Run.Stuck goroutineStep s' →
        ¬ s'.Unfinished := by
  have hs : Run.exec step ({} : Stopping Unit Unit) (stopWhileFinalizing.take 18) = some _ := rfl
  exact ⟨_, hs, (calls_return hs).2⟩

end Stopping

end Weibo
