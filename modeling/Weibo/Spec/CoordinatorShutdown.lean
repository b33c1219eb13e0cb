import Weibo.ForStd.Run
import Weibo.Model.CoordinatorStop

/-!
# What stopping the coordinator establishes

`Stop` sets `halted` under the lock, waits for the sends that were registered
before, closes the channel and waits for the worker.  `Inv` says what this
order achieves: a call of `Stop` that is at some point has established what
`Reached` lists for the point, and no step of another goroutine takes it back.
-/

namespace Weibo

open List Option Sender

namespace Stopping

variable {Snap Blob : Type} {s s' : Stopping Snap Blob} {w : WorkerPc Snap Blob} {i : ℕ}

/-- How many goroutines `wg` has to wait for. -/
def alive : WorkerPc Snap Blob → ℕ
  | .exited => 0
  | _ => 1

/-- The holder is inside its critical section. -/
def Holds (s : Stopping Snap Blob) : Holder → Prop
  | .sender i => ∃ c, s.senders[i]? = some c ∧ c.pc = .locked
  | .stopper i => s.stoppers[i]? = some .locked
  | .worker => (∃ id, s.worker = .locked id) ∨ ∃ id, s.worker = .haltLocked id

/-- What a call of `Stop` has established when it is at a point. -/
def Reached (s : Stopping Snap Blob) : StopperPc → Prop
  | .once | .lock | .locked => True
  | .waitSends => s.halted = true
  | .close => s.halted = true ∧ s.sendWg = 0
  | .waitWorker => s.closed = true
  | .returned => s.worker = .exited

/-- What holds in every reachable state. -/
structure Inv (s : Stopping Snap Blob) : Prop where
  panicked : s.panicked = false
  holder : ∀ g, s.mu = some g → s.Holds g
  sendWg : s.sendWg = s.senders.countP Sender.inFlight
  /-- One call is inside the once while it runs, and none before and after. -/
  once : s.stoppers.countP StopperPc.inOnce = if s.stopOnce = .running then 1 else 0
  closed : s.closed = true ↔ s.stopOnce = .done
  quiet : s.closed = true → s.halted = true ∧ s.sendWg = 0
  reached : ∀ pc ∈ s.stoppers, s.Reached pc
  wg : s.wg = alive s.worker
  exited : s.worker = .exited → s.closed = true ∧ s.events = []
  enqueued : s.enqueued = s.taken ++ s.events
  begun : s.begun = s.ended ++ s.worker.finalizing.toList

theorem initial_inv : (({} : Stopping Snap Blob)).Inv where
  panicked := rfl
  holder _ h := nomatch h
  sendWg := rfl
  once := rfl
  closed := iff_of_false Bool.false_ne_true (fun h => nomatch h)
  quiet h := nomatch h
  reached _ h := nomatch h
  wg := rfl
  exited h := nomatch h
  enqueued := rfl
  begun := rfl

/-! ## Calls -/

/-- A new call is at a point that nobody counts. -/
theorem onSinkPrepared_inv (hs : s.Inv) (id : String) (sinkErr : Option String) :
    Inv { s with senders := s.senders ++ [{ id := id, sinkErr := sinkErr }] } :=
  { hs with
    holder := by
      intro g hg
      have := hs.holder g hg
      cases g with
      | sender i =>
        obtain ⟨c, hc, hpc⟩ := this
        exact ⟨c, by rw [getElem?_append_left (List.getElem?_eq_some_iff.mp hc).1, hc], hpc⟩
      | stopper i => exact this
      | worker => exact this
    sendWg := by
      show s.sendWg = (s.senders ++ _).countP inFlight
      rw [countP_append, ← hs.sendWg]
      rfl }

theorem stop_inv (hs : s.Inv) :
    Inv { s with stoppers := s.stoppers ++ [.once] } :=
  { hs with
    holder := by
      intro g hg
      have := hs.holder g hg
      cases g with
      | sender i => exact this
      | stopper i =>
        show (s.stoppers ++ [StopperPc.once])[i]? = some .locked
        rw [getElem?_append_left (List.getElem?_eq_some_iff.mp this).1, this]
      | worker => exact this
    once := by
      show (s.stoppers ++ [StopperPc.once]).countP StopperPc.inOnce = _
      rw [countP_append, hs.once]
      rfl
    reached := by
      intro pc hpc
      rcases mem_append.mp hpc with hold | hnew
      · exact hs.reached pc hold
      · obtain rfl := mem_singleton.mp hnew
        exact trivial }

/-- `Lock` returns where nobody holds the mutex. -/
theorem of_acquire {g : Holder} {f : Stopping Snap Blob → Stopping Snap Blob}
    (h : (s.acquire g).map f = some s') : s.mu = none ∧ s' = f { s with mu := some g } := by
  simp only [acquire, map_eq_some_iff, ite_none_right_eq_some, some.injEq] at h
  obtain ⟨_, ⟨hmu, rfl⟩, rfl⟩ := h
  exact ⟨hmu, rfl⟩

/-! ## Steps of a sender -/

/-- Only the sender that moves can lose the mutex. -/
theorem holds_setSender {c : Sender} (pc : SenderPc)
    (hc : s.senders[i]? = some c) (hpc : c.pc ≠ .locked) {g : Holder} (hg : s.Holds g) :
    (s.setSender i c pc).Holds g := by
  cases g with
  | sender j =>
    obtain ⟨d, hd, hdpc⟩ := hg
    have hne : i ≠ j := by
      rintro rfl
      exact hpc (some.inj (hc.symm.trans hd) ▸ hdpc)
    exact ⟨d, by simp only [setSender]; rw [getElem?_set_ne hne, hd], hdpc⟩
  | stopper j => exact hg
  | worker => exact hg

theorem senderStep_inv {c : Sender} (hs : s.Inv)
    (hc : s.senders[i]? = some c) (h : s.senderStep i c = some s') : s'.Inv := by
  have hi := (List.getElem?_eq_some_iff.mp hc).1
  have hcount := fun pc : SenderPc => Run.countP_set inFlight { c with pc := pc } hc
  have hwg := hs.sendWg
  have hpos (hfly : c.inFlight = true) : 0 < s.senders.countP inFlight :=
    countP_pos_iff.mpr ⟨c, mem_of_getElem? hc, hfly⟩
  have hopen (hfly : c.inFlight = true) : ¬ s.closed = true := fun hclosed => by
    have := (hs.quiet hclosed).2
    have := hpos hfly
    omega
  revert h
  fun_cases senderStep s i c <;> intro h
  -- `Lock`
  case case1 hpc =>
    obtain ⟨-, rfl⟩ := of_acquire h
    have := hcount .locked
    simp only [inFlight, hpc] at this
    exact { hs with
      holder := by
        intro g hg
        cases hg
        exact ⟨_, getElem?_set_self hi, rfl⟩
      sendWg := hwg.trans this.symm }
  all_goals cases h
  -- the critical section: `halted` decides whether the call goes on
  case case2.refl hpc _ _ =>
    have := hcount .returned
    simp only [inFlight, hpc] at this
    exact { hs with
      holder := fun g hg => nomatch hg
      sendWg := hwg.trans this.symm }
  case case3.refl hpc _ hhalted =>
    have := hcount .send
    simp only [inFlight, hpc] at this
    exact { hs with
      holder := fun g hg => nomatch hg
      sendWg := (congrArg (· + 1) hwg).trans this.symm
      quiet := fun hclosed => absurd (hs.quiet hclosed).1 hhalted
      -- a caller that waits for the sends has set `halted` before
      reached := by
        intro pc hmem
        have := hs.reached pc hmem
        cases pc with
        | close => exact absurd this.1 hhalted
        | _ => exact this }
  -- the send
  case case4.refl hpc hclosed => exact absurd hclosed (hopen (by simp [inFlight, hpc]))
  case case5.refl hpc hclosed _ =>
    have := hcount .done
    simp only [inFlight, hpc] at this
    exact { hs with
      holder := fun g hg => holds_setSender .done hc (by simp [hpc]) (hs.holder g hg)
      sendWg := hwg.trans (Nat.add_right_cancel this).symm
      exited := fun hw => absurd (hs.exited hw).1 hclosed
      enqueued := by
        show s.enqueued ++ [c.id] = s.taken ++ (s.events ++ [c.id])
        rw [hs.enqueued, append_assoc] }
  -- `sendWg.Done`
  case case7.refl hpc hzero =>
    have := hpos (by simp [inFlight, hpc])
    omega
  case case8.refl hpc hne =>
    have hret := hcount .returned
    simp only [inFlight, hpc] at hret
    exact { hs with
      holder := fun g hg => holds_setSender .returned hc (by simp [hpc]) (hs.holder g hg)
      sendWg := by
        show s.sendWg - 1 = _
        simp only [setSender] at hret ⊢
        change _ + 1 = _ + 0 at hret
        omega
      quiet := fun hclosed => absurd (hs.quiet hclosed).2 hne
      reached := by
        intro pc hmem
        have := hs.reached pc hmem
        cases pc with
        | close => exact absurd this.2 hne
        | _ => exact this }

/-! ## Steps of a caller of `Stop` -/

theorem holds_setStopper {old : StopperPc} (pc : StopperPc)
    (hc : s.stoppers[i]? = some old) (hpc : old ≠ .locked) {g : Holder} (hg : s.Holds g) :
    (s.setStopper i pc).Holds g := by
  cases g with
  | sender j => exact hg
  | stopper j =>
    have hne : i ≠ j := by
      rintro rfl
      exact hpc (some.inj (hc.symm.trans hg))
    simp only [Holds, setStopper]
    rw [getElem?_set_ne hne]
    exact hg
  | worker => exact hg

/-- The caller that moves has established what its new point asks for. -/
theorem reached_setStopper {pc : StopperPc}
    (hs : ∀ pc ∈ s.stoppers, s.Reached pc) (hpc : s.Reached pc) :
    ∀ pc' ∈ (s.setStopper i pc).stoppers, (s.setStopper i pc).Reached pc' := by
  intro pc' hmem
  have : s.Reached pc' := by
    rcases mem_or_eq_of_mem_set hmem with hold | rfl
    · exact hs pc' hold
    · exact hpc
  cases pc' <;> exact this

/-- While one call is inside the once, the once is running. -/
theorem Inv.running_of_inOnce {pc : StopperPc} (hs : s.Inv)
    (hmem : pc ∈ s.stoppers) (hpc : pc.inOnce = true) : s.stopOnce = .running := by
  have hpos : 0 < s.stoppers.countP StopperPc.inOnce :=
    countP_pos_iff.mpr ⟨pc, hmem, hpc⟩
  have honce := hs.once
  by_contra hne
  rw [if_neg hne] at honce
  omega

/-- A critical section that ends, with `halted` set or as it was. -/
theorem Inv.unlock (hs : s.Inv) {halted : Bool} (hhalted : s.halted = true → halted = true) : Inv { s with mu := none, halted := halted } :=
  { hs with
    holder := fun g hg => nomatch hg
    quiet := fun hclosed => ⟨hhalted (hs.quiet hclosed).1, (hs.quiet hclosed).2⟩
    reached := by
      intro pc hmem
      have := hs.reached pc hmem
      cases pc with
      | waitSends => exact hhalted this
      | close => exact ⟨hhalted this.1, this.2⟩
      | _ => exact this }

theorem stopperStep_inv {pc : StopperPc} (hs : s.Inv)
    (hc : s.stoppers[i]? = some pc) (h : s.stopperStep i pc = some s') : s'.Inv := by
  have hi := (List.getElem?_eq_some_iff.mp hc).1
  have hmem := mem_of_getElem? hc
  have hcount := fun pc' => Run.countP_set StopperPc.inOnce pc' hc
  have hreached := hs.reached pc hmem
  have honce := hs.once
  cases pc with
  | once =>
    simp only [stopperStep] at h
    split at h
    · -- the first caller runs the function of the once
      rename_i hfresh
      cases h
      have hlock := hcount .lock
      rw [honce, if_neg (by simp [hfresh])] at hlock
      exact { hs with
        holder := fun g hg => holds_setStopper .lock hc (by simp) (hs.holder g hg)
        once := hlock
        closed := iff_of_false (fun hclosed => by simp [hs.closed.mp hclosed] at hfresh)
          (fun hdone => nomatch hdone)
        reached := reached_setStopper (s := { s with stopOnce := .running }) hs.reached trivial }
    · simp at h
    · rename_i hdone
      cases h
      exact { hs with
        holder := fun g hg => holds_setStopper .waitWorker hc (by simp) (hs.holder g hg)
        once := (hcount .waitWorker).trans honce
        reached := reached_setStopper hs.reached (hs.closed.mpr hdone) }
  | lock =>
    obtain ⟨-, rfl⟩ := of_acquire h
    exact { hs with
      holder := by
        intro g hg
        cases hg
        exact getElem?_set_self hi
      once := (Nat.add_right_cancel (hcount .locked)).trans honce
      reached := reached_setStopper (s := { s with mu := some (.stopper i) }) hs.reached trivial }
  | locked =>
    cases h
    have hopen : Inv { s with mu := none, halted := true } := hs.unlock fun _ => rfl
    exact { hopen with
      holder := fun g hg => nomatch hg
      once := (Nat.add_right_cancel (hcount .waitSends)).trans honce
      reached := reached_setStopper hopen.reached rfl }
  | waitSends =>
    simp only [stopperStep, ite_none_right_eq_some] at h
    obtain ⟨hzero, h⟩ := h
    cases h
    exact { hs with
      holder := fun g hg => holds_setStopper .close hc (by simp) (hs.holder g hg)
      once := (Nat.add_right_cancel (hcount .close)).trans honce
      reached := reached_setStopper hs.reached ⟨hreached, hzero⟩ }
  | close =>
    -- the once is running, so the channel is still open
    have hrunning := hs.running_of_inOnce hmem rfl
    have hopen : ¬ s.closed = true := fun hclosed => by
      simp [hs.closed.mp hclosed] at hrunning
    simp only [stopperStep, if_neg hopen] at h
    cases h
    have hleave := hcount .waitWorker
    rw [honce, if_pos hrunning] at hleave
    exact { hs with
      holder := fun g hg => holds_setStopper .waitWorker hc (by simp) (hs.holder g hg)
      once := Nat.succ.inj hleave
      closed := iff_of_true rfl rfl
      quiet := fun _ => hreached
      reached := by
        refine reached_setStopper (s := { s with closed := true, stopOnce := .done }) ?_ rfl
        intro pc' hmem'
        have := hs.reached pc' hmem'
        cases pc' with
        | waitWorker => rfl
        | _ => exact this
      exited := fun hw => ⟨rfl, (hs.exited hw).2⟩ }
  | waitWorker =>
    simp only [stopperStep, ite_none_right_eq_some] at h
    obtain ⟨hzero, h⟩ := h
    cases h
    have hexited : s.worker = .exited := by
      have hwg := hs.wg
      cases hw : s.worker <;> simp_all [alive]
    exact { hs with
      holder := fun g hg => holds_setStopper .returned hc (by simp) (hs.holder g hg)
      once := (hcount .returned).trans honce
      reached := reached_setStopper hs.reached hexited }
  | returned => simp [stopperStep] at h

/-! ## Steps of the worker -/

/-- The worker does not hold the mutex outside of its critical sections. -/
theorem Inv.not_held (hs : s.Inv) (hlocked : ∀ id, s.worker ≠ .locked id)
    (hhalt : ∀ id, s.worker ≠ .haltLocked id) : s.mu ≠ some .worker := by
  intro hmu
  rcases hs.holder _ hmu with ⟨id, h⟩ | ⟨id, h⟩
  · exact hlocked id h
  · exact hhalt id h

/-- The worker goes to another point without the mutex. -/
theorem Inv.move (hs : s.Inv)
    {begun ended : List String} (hmu : s.mu ≠ some .worker) (halive : alive s.worker = 1)
    (halive' : alive w = 1) (hbegun : begun = ended ++ w.finalizing.toList) :
    Inv { s with worker := w, begun := begun, ended := ended } :=
  { hs with
    holder := by
      intro g hg
      have := hs.holder g hg
      cases g with
      | worker => exact absurd hg hmu
      | _ => exact this
    reached := by
      intro pc hmem
      have := hs.reached pc hmem
      cases pc with
      | returned =>
        rw [show s.worker = .exited from this] at halive
        exact absurd halive Nat.zero_ne_one
      | _ => exact this
    wg := hs.wg.trans (halive.trans halive'.symm)
    exited := by
      rintro rfl
      exact absurd halive' Nat.zero_ne_one
    begun := hbegun }

/-- The worker takes the mutex. -/
theorem Inv.lock (hs : s.Inv) (hmu : s.mu = none) (halive : alive s.worker = 1)
    (halive' : alive w = 1) (hw : (∃ id, w = .locked id) ∨ ∃ id, w = .haltLocked id)
    (hfin : w.finalizing = s.worker.finalizing) :
    Inv { s with mu := some .worker, worker := w } :=
  { hs.move (w := w) (by simp [hmu]) halive halive' (hfin ▸ hs.begun) with
    holder := by
      intro g hg
      cases hg
      exact hw }

/-- The worker ends when the channel is closed and empty. -/
theorem Inv.exit (hs : s.Inv) (hw : s.worker = .receive) (hclosed : s.closed = true)
    (hevents : s.events = []) : Inv { s with worker := .exited, wg := s.wg - 1 } :=
  { hs with
    holder := by
      intro g hg
      have := hs.holder g hg
      cases g with
      | worker => exact absurd hg (hs.not_held (by simp [hw]) (by simp [hw]))
      | _ => exact this
    reached := by
      intro pc hmem
      have := hs.reached pc hmem
      cases pc with
      | returned => rfl
      | _ => exact this
    wg := by simp [hs.wg, hw, alive]
    exited := fun _ => ⟨hclosed, hevents⟩
    begun := by rw [hs.begun, hw]; rfl }

/-- The critical section of `finalize`. -/
theorem finalizeLocked_inv {id : String} (hs : s.Inv) (hw : s.worker = .locked id) : (s.finalizeLocked id).Inv := by
  have halive : alive s.worker = 1 := by rw [hw]; rfl
  have hbegun : s.begun = s.ended ++ [] := by rw [hs.begun, hw]; rfl
  have hopen := hs.unlock (fun h => h)
  unfold finalizeLocked
  split
  · exact hopen.move (fun h => nomatch h) halive rfl hbegun
  · -- past the check the id is in `begun`, and in `ended` only if nothing was registered
    have hpending : Inv { s with mu := none, pending := Function.update s.pending id none } :=
      { hopen with }
    have hbegun' : s.begun ++ [id] = s.ended ++ [id] := by rw [hbegun, append_nil]
    dsimp only
    split
    · exact hpending.move (fun h => nomatch h) halive rfl (hbegun'.trans (append_nil _).symm)
    · split
      · exact hpending.move (fun h => nomatch h) halive rfl hbegun'
      · exact hpending.move (fun h => nomatch h) halive rfl hbegun'

theorem alive_of_finalizing {id : String} (h : w.finalizing = some id) : alive w = 1 := by
  cases w with
  | exited => cases h
  | _ => rfl

/-- The worker goes to another point of the same finalization. -/
theorem Inv.goto {id : String} (hs : s.Inv) (hw : w.finalizing = some id)
    (hfin : s.worker.finalizing = some id) (hlocked : ∀ id, s.worker ≠ .haltLocked id) :
    Inv { s with worker := w } :=
  have hmu := hs.not_held (fun id hw => by simp [hw, WorkerPc.finalizing] at hfin) hlocked
  hs.move hmu (alive_of_finalizing hfin) (alive_of_finalizing hw) (by rw [hs.begun, hfin, hw])

/-- The finalization comes to its end. -/
theorem Inv.finish {id : String} (hs : s.Inv) (hfin : s.worker.finalizing = some id)
    (hmu : s.mu ≠ some .worker) : (s.finish id).Inv :=
  hs.move hmu (alive_of_finalizing hfin) rfl (by rw [hs.begun, hfin]; exact (append_nil _).symm)

theorem afterHook_inv {id : String} {p : PendingCheckpoint Snap Blob} {step : Coordinator.Step}
    (hs : s.Inv) (hw : s.worker = .hook step id p) : (s.afterHook id p step).Inv := by
  have hfin : s.worker.finalizing = some id := by rw [hw]; rfl
  have hlocked : ∀ id, s.worker ≠ .haltLocked id := by simp [hw]
  cases step with
  | persistPrepared => exact hs.goto rfl hfin hlocked
  | sinkCommitted => exact hs.goto rfl hfin hlocked
  | persistCompleted =>
    simp only [afterHook]
    split <;> exact hs.goto rfl hfin hlocked
  | offsetsCommitted => exact hs.finish hfin (hs.not_held (by simp [hw]) hlocked)

theorem workerStep_inv {reply : Reply} (hs : s.Inv) (h : s.workerStep reply = some s') : s'.Inv := by
  revert h
  fun_cases workerStep s reply <;> intro h
  case case5 id hw =>
    obtain ⟨hmu, rfl⟩ := of_acquire h
    exact hs.lock hmu (by rw [hw]; rfl) rfl (.inl ⟨id, rfl⟩) (by rw [hw]; rfl)
  case case17 id hw =>
    obtain ⟨hmu, rfl⟩ := of_acquire h
    exact hs.lock hmu (by rw [hw]; rfl) rfl (.inr ⟨id, rfl⟩) (by rw [hw]; rfl)
  all_goals cases h
  case case1.refl hw id rest hevents =>
    have hmu := hs.not_held (by simp [hw]) (by simp [hw])
    exact { hs.move (w := .lock id) hmu (by rw [hw]; rfl) rfl (by rw [hs.begun, hw]; rfl) with
      exited := fun hexited => nomatch hexited
      enqueued := by
        show s.enqueued = s.taken ++ [id] ++ rest
        rw [hs.enqueued, hevents, append_assoc]
        rfl }
  case case2.refl hw _ _ hwg => simp [hs.wg, hw, alive] at hwg
  case case3.refl hw hevents hclosed _ => exact hs.exit hw hclosed hevents
  case case6.refl id hw => exact finalizeLocked_inv hs hw
  case case11.refl step id p hw _ => exact afterHook_inv hs hw
  case case18.refl id hw =>
    exact (hs.unlock fun _ => rfl).finish (by rw [hw]; rfl) (fun h => nomatch h)
  case case20.refl id err hw =>
    have hfatal : Inv { s with fatal := some (s.fatal.getD err) } := { hs with }
    exact hfatal.finish (by rw [hw]; rfl) (hs.not_held (by simp [hw]) (by simp [hw]))
  -- everything else is outside of the critical sections
  all_goals exact hs.goto rfl (by simp [*, WorkerPc.finalizing]) (by simp [*])

/-- Every step keeps the invariant. -/
theorem step_inv (s : Stopping Snap Blob) (e : StopEvent) (s' : Stopping Snap Blob) (hs : s.Inv)
    (h : s.step e = some s') : s'.Inv := by
  cases e with
  | onSinkPrepared id sinkErr => exact some.inj h ▸ onSinkPrepared_inv hs id sinkErr
  | stop => exact some.inj h ▸ stop_inv hs
  | sender i =>
    obtain ⟨c, hc, h⟩ := bind_eq_some_iff.mp h
    exact senderStep_inv hs hc h
  | stopper i =>
    obtain ⟨pc, hc, h⟩ := bind_eq_some_iff.mp h
    exact stopperStep_inv hs hc h
  | worker reply => exact workerStep_inv hs h

end Stopping

end Weibo
