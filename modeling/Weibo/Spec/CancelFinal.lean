import Weibo.Spec.SingleRun

/-!
# Cancel is final

`Reconcile` decides on a copy of the job that it read before, and it may sleep
between that decision and the launch.  If no such copy is around when `Cancel`
sets the desired state, every later decision sees a job that should be stopped:
nobody launches any more, `Cancel` finds the one container that may run and stops
it, and it stays so.

## Key results

- `CancelInv.step`: once the job should be stopped, nobody is on the way to a launch
- `cancel_is_final`: after `Cancel` returned no container runs, and none is launched
-/

namespace Weibo.Control

open Option

variable {T : Type} {p : RestartPolicy} {pc : Pc T} {res : pc.call.Res}

/-! ## Who may still launch -/

def Next.mayLaunch : Next T → Bool
  | .runs _ => false
  | .setDesired => true
  | .maybeRestart job _ _ => decide (job.desired = .running)

/-- Whether an execution may come to launch without reading the job again. -/
def Pc.mayLaunch : Pc T → Bool
  | .stop _ _ next | .updateRun _ _ _ next | .transition _ _ _ next => next.mayLaunch
  | .status job _ _ => decide (job.desired = .running)
  | .restartGetJob | .restartLatestRun | .restartSetDesired | .backoff .. | .fence ..
  | .launch .. | .launchStatus .. | .createRun .. => true
  | _ => false

namespace Controller

/-- Whether an execution may come to launch. -/
def mayLaunch (s : Controller T) (i : ℕ) : Bool :=
  s.procs[i]?.any fun e => e.pc.any Pc.mayLaunch

/-- Whether a `Cancel` is about to set the desired state. -/
def atSetDesired (s : Controller T) (i : ℕ) : Bool :=
  s.procs[i]?.any fun e => e.pc.any fun pc => pc matches .cancelSetDesired

/-- `Cancel` sets the desired state while no other execution is between reading a job that should
    run and the end of what it does for it. -/
def Undisturbed (s : Controller T) : Event T → Prop
  | .call i _ => s.atSetDesired i = true →
    ∀ j < s.procs.length, j ≠ i → s.mayLaunch j = false
  | _ => True

/-- No `Restart` is issued once the job should be stopped. -/
def NoRestart (s : Controller T) : Event T → Prop
  | .start r => r = .restart → s.world.store.desired = .running
  | _ => True

instance (s : Controller T) : (e : Event T) → Decidable (s.NoRestart e)
  | .start r => inferInstanceAs (Decidable (r = .restart → s.world.store.desired = .running))
  | .call .. => isTrue trivial
  | .exit .. => isTrue trivial
  | .vanish _ => isTrue trivial

instance (s : Controller T) : (e : Event T) → Decidable (s.Undisturbed e)
  | .call i _ => inferInstanceAs (Decidable (s.atSetDesired i = true →
    ∀ j < s.procs.length, j ≠ i → s.mayLaunch j = false))
  | .start _ => isTrue trivial
  | .exit .. => isTrue trivial
  | .vanish _ => isTrue trivial

theorem At.mayLaunch {s : Controller T} {i : ℕ} (h : s.At i pc) :
    s.mayLaunch i = pc.mayLaunch := by
  obtain ⟨e, he, hpc⟩ := h
  rw [Controller.mayLaunch, he, any_some, hpc, any_some]

end Controller

/-! ## The job should be stopped -/

theorem calm_of_mayLaunch (h : pc.mayLaunch = false) :
    pc.launching = false ∧ pc.atFence = false := by
  cases pc <;> first | exact ⟨rfl, rfl⟩ | simp [Pc.mayLaunch] at h

theorem mayLaunch_nextRun {rest : List (Run T)} : ∀ pc ∈ nextRun rest, pc.mayLaunch = false := by
  intro pc hpc
  cases rest with
  | nil => cases hpc
  | cons run rest =>
    cases hpc
    rfl

section

variable [LT T] [DecidableLT T] {w w' : World T}

/-- When the job should be stopped, an execution that cannot come to launch stays so, and the
    desired state stays as it is. -/
theorem mayLaunch_call (p : RestartPolicy) (a : Answer T) (hpc : pc.mayLaunch = false)
    (hdesired : w.store.desired = .stopped) (h : w.perform a pc.call = some (w', res)) :
    w'.store.desired = .stopped ∧ ∀ pc' ∈ pc.resume p a res, pc'.mayLaunch = false := by
  constructor
  · cases pc
    case cancelSetDesired =>
      cases h
      rfl
    case launch | createRun => simp [Pc.mayLaunch] at hpc
    case restartSetDesired => simp [Pc.mayLaunch] at hpc
    all_goals
      cases h
      exact hdesired
  · intro pc' hpc'
    revert hpc'
    fun_cases Pc.resume p a pc res <;> intro hpc' <;> try cases hpc'
    case case13 next _ =>
      cases next with
      | runs rest => exact mayLaunch_nextRun pc' hpc'
      | setDesired => simp [Pc.mayLaunch, Next.mayLaunch] at hpc
      | maybeRestart job run rest =>
        have hjob : job.desired ≠ .running := of_decide_eq_false hpc
        rw [Next.pc, maybeRestart, if_pos hjob] at hpc'
        exact mayLaunch_nextRun pc' hpc'
    case case14 | case17 | case26 => exact mayLaunch_nextRun pc' hpc'
    case case15.refl =>
      obtain ⟨-, rfl⟩ := Prod.mk.inj (some.inj h)
      rw [Pc.mayLaunch, hdesired]
      rfl
    case case16 job run rest st =>
      have hjob : job.desired = .stopped := by
        cases hjob : job.desired with
        | stopped => rfl
        | running => rw [Pc.mayLaunch, hjob] at hpc; simp at hpc
      obtain ⟨container, port⟩ := st
      cases container <;> simp only [reconcileRun, handleExit, if_pos hjob] at hpc' <;>
        cases hpc' <;> rfl
    all_goals first | exact hpc | simp [Pc.mayLaunch] at hpc

/-- Only `Cancel` sets the desired state to stopped. -/
theorem desired_call {a : Answer T} (hne : pc ≠ .cancelSetDesired)
    (hdesired : w.store.desired = .running) (h : w.perform a pc.call = some (w', res)) : w'.store.desired = .running := by
  cases pc
  case cancelSetDesired => exact absurd rfl hne
  case launch =>
    obtain ⟨b, -, heq⟩ := map_eq_some_iff.mp h
    cases heq
    exact hdesired
  case createRun =>
    obtain ⟨store, hstore, heq⟩ := map_eq_some_iff.mp h
    cases heq
    obtain ⟨-, hstore⟩ := ite_none_right_eq_some.mp hstore
    cases hstore
    exact hdesired
  case restartSetDesired =>
    cases h
    rfl
  all_goals
    cases h
    exact hdesired

end

/-! ## The executions of `Cancel` -/

/-- What is known where a `Cancel` is. -/
def CancelFact (w : World T) : Option (Pc T) → Prop
  | some .cancelGetJob | some .cancelSetDesired => True
  | some .cancelLatestRun => w.store.desired = .stopped
  | some (.stop run _ (.runs [])) =>
    w.store.desired = .stopped ∧ ∀ c, ¬ w.Down c → c = run.containerID
  | some (.updateRun _ _ _ (.runs [])) | some (.transition _ _ _ (.runs [])) | none =>
    w.store.desired = .stopped ∧ ∀ c, w.Down c
  | some _ => False

/-- Before it sets the desired state, a `Cancel` knows nothing. -/
theorem CancelFact.of_running {w : World T} {pc : Option (Pc T)} (h : CancelFact w pc)
    (hdesired : w.store.desired = .running) :
    pc = some .cancelGetJob ∨ pc = some .cancelSetDesired := by
  have hne : w.store.desired ≠ .stopped := by rw [hdesired]; exact DesiredState.noConfusion
  unfold CancelFact at h
  split at h
  · exact .inl rfl
  · exact .inr rfl
  · exact absurd h hne
  · exact absurd h.1 hne
  · exact absurd h.1 hne
  · exact absurd h.1 hne
  · exact absurd h.1 hne
  · exact h.elim

theorem CancelFact.quiet {w w' : World T} {pc : Option (Pc T)} (h : CancelFact w pc)
    (hq : w.Quiet w') (hdesired : w'.store.desired = .stopped) : CancelFact w' pc := by
  unfold CancelFact at h ⊢
  split at h
  · trivial
  · trivial
  · exact hdesired
  · exact ⟨hdesired, fun c hc => h.2 c fun hdown => hc (hq.down c hdown)⟩
  · exact ⟨hdesired, fun c => hq.down c (h.2 c)⟩
  · exact ⟨hdesired, fun c => hq.down c (h.2 c)⟩
  · exact ⟨hdesired, fun c => hq.down c (h.2 c)⟩
  · exact h.elim

namespace Controller

variable [LinearOrder T] {s s' : Controller T} {i : ℕ} {a : Answer T}

/-- A call of a `Cancel` once the job should be stopped. -/
theorem Inv.cancelFact_call (h : s.Inv) (hnone : ∀ j, s.launching j = false)
    (hdesired : s.world.store.desired = .stopped) (hfact : CancelFact s.world (some pc))
    {w : World T} (hperform : s.world.perform a pc.call = some (w, res))
    (hquiet : s.world.Quiet w) (p : RestartPolicy) : CancelFact w (pc.resume p a res) := by
  unfold CancelFact at hfact
  split at hfact
  case h_1 heq =>
    cases heq
    trivial
  case h_2 heq =>
    cases heq
    cases hperform
    rfl
  case h_3 heq =>
    cases heq
    cases hperform
    cases hlatest : s.world.store.latestRun with
    | none =>
      exact ⟨hdesired, h.all_down hnone fun run hrun =>
        absurd (hlatest.symm.trans hrun) (some_ne_none run).symm⟩
    | some run =>
      have heq : ∀ run', s.world.store.latestRun = some run' → run' = run := fun run' hrun' =>
        (some.inj (hlatest.symm.trans hrun')).symm
      simp only [Pc.resume]
      split
      case isTrue hstopped =>
        exact ⟨hdesired, h.all_down hnone fun run' hrun' => by rw [heq run' hrun']; exact hstopped⟩
      case isFalse =>
        -- a container that runs is that of the latest run
        refine ⟨hdesired, fun c hc => ?_⟩
        rcases h.recorded c hc with ⟨row, hrow, rfl⟩ | ⟨j, hj⟩
        · rw [heq row (latestRun_eq h.world hrow hc)]
        · rw [hnone j] at hj
          exact absurd hj Bool.false_ne_true
  case h_4 heq =>
    cases heq
    cases hperform
    refine ⟨hdesired, fun c => ?_⟩
    by_cases hc : s.world.Down c
    · exact hquiet.down c hc
    · rw [hfact.2 c hc]
      exact World.down_stop s.world.backend _ a.code
  case h_5 heq =>
    cases heq
    cases hperform
    exact ⟨hdesired, fun c => hquiet.down c (hfact.2 c)⟩
  case h_6 heq =>
    cases heq
    cases hperform
    exact ⟨hdesired, fun c => hquiet.down c (hfact.2 c)⟩
  case h_7 heq => exact absurd heq (some_ne_none _)
  case h_8 => exact hfact.elim

/-- The invariant of runs in which no `Cancel` is disturbed. -/
structure CancelInv (s : Controller T) : Prop where
  inv : s.Inv
  calm : s.world.store.desired = .stopped → ∀ i pc, s.At i pc → pc.mayLaunch = false
  cancel : ∀ (i : ℕ) (e : Execution T), s.procs[i]? = some e → e.request = .cancel →
    CancelFact s.world e.pc

/-- The condition on the steps of such a run. -/
def Settled (s : Controller T) (ev : Event T) : Prop :=
  s.Orderly ev ∧ s.Undisturbed ev ∧ s.NoRestart ev

instance (s : Controller T) (ev : Event T) : Decidable (s.Settled ev) :=
  inferInstanceAs (Decidable (s.Orderly ev ∧ s.Undisturbed ev ∧ s.NoRestart ev))

/-- Once the job should be stopped nobody is launching. -/
theorem CancelInv.not_launching (h : s.CancelInv) (hdesired : s.world.store.desired = .stopped)
    (j : ℕ) : s.launching j = false := by
  rw [Bool.eq_false_iff]
  intro hlaunching
  obtain ⟨pc, hat, hpc⟩ := exists_of_launching hlaunching
  rw [(calm_of_mayLaunch (h.calm hdesired j pc hat)).1] at hpc
  exact Bool.false_ne_true hpc

/-- A call once the job should be stopped. -/
theorem CancelInv.call_stopped (h : s.CancelInv) (hdesired : s.world.store.desired = .stopped)
    (hstep : s.step p (.call i a) = some s') (hinv : s'.Inv) : s'.CancelInv ∧ s'.world.store.desired = .stopped ∧
      s.world.Quiet s'.world := by
  obtain ⟨e, pc, w, res, hi, hpc, hperform, rfl⟩ := exists_of_call hstep
  have hat : s.At i pc := ⟨e, hi, hpc⟩
  have hmay := h.calm hdesired i pc hat
  obtain ⟨hlaunching, hfence⟩ := calm_of_mayLaunch hmay
  obtain ⟨hquiet, -⟩ := calm_call p a h.inv.world.sound (h.inv.ok i pc hat) hlaunching hfence hperform
  obtain ⟨hdesired', hresume⟩ := mayLaunch_call p a hmay hdesired hperform
  refine ⟨⟨hinv, fun _ j pc₁ hat₁ => ?_, fun j e₁ he₁ hrequest => ?_⟩, hdesired', hquiet⟩
  · rcases at_set hi hat₁ with ⟨-, heq⟩ | ⟨-, hat₁⟩
    · exact hresume pc₁ heq
    · exact h.calm hdesired j pc₁ hat₁
  · rcases getElem?_set hi he₁ with ⟨-, rfl⟩ | ⟨-, he₁⟩
    · have hfact := h.cancel i e hi hrequest
      rw [hpc] at hfact
      exact h.inv.cancelFact_call (h.not_launching hdesired) hdesired hfact hperform hquiet p
    · exact (h.cancel j e₁ he₁ hrequest).quiet hquiet hdesired'

/-- A call while the job should run. -/
theorem CancelInv.call_running (h : s.CancelInv)
    (hdesired : s.world.store.desired = .running) (hundisturbed : s.Undisturbed (.call i a))
    (hstep : s.step p (.call i a) = some s') (hinv : s'.Inv) : s'.CancelInv := by
  obtain ⟨e, pc, w, res, hi, hpc, hperform, rfl⟩ := exists_of_call hstep
  have hinit : ∀ (w : World T) (j : ℕ) (e₁ : Execution T), s.procs[j]? = some e₁ →
      e₁.request = .cancel →
      CancelFact w e₁.pc := by
    intro w j e₁ he₁ hrequest
    rcases (h.cancel j e₁ he₁ hrequest).of_running hdesired with heq | heq <;> rw [heq] <;> trivial
  by_cases hset : pc = .cancelSetDesired
  · subst hset
    cases hperform
    have hothers := hundisturbed (by rw [atSetDesired, hi, any_some, hpc]; rfl)
    refine ⟨hinv, fun _ j pc₁ hat₁ => ?_, fun j e₁ he₁ hrequest => ?_⟩
    · rcases at_set hi hat₁ with ⟨-, heq⟩ | ⟨hj, hat₁⟩
      · cases heq
        rfl
      · have hlt : j < s.procs.length := by
          obtain ⟨e₁, he₁, -⟩ := hat₁
          exact (List.getElem?_eq_some_iff.mp he₁).1
        rw [← hat₁.mayLaunch]
        exact hothers j hlt hj
    · rcases getElem?_set hi he₁ with ⟨-, rfl⟩ | ⟨-, he₁⟩
      · rfl
      · exact hinit _ j e₁ he₁ hrequest
  · have hdesired' := desired_call hset hdesired hperform
    refine ⟨hinv, fun hstopped => ?_, fun j e₁ he₁ hrequest => ?_⟩
    · exact absurd (hstopped.symm.trans hdesired') DesiredState.noConfusion
    rcases getElem?_set hi he₁ with ⟨-, rfl⟩ | ⟨-, he₁⟩
    · -- a `Cancel` that has not set the desired state yet has only read the job
      rcases (h.cancel i e hi hrequest).of_running hdesired with heq | heq
      · obtain rfl := some.inj (hpc.symm.trans heq)
        trivial
      · exact absurd (some.inj (hpc.symm.trans heq)) hset
    · exact hinit _ j e₁ he₁ hrequest

/-- A change from outside once the job should be stopped. -/
theorem CancelInv.quiet {w : World T} (h : s.CancelInv) (hquiet : s.world.Quiet w)
    (hdesired : w.store.desired = s.world.store.desired) :
    (Controller.mk w s.procs).CancelInv where
  inv := h.inv.quiet hquiet
  calm hstopped i pc hat := h.calm (hdesired.symm.trans hstopped) i pc hat
  cancel i e he hrequest := by
    have hfact := h.cancel i e he hrequest
    cases hd : s.world.store.desired with
    | stopped => exact hfact.quiet hquiet (hdesired.trans hd)
    | running =>
      rcases hfact.of_running hd with heq | heq <;> rw [heq] <;> trivial

theorem CancelInv.start (h : s.CancelInv) {r : Request} (hr : s.NoRestart (.start r))
    (hinv : (Controller.mk s.world (s.procs ++ [⟨r, some r.pc⟩])).Inv) :
    (Controller.mk s.world (s.procs ++ [⟨r, some r.pc⟩])).CancelInv := by
  refine ⟨hinv, fun hstopped i pc hat => ?_, fun i e he hrequest => ?_⟩
  · obtain ⟨e, he, hpc⟩ := hat
    rcases getElem?_start he with he | rfl
    · exact h.calm hstopped i pc ⟨e, he, hpc⟩
    · cases hpc
      cases r with
      | cancel => rfl
      | restart => exact absurd (hstopped.symm.trans (hr rfl)) DesiredState.noConfusion
      | reconcile => rfl
  · rcases getElem?_start he with he | rfl
    · exact h.cancel i e he hrequest
    · obtain rfl : r = .cancel := hrequest
      trivial

/-- Once the job should be stopped it stays so, and no container is launched. -/
theorem CancelInv.step_stopped {ev : Event T} (h : s.CancelInv)
    (hdesired : s.world.store.desired = .stopped) (hsettled : s.Settled ev)
    (hstep : s.step p ev = some s') :
    s'.CancelInv ∧ s'.world.store.desired = .stopped ∧ s.world.Quiet s'.world := by
  have hinv := h.inv.step hsettled.1 hstep
  cases ev with
  | start r =>
    cases hstep
    exact ⟨h.start hsettled.2.2 hinv, hdesired, .refl h.inv.world.sound⟩
  | call i a => exact h.call_stopped hdesired hstep hinv
  | exit c code =>
    obtain ⟨-, hstep⟩ := ite_none_right_eq_some.mp hstep
    cases hstep
    have hquiet := World.quiet_stop h.inv.world.sound c code
    exact ⟨h.quiet hquiet rfl, hdesired, hquiet⟩
  | vanish c =>
    obtain ⟨hsome, hstep⟩ := ite_none_right_eq_some.mp hstep
    cases hstep
    have hquiet := World.quiet_update h.inv.world.sound (isSome_iff_ne_none.mp hsome)
      (show Container.gone ≠ .running from Container.noConfusion)
    exact ⟨h.quiet hquiet rfl, hdesired, hquiet⟩

theorem CancelInv.step {ev : Event T} (h : s.CancelInv)
    (hsettled : s.Settled ev) (hstep : s.step p ev = some s') : s'.CancelInv := by
  have hinv := h.inv.step hsettled.1 hstep
  cases hdesired : s.world.store.desired with
  | stopped => exact (h.step_stopped hdesired hsettled hstep).1
  | running =>
    cases ev with
    | start r =>
      cases hstep
      exact h.start hsettled.2.2 hinv
    | call i a => exact h.call_running hdesired hsettled.2.1 hstep hinv
    | exit c code =>
      obtain ⟨-, hstep⟩ := ite_none_right_eq_some.mp hstep
      cases hstep
      exact h.quiet (World.quiet_stop h.inv.world.sound c code) rfl
    | vanish c =>
      obtain ⟨hsome, hstep⟩ := ite_none_right_eq_some.mp hstep
      cases hstep
      exact h.quiet (World.quiet_update h.inv.world.sound (isSome_iff_ne_none.mp hsome)
        (show Container.gone ≠ .running from Container.noConfusion)) rfl

theorem cancelInv_submitted (started : T) (hostPort : ℕ) :
    (submitted started hostPort).CancelInv where
  inv := inv_submitted started hostPort
  calm hstopped := absurd hstopped DesiredState.noConfusion
  cancel i e he := absurd he (by simp [submitted])

/-- In every run in which the executions take turns in `launch` and no execution holds a job that
    should run when `Cancel` sets the desired state: after `Cancel` has returned, and as long as no
    `Restart` is issued, no container runs and none is launched. -/
theorem cancel_is_final (p : RestartPolicy) (started : T) (hostPort : ℕ) (es : List (Event T))
    (s : Controller T) (hrun : Run.exec (step p) (submitted started hostPort) es = some s)
    (hsettled : Run.Along (step p) Settled (submitted started hostPort) es) (i : ℕ)
    (hreturned : s.procs[i]? = some ⟨.cancel, none⟩) (es' : List (Event T)) (s' : Controller T)
    (hrun' : Run.exec (step p) s es' = some s') (hsettled' : Run.Along (step p) Settled s es') :
    (∀ c, s'.world.backend c ≠ some .running) ∧
      ∀ c, s.world.backend c = none → s'.world.backend c = none := by
  have hinv : s.CancelInv := Run.exec_invariant_along (fun _ _ _ h hg hs => h.step hg hs)
    (cancelInv_submitted started hostPort) hsettled hrun
  obtain ⟨hdesired, hdown⟩ : s.world.store.desired = .stopped ∧ ∀ c, s.world.Down c :=
    hinv.cancel i _ hreturned rfl
  have hfinal : s'.CancelInv ∧ s'.world.store.desired = .stopped ∧ (∀ c, s'.world.Down c) ∧
      ∀ c, s.world.backend c = none → s'.world.backend c = none := by
    apply Run.exec_invariant_along _ ⟨hinv, hdesired, hdown, fun _ => id⟩ hsettled' hrun'
    rintro s₁ ev s₂ ⟨h₁, hdesired₁, hdown₁, hnone₁⟩ hg hs
    obtain ⟨h₂, hdesired₂, hquiet⟩ := h₁.step_stopped hdesired₁ hg hs
    exact ⟨h₂, hdesired₂, fun c => hquiet.down c (hdown₁ c),
      fun c hc => (hquiet.known c).mpr (hnone₁ c hc)⟩
  exact ⟨hfinal.2.2.1, hfinal.2.2.2⟩

/-- `Cancel` alone, and a `Reconcile` after it. -/
theorem cancel_is_final_reconcile :
    ∃ s s' : Controller ℕ, Run.exec (step ⟨5, 2, 60⟩) (submitted 0 8080)
        (.start .cancel :: List.replicate 6 (.call 0 ⟨1, 1, 8080, 143, false⟩)) = some s ∧
      s.procs[0]? = some ⟨.cancel, none⟩ ∧
      Run.exec (step ⟨5, 2, 60⟩) s [.start .reconcile, .call 1 ⟨2, 2, 8080, 0, false⟩] = some s' ∧
      ∀ c, s'.world.backend c ≠ some .running := by
  have hsome : (Run.exec (step ⟨5, 2, 60⟩) (submitted 0 8080)
      (.start .cancel :: List.replicate 6 (.call 0 ⟨1, 1, 8080, 143, false⟩))).isSome := by decide
  obtain ⟨s, hs⟩ := isSome_iff_exists.mp hsome
  obtain rfl : _ = s := some.inj hs
  refine ⟨_, _, rfl, rfl, rfl, fun c => ?_⟩
  exact (cancel_is_final ⟨5, 2, 60⟩ 0 8080 _ _ hs (by decide) 0 rfl
    [.start .reconcile, .call 1 ⟨2, 2, 8080, 0, false⟩] _ rfl (by decide)).1 c

/-- The container crashes, `Reconcile` reads the job and sleeps; `Cancel` finds the run stopped and
    returns; `Reconcile` wakes up and launches. -/
theorem reconcile_launches_after_cancel :
    let es : List (Event ℕ) := [.exit 0 1, .start .reconcile] ++
      List.replicate 5 (.call 0 ⟨1, 1, 8081, 0, false⟩) ++ [.start .cancel] ++
      List.replicate 3 (.call 1 ⟨2, 2, 8082, 0, false⟩)
    let es' : List (Event ℕ) := List.replicate 3 (.call 0 ⟨3, 1, 8081, 0, false⟩)
    (Run.exec (step ⟨5, 2, 60⟩) (submitted 0 8080) es).any (fun s =>
      s.procs[1]?.any (fun e => e.request == .cancel && e.pc.isNone) &&
        s.world.backend 1 == none) = true ∧
    (Run.exec (step ⟨5, 2, 60⟩) (submitted 0 8080) (es ++ es')).any
      (fun s => s.world.backend 1 == some .running) = true := by
  decide

end Controller

end Weibo.Control
