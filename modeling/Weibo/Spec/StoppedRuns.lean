import Weibo.Spec.SingleRun

/-!
# Stopped runs

`Reconcile` reads the active runs once and works on these copies. When a container runs it may write
its copy of the run back, with a new phase or host port, and with it the `Stopped` that it read:
none. If the run was marked stopped after the status call, it is active again.

This is the only way: a container that was stopped never runs again, so a copy that is older than
the status call is not written back. A stopped run stays stopped as long as no run is marked stopped
while such a write is due.

## Key results

- `sound_call`: what every call keeps, whatever the other executions do
- `Settling.step`: no write back of a stopped run is due
- `stopped_stays_stopped`: along every run without such an overlap
- `active_again_of_overlap`: after every overlap the next call can undo the stop
-/

namespace Weibo.Control

open List Option

variable {T : Type} {s : Controller T} {p : RestartPolicy} {pc : Pc T} {run : Run T} {id : ℕ}

/-! ## Finishing and refreshing -/

/-- The run is recorded with a time at which it stopped. -/
def Store.Stopped (s : Store T) (id : ℕ) : Prop := ∃ row ∈ s.runs, row.id = id ∧ row.stopped = true

namespace Pc

/-- The run that `finishRun` marks stopped next. -/
def finishing : Pc T → Option ℕ
  | .updateRun run .. => some run.id
  | _ => none

/-- The run whose copy `Reconcile` writes back next. -/
def refreshing : Pc T → Option ℕ
  | .refresh run _ => some run.id
  | _ => none

end Pc

namespace Controller

/-- The run that an execution marks stopped next. -/
def finishing (s : Controller T) (i : ℕ) : Option ℕ :=
  (s.procs[i]?.bind Execution.pc).bind Pc.finishing

/-- Whether an execution is about to write back its copy of a run. -/
def refreshing (s : Controller T) (id : ℕ) : Bool :=
  s.procs.any fun e => e.pc.any fun pc => pc.refreshing == some id

/-- No run is marked stopped while a `Reconcile` that saw its container running has yet to write its
    copy of the run back. -/
def Exclusive (s : Controller T) : Event T → Prop
  | .call i _ => ∀ id ∈ s.finishing i, s.refreshing id = false
  | _ => True

instance (s : Controller T) : (e : Event T) → Decidable (s.Exclusive e)
  | .call i _ => inferInstanceAs (Decidable (∀ id ∈ s.finishing i, s.refreshing id = false))
  | .start _ => isTrue trivial
  | .exit .. => isTrue trivial
  | .vanish _ => isTrue trivial

theorem At.finishing {i : ℕ} (h : s.At i pc) : s.finishing i = pc.finishing := by
  obtain ⟨e, he, hpc⟩ := h
  rw [Controller.finishing, he, bind_some, hpc, bind_some]

theorem At.refreshing {i : ℕ} (h : s.At i pc) (hid : pc.refreshing = some id) : s.refreshing id = true := by
  obtain ⟨e, he, hpc⟩ := h
  rw [Controller.refreshing, List.any_eq_true]
  exact ⟨e, mem_of_getElem? he, by simp [hpc, hid]⟩

theorem exists_of_refreshing (h : s.refreshing id = true) :
    ∃ i run rest, s.At i (.refresh run rest) ∧ run.id = id := by
  obtain ⟨e, he, hany⟩ := any_eq_true.mp h
  obtain ⟨i, hi⟩ := getElem?_of_mem he
  cases hpc : e.pc with
  | none => rw [hpc] at hany; exact absurd hany Bool.false_ne_true
  | some pc =>
    rw [hpc, any_some, beq_iff_eq] at hany
    cases pc
    case refresh run rest => exact ⟨i, run, rest, ⟨e, hi, hpc⟩, some.inj hany⟩
    all_goals simp [Pc.refreshing] at hany

end Controller

/-! ## What every call keeps -/

namespace Pc

/-- What an execution relies on even if others launch at the same time. -/
def Basic (w : World T) : Pc T → Prop
  | .updateRun run .. => w.Down run.containerID
  | .launchStatus run _ | .createRun run _ =>
    run.stopped = false ∧ w.backend run.containerID ≠ none
  | _ => True

/-- The runs an execution holds are copies of active runs. -/
structure Sound (w : World T) (pc : Pc T) : Prop where
  held : ∀ run ∈ pc.held, w.Held run
  active : ∀ run ∈ pc.held, run.stopped = false
  basic : pc.Basic w

variable {w w' : World T} {pc : Pc T}

theorem Sound.keeps (h : pc.Sound w) (hw : w.Sound) (hkeeps : w.Keeps w') : pc.Sound w' := by
  have hbasic := h.basic
  refine ⟨fun run hrun => (h.held run hrun).keeps hw hkeeps, h.active, ?_⟩
  cases pc
  case updateRun run phase reason next =>
    obtain ⟨row, hrow, -, hcontainer⟩ := (h.held run mem_cons_self).row
    exact hkeeps.down _ (hcontainer ▸ hw.known row hrow) hbasic
  case launchStatus => exact ⟨hbasic.1, hkeeps.known _ hbasic.2⟩
  case createRun => exact ⟨hbasic.1, hkeeps.known _ hbasic.2⟩
  all_goals trivial

theorem Sound.ok [LT T] (h : pc.Sound w) (hcalm : pc.launching = false) : pc.Ok w := by
  have hbasic := h.basic
  refine ⟨h.held, ?_⟩
  cases pc
  case updateRun => exact hbasic
  case launch => simp [Pc.launching] at hcalm
  case launchStatus => simp [Pc.launching] at hcalm
  case createRun => simp [Pc.launching] at hcalm
  all_goals trivial

theorem Calm.sound [LT T] (h : pc.Calm w) (hactive : ∀ run ∈ pc.held, run.stopped = false) :
    pc.Sound w := by
  obtain ⟨⟨hheld, hfact⟩, hcalm⟩ := h
  refine ⟨hheld, hactive, ?_⟩
  cases pc
  case updateRun => exact hfact
  case launchStatus => simp [Pc.launching] at hcalm
  case createRun => simp [Pc.launching] at hcalm
  all_goals trivial

end Pc

/-! ## `UpdateRun` -/

theorem stopped_updateRun (s : Store T) (r : Run T) (id : ℕ) : (s.updateRun r).Stopped id ↔
      if id = r.id then (∃ row ∈ s.runs, row.id = id) ∧ r.stopped = true else s.Stopped id := by
  constructor
  · rintro ⟨row', hrow', rfl, hstopped⟩
    obtain ⟨row, hrow, rfl⟩ := mem_map.mp hrow'
    by_cases hid : row.id = r.id
    · simp only [if_pos hid] at hstopped ⊢
      exact ⟨⟨row, hrow, hid⟩, hstopped⟩
    · simp only [if_neg hid] at hstopped ⊢
      exact ⟨row, hrow, rfl, hstopped⟩
  · split
    case isTrue heq =>
      rintro ⟨⟨row, hrow, rfl⟩, hstopped⟩
      refine ⟨_, mem_map_of_mem hrow, ?_, ?_⟩ <;> rw [if_pos heq]
      · exact heq.symm
      · exact hstopped
    case isFalse hne =>
      rintro ⟨row, hrow, rfl, hstopped⟩
      refine ⟨_, mem_map_of_mem hrow, ?_, ?_⟩ <;> rw [if_neg hne]
      exact hstopped

/-! ## Where an execution goes -/

section Active

variable {rest : List (Run T)}

theorem held_nextRun (h : pc ∈ nextRun rest) : pc.held = rest := by
  cases rest with
  | nil => cases h
  | cons run rest =>
    cases h
    rfl

theorem held_maybeRestart {job : Job} (h : pc ∈ maybeRestart p job run rest) : pc.held = rest := by
  rw [maybeRestart] at h
  split at h
  · exact held_nextRun h
  · split at h
    · exact held_nextRun h
    · split at h <;> cases h <;> rfl

theorem held_next {next : Next T} (h : pc ∈ next.pc p) (hrun : run ∈ pc.held) : run ∈ next.held := by
  cases next with
  | runs rest =>
    rw [held_nextRun h] at hrun
    exact hrun
  | setDesired =>
    cases h
    exact hrun
  | maybeRestart job r rest =>
    rw [held_maybeRestart h] at hrun
    exact mem_cons_of_mem r hrun

theorem refreshing_nextRun (h : pc ∈ nextRun rest) : pc.refreshing = none := by
  cases rest with
  | nil => cases h
  | cons run rest =>
    cases h
    rfl

theorem refreshing_next {next : Next T} (h : pc ∈ next.pc p) : pc.refreshing = none := by
  cases next with
  | runs rest => exact refreshing_nextRun h
  | setDesired =>
    cases h
    rfl
  | maybeRestart job run rest =>
    rw [Next.pc, maybeRestart] at h
    split at h
    · exact refreshing_nextRun h
    · split at h
      · exact refreshing_nextRun h
      · split at h <;> cases h <;> rfl

/-- `reconcileRun` changes the phase and the host port of its copy at most. -/
theorem active_reconcileRun {job : Job} {st : Container × ℕ}
    (h : ∀ r ∈ run :: rest, r.stopped = false) (hpc : pc ∈ reconcileRun job run rest st) : ∀ r ∈ pc.held, r.stopped = false := by
  obtain ⟨hrun, hrest⟩ := forall_mem_cons.mp h
  revert hpc
  fun_cases reconcileRun job run rest st <;> intro hpc <;> try cases hpc
  case case2.refl => exact forall_mem_cons.mpr ⟨hrun, hrest⟩
  case case3 =>
    rw [held_nextRun hpc]
    exact hrest
  case case4.refl =>
    rw [handleExit]
    split
    · exact h
    · split
      · exact h
      · exact forall_mem_cons.mpr ⟨hrun, h⟩
  case case6.refl => exact forall_mem_cons.mpr ⟨hrun, h⟩
  all_goals exact h

variable [LT T] [DecidableLT T] {w w' : World T}

/-- The runs an execution reads and goes on with are active, and it does not change that in its
    copies. -/
theorem active_call (p : RestartPolicy) (a : Answer T) (h : ∀ run ∈ pc.held, run.stopped = false)
    {res : pc.call.Res} (hperform : w.perform a pc.call = some (w', res)) :
    ∀ pc' ∈ pc.resume p a res, ∀ run ∈ pc'.held, run.stopped = false := by
  intro pc' hpc'
  have hrest : ∀ {rest : List (Run T)}, (∀ run ∈ rest, run.stopped = false) →
      pc' ∈ nextRun rest → ∀ run ∈ pc'.held, run.stopped = false := by
    intro rest hrest hpc'
    rw [held_nextRun hpc']
    exact hrest
  revert hpc'
  fun_cases Pc.resume p a pc res <;> intro hpc' <;> try cases hpc'
  case case5.refl run hrun | case9.refl run hrun =>
    exact forall_mem_cons.mpr ⟨by simpa using hrun, h⟩
  case case13 => exact fun r hr => h r (mem_cons_of_mem _ (held_next hpc' hr))
  case case14 =>
    obtain ⟨-, rfl⟩ := Prod.mk.inj (some.inj hperform)
    refine hrest (fun run hrun => ?_) hpc'
    simpa using (mem_filter.mp hrun).2
  case case16 => exact active_reconcileRun h hpc'
  case case17 => exact hrest (forall_mem_cons.mp h).2 hpc'
  case case18 | case22 | case26 => exact hrest h hpc'
  all_goals exact h

end Active

/-! ## One call -/

section Call

variable [LT T] [DecidableLT T] {w w' : World T} {pc : Pc T} {res : pc.call.Res}

/-- Whatever the others do, a call leaves store and backend sound, and the execution can rely on
    what it holds. -/
theorem sound_call (p : RestartPolicy) (a : Answer T) (hw : w.Sound) (hpc : pc.Sound w)
    (h : w.perform a pc.call = some (w', res)) :
    w'.Sound ∧ w.Keeps w' ∧ ∀ pc' ∈ pc.resume p a res, pc'.Sound w' := by
  have hactive := active_call p a hpc.active h
  by_cases hcalm : pc.launching = false ∧ pc.atFence = false
  · obtain ⟨hquiet, hresume⟩ := calm_call p a hw (hpc.ok hcalm.1) hcalm.1 hcalm.2 h
    exact ⟨hw.quiet hquiet, hquiet.keeps, fun pc' hpc' =>
      (hresume pc' hpc').sound (hactive pc' hpc')⟩
  · have hsame : w.Keeps w := (World.Quiet.refl hw).keeps
    cases pc
    case fence attempt rest =>
      cases h
      refine ⟨hw, hsame, fun pc' hpc' => ?_⟩
      have hlaunch : (Pc.launch a.id attempt a.now rest).Sound w := ⟨hpc.held, hpc.active, trivial⟩
      cases hlatest : w.store.latestRun with
      | none =>
        rw [hlatest] at hpc'
        cases hpc'
        exact hlaunch
      | some run =>
        rw [hlatest] at hpc'
        simp only [Pc.resume] at hpc'
        split at hpc'
        · cases hpc'
          exact hlaunch
        · exact (calm_nextRun hpc.held pc' hpc').sound (by rw [held_nextRun hpc']; exact hpc.active)
    case launch id attempt started rest =>
      obtain ⟨b, hb, heq⟩ := map_eq_some_iff.mp h
      cases heq
      obtain ⟨hw', hkeeps, hknown⟩ := hw.launch hb
      refine ⟨hw', hkeeps, fun pc' hpc' => ?_⟩
      cases hpc'
      exact ⟨fun run hrun => (hpc.held run hrun).keeps hw hkeeps, hpc.active, rfl, hknown⟩
    case launchStatus run rest =>
      cases h
      refine ⟨hw, hsame, fun pc' hpc' => ?_⟩
      cases hpc'
      exact ⟨hpc.held, hpc.active, hpc.basic⟩
    case createRun run rest =>
      obtain ⟨store, hstore, heq⟩ := map_eq_some_iff.mp h
      cases heq
      obtain ⟨hw', hkeeps⟩ := hw.createRun hpc.basic.1 hpc.basic.2 hstore
      refine ⟨hw', hkeeps, fun pc' hpc' => ?_⟩
      cases hpc'
      exact ⟨fun r hr => (hpc.held r hr).keeps hw hkeeps, hpc.active, trivial⟩
    all_goals exact absurd ⟨rfl, rfl⟩ hcalm

/-- Only `finishRun` stops a run, and only the write back of a copy undoes it. -/
theorem stopped_call (a : Answer T) (hpc : pc.Sound w)
    (h : w.perform a pc.call = some (w', res)) (id : ℕ) :
    (w'.store.Stopped id → w.store.Stopped id ∨ pc.finishing = some id) ∧
      (w.store.Stopped id → pc.refreshing ≠ some id → w'.store.Stopped id) := by
  cases pc
  case updateRun run phase reason next =>
    cases h
    simp only [stopped_updateRun]
    split
    case isTrue heq =>
      refine ⟨fun _ => .inr (congrArg some heq.symm), ?_⟩
      rintro ⟨row, hrow, hid, -⟩ -
      exact ⟨⟨row, hrow, hid⟩, trivial⟩
    case isFalse => exact ⟨.inl, fun hstopped _ => hstopped⟩
  case refresh run rest =>
    cases h
    simp only [stopped_updateRun]
    split
    case isTrue heq =>
      refine ⟨fun hstopped => ?_, fun _ hne => absurd (congrArg some heq.symm) hne⟩
      rw [hpc.active run mem_cons_self] at hstopped
      exact absurd hstopped.2 Bool.false_ne_true
    case isFalse => exact ⟨.inl, fun hstopped _ => hstopped⟩
  case createRun run rest =>
    obtain ⟨store, hstore, heq⟩ := map_eq_some_iff.mp h
    cases heq
    obtain ⟨-, hstore⟩ := ite_none_right_eq_some.mp hstore
    cases hstore
    constructor
    · rintro ⟨row, hrow, hid, hstopped⟩
      rcases mem_append.mp hrow with hrow | hrow
      · exact .inl ⟨row, hrow, hid, hstopped⟩
      · rw [mem_singleton.mp hrow, hpc.basic.1] at hstopped
        exact absurd hstopped Bool.false_ne_true
    · rintro ⟨row, hrow, hid, hstopped⟩ -
      exact ⟨row, mem_append_left _ hrow, hid, hstopped⟩
  case launch =>
    obtain ⟨b, -, heq⟩ := map_eq_some_iff.mp h
    cases heq
    exact ⟨.inl, fun hstopped _ => hstopped⟩
  all_goals
    cases h
    exact ⟨.inl, fun hstopped _ => hstopped⟩

/-- A copy is written back right after a status call that saw the container running. -/
theorem refreshing_call (p : RestartPolicy) (a : Answer T)
    (h : w.perform a pc.call = some (w', res)) {pc' : Pc T} (hpc' : pc' ∈ pc.resume p a res)
    (hid : pc'.refreshing = some id) :
    ∃ job run rest, pc = .status job run rest ∧ run.id = id ∧ w' = w ∧
      w.backend run.containerID = some .running := by
  have hnone : pc'.refreshing ≠ none := by rw [hid]; exact some_ne_none id
  revert hpc'
  fun_cases Pc.resume p a pc res <;> intro hpc' <;> try cases hpc'
  case case13 => exact absurd (refreshing_next hpc') hnone
  case case14 | case17 | case18 | case22 | case26 =>
    exact absurd (refreshing_nextRun hpc') hnone
  case case16 job run rest st =>
    obtain ⟨rfl, hst⟩ := Prod.mk.inj (some.inj h)
    refine ⟨job, run, rest, rfl, ?_⟩
    revert hpc'
    fun_cases reconcileRun job run rest st <;> intro hpc' <;> try cases hpc'
    case case2.refl =>
      refine ⟨some.inj hid, rfl, ?_⟩
      have hstatus : w.backend.status run.containerID = .running := congrArg Prod.fst hst
      cases hc : w.backend run.containerID with
      | none => rw [Backend.status, hc] at hstatus; exact absurd hstatus Container.noConfusion
      | some state => rw [Backend.status, hc] at hstatus; exact congrArg some hstatus
    case case3 => exact absurd (refreshing_nextRun hpc') hnone
    case case4.refl =>
      refine absurd ?_ hnone
      rw [handleExit]
      split
      · rfl
      · split <;> rfl
    all_goals exact absurd rfl hnone
  all_goals exact absurd rfl hnone

end Call

/-! ## Runs -/

namespace Controller

/-- What holds in every run. -/
structure Sound (s : Controller T) : Prop where
  world : s.world.Sound
  ok : ∀ i pc, s.At i pc → pc.Sound s.world

/-- No copy of a stopped run is about to be written back. -/
structure Settling (s : Controller T) : Prop extends Sound s where
  settled : ∀ id, s.world.store.Stopped id → s.refreshing id = false

theorem refreshing_set {i : ℕ} {e : Execution T} {w : World T}
    {pc' : Option (Pc T)} (hi : s.procs[i]? = some e)
    (h : (Controller.mk w (s.procs.set i { e with pc := pc' })).refreshing id = true) :
    (∃ pc ∈ pc', pc.refreshing = some id) ∨ s.refreshing id = true := by
  obtain ⟨j, run, rest, hat, hid⟩ := exists_of_refreshing h
  rcases at_set hi hat with ⟨-, hpc⟩ | ⟨-, hat⟩
  · exact .inl ⟨_, hpc, congrArg some hid⟩
  · exact .inr (hat.refreshing (congrArg some hid))

theorem refreshing_start {w : World T} {r : Request}
    (h : (Controller.mk w (s.procs ++ [⟨r, some r.pc⟩])).refreshing id = true) :
    s.refreshing id = true := by
  obtain ⟨j, run, rest, ⟨e, he, hpc⟩, hid⟩ := exists_of_refreshing h
  rcases getElem?_start he with he | rfl
  · exact At.refreshing ⟨e, he, hpc⟩ (congrArg some hid)
  · cases r <;> simp [Request.pc] at hpc

/-- A run whose container is up has not stopped. -/
theorem Sound.not_stopped (h : s.Sound)
    (hrun : s.world.Held run) (hup : s.world.backend run.containerID = some .running) :
    ¬ s.world.store.Stopped run.id := by
  rintro ⟨row, hrow, hid, hstopped⟩
  obtain ⟨row₀, hrow₀, hid₀, hcontainer⟩ := hrun.row
  obtain rfl := h.world.eq_of_id hrow hrow₀ (hid.trans hid₀.symm)
  exact h.world.stopped row hrow hstopped (hcontainer ▸ hup)

theorem Sound.not_active (h : s.Sound) (hstopped : s.world.store.Stopped id) :
    ∀ run ∈ s.world.store.activeRuns, run.id ≠ id := by
  rintro run hrun rfl
  obtain ⟨row, hrow, hid, hstopped⟩ := hstopped
  obtain ⟨hmem, hactive⟩ := mem_filter.mp hrun
  obtain rfl := h.world.eq_of_id hrow hmem hid
  rw [hstopped] at hactive
  exact Bool.false_ne_true hactive

variable [LinearOrder T] {s s' : Controller T}

/-- Every step keeps what holds in every run. -/
theorem Sound.step {ev : Event T} (h : s.Sound) (hstep : s.step p ev = some s') : s'.Sound := by
  have hquiet : ∀ {w : World T}, s.world.Quiet w → (Controller.mk w s.procs).Sound :=
    fun hquiet => ⟨h.world.quiet hquiet, fun i pc hat => (h.ok i pc hat).keeps h.world hquiet.keeps⟩
  cases ev with
  | start r =>
    cases hstep
    refine ⟨h.world, fun i pc hat => ?_⟩
    obtain ⟨e, he, hpc⟩ := hat
    rcases getElem?_start he with he | rfl
    · exact h.ok i pc ⟨e, he, hpc⟩
    · cases hpc
      cases r <;> exact ⟨fun _ hrun => absurd hrun not_mem_nil,
        fun _ hrun => absurd hrun not_mem_nil, trivial⟩
  | call i a =>
    obtain ⟨e, pc, w, res, hi, hpc, hperform, rfl⟩ := exists_of_call hstep
    obtain ⟨hw, hkeeps, hresume⟩ := sound_call p a h.world (h.ok i pc ⟨e, hi, hpc⟩) hperform
    refine ⟨hw, fun j pc₁ hat => ?_⟩
    rcases at_set hi hat with ⟨-, hpc'⟩ | ⟨-, hat⟩
    · exact hresume pc₁ hpc'
    · exact (h.ok j pc₁ hat).keeps h.world hkeeps
  | exit c code =>
    obtain ⟨-, hstep⟩ := ite_none_right_eq_some.mp hstep
    cases hstep
    exact hquiet (World.quiet_stop h.world c code)
  | vanish c =>
    obtain ⟨hsome, hstep⟩ := ite_none_right_eq_some.mp hstep
    cases hstep
    exact hquiet (World.quiet_update h.world (isSome_iff_ne_none.mp hsome) Container.noConfusion)

/-- A step outside of any overlap leaves no write back of a stopped run due, and what was stopped
    stays stopped. -/
theorem Settling.step {ev : Event T} (h : s.Settling)
    (hexclusive : s.Exclusive ev) (hstep : s.step p ev = some s') :
    s'.Settling ∧ ∀ id, s.world.store.Stopped id → s'.world.store.Stopped id := by
  have hsound := h.toSound.step hstep
  cases ev with
  | start r =>
    cases hstep
    refine ⟨⟨hsound, fun id hstopped => ?_⟩, fun _ => id⟩
    rw [Bool.eq_false_iff]
    intro hrefreshing
    have hdue := refreshing_start hrefreshing
    rw [h.settled id hstopped] at hdue
    exact Bool.false_ne_true hdue
  | call i a =>
    obtain ⟨e, pc, w, res, hi, hpc, hperform, rfl⟩ := exists_of_call hstep
    have hat : s.At i pc := ⟨e, hi, hpc⟩
    have hok := h.ok i pc hat
    refine ⟨⟨hsound, fun id hstopped => ?_⟩, fun id hstopped => ?_⟩
    · rw [Bool.eq_false_iff]
      intro hrefreshing
      have hbefore := (stopped_call a hok hperform id).1 hstopped
      rcases refreshing_set hi hrefreshing with ⟨pc', hpc', hid⟩ | hdue
      · -- the execution itself comes from its status call, so the container is up
        obtain ⟨job, run, rest, rfl, rfl, rfl, hup⟩ := refreshing_call p a hperform hpc' hid
        exact h.not_stopped (hok.held run mem_cons_self) hup hstopped
      · -- another execution had the write due before this call
        rcases hbefore with hbefore | hfinishing
        · rw [h.settled id hbefore] at hdue
          exact Bool.false_ne_true hdue
        · rw [hexclusive id (hat.finishing.trans hfinishing)] at hdue
          exact Bool.false_ne_true hdue
    · apply (stopped_call a hok hperform id).2 hstopped
      intro hid
      have hdue := hat.refreshing hid
      rw [h.settled id hstopped] at hdue
      exact Bool.false_ne_true hdue
  | exit c code =>
    obtain ⟨-, hstep⟩ := ite_none_right_eq_some.mp hstep
    cases hstep
    exact ⟨⟨hsound, h.settled⟩, fun _ => id⟩
  | vanish c =>
    obtain ⟨-, hstep⟩ := ite_none_right_eq_some.mp hstep
    cases hstep
    exact ⟨⟨hsound, h.settled⟩, fun _ => id⟩

theorem settling_submitted (started : T) (hostPort : ℕ) :
    (submitted started hostPort).Settling where
  world := (inv_submitted started hostPort).world.sound
  ok i pc hat := by
    obtain ⟨e, he, -⟩ := hat
    simp [submitted] at he
  settled _ _ := rfl

/-- In every run in which no run is marked stopped while a `Reconcile` that saw its container
    running has yet to write its copy back: a run that has stopped stays stopped, it is never among
    the active runs again. -/
theorem stopped_stays_stopped (p : RestartPolicy) (started : T) (hostPort : ℕ) (es : List (Event T))
    (s : Controller T) (hrun : Run.exec (step p) (submitted started hostPort) es = some s)
    (hexclusive : Run.Along (step p) Exclusive (submitted started hostPort) es) (id : ℕ)
    (hstopped : s.world.store.Stopped id) (es' : List (Event T)) (s' : Controller T)
    (hrun' : Run.exec (step p) s es' = some s') (hexclusive' : Run.Along (step p) Exclusive s es') :
    s'.world.store.Stopped id ∧ ∀ run ∈ s'.world.store.activeRuns, run.id ≠ id := by
  have hsettling : s.Settling := Run.exec_invariant_along (fun _ _ _ h hg hs => (h.step hg hs).1)
    (settling_submitted started hostPort) hexclusive hrun
  obtain ⟨hsettling', hstopped'⟩ : s'.Settling ∧ s'.world.store.Stopped id := by
    apply Run.exec_invariant_along _ ⟨hsettling, hstopped⟩ hexclusive' hrun'
    rintro s₁ ev s₂ ⟨h₁, hstopped₁⟩ hg hs
    exact ⟨(h₁.step hg hs).1, (h₁.step hg hs).2 id hstopped₁⟩
  exact ⟨hstopped', hsettling'.not_active hstopped'⟩

/-- A `Reconcile` refreshes the host port, then a `Cancel` stops the run, then the next `Reconcile`
    looks for active runs. -/
theorem stopped_stays_stopped_refresh_cancel :
    ∃ s s' : Controller ℕ, Run.exec (step ⟨5, 2, 60⟩) (submitted 0 8080)
        (.start .reconcile :: List.replicate 4 (.call 0 ⟨1, 1, 8081, 0, false⟩) ++
          .start .cancel :: List.replicate 5 (.call 1 ⟨2, 2, 8081, 143, false⟩)) = some s ∧
      s.world.store.Stopped 0 ∧
      Run.exec (step ⟨5, 2, 60⟩) s [.start .reconcile, .call 2 ⟨3, 3, 8081, 0, false⟩] = some s' ∧
      s'.world.store.Stopped 0 := by
  have hmap : (Run.exec (step ⟨5, 2, 60⟩) (submitted 0 8080)
      (.start .reconcile :: replicate 4 (.call 0 ⟨1, 1, 8081, 0, false⟩) ++
        .start .cancel :: replicate 5 (.call 1 ⟨2, 2, 8081, 143, false⟩))).map
      (fun s => s.world.store.runs) = some [⟨0, 0, 8081, .cancelled, 1, 0, true⟩] := by decide
  obtain ⟨s, hs, hruns⟩ := map_eq_some_iff.mp hmap
  have hstopped : s.world.store.Stopped 0 := by
    rw [Store.Stopped, hruns]
    exact ⟨_, mem_singleton_self _, rfl, rfl⟩
  obtain rfl : _ = s := some.inj hs
  refine ⟨_, _, hs, hstopped, rfl, ?_⟩
  exact (stopped_stays_stopped ⟨5, 2, 60⟩ 0 8080 _ _ hs (by decide) 0 hstopped
    [.start .reconcile, .call 2 ⟨3, 3, 8081, 0, false⟩] _ rfl (by decide)).1

/-- `Reconcile` sees the container running under a new host port; `Cancel` stops the container and
    marks the run stopped; `Reconcile` writes its copy back. -/
theorem refresh_after_cancel :
    let es : List (Event ℕ) := .start .reconcile ::
      replicate 3 (.call 0 ⟨1, 1, 8081, 0, false⟩) ++
      .start .cancel :: replicate 5 (.call 1 ⟨2, 2, 8081, 143, false⟩)
    (Run.exec (step ⟨5, 2, 60⟩) (submitted 0 8080) es).map (fun s => s.world.store.runs) =
      some [⟨0, 0, 8080, .cancelled, 1, 0, true⟩] ∧
    (Run.exec (step ⟨5, 2, 60⟩) (submitted 0 8080) (es ++ [.call 0 ⟨3, 1, 8081, 0, false⟩])).map
      (fun s => s.world.store.activeRuns) = some [⟨0, 0, 8081, .running, 1, 0, false⟩] := by
  decide

/-- The write back of a copy makes the run active. -/
theorem Sound.refresh (h : s.Sound) {j : ℕ} {rest : List (Run T)}
    (hat : s.At j (.refresh run rest)) (p : RestartPolicy) (a : Answer T) :
    ∃ s', s.step p (.call j a) = some s' ∧ ∃ r ∈ s'.world.store.activeRuns, r.id = run.id := by
  have hok := h.ok j _ hat
  obtain ⟨row, hrow, hid, -⟩ := (hok.held run mem_cons_self).row
  have hactive := hok.active run mem_cons_self
  obtain ⟨e, hj, hpc⟩ := hat
  refine ⟨⟨{ s.world with store := s.world.store.updateRun run },
    s.procs.set j { e with pc := nextRun rest }⟩, ?_, { run with started := row.started }, ?_, rfl⟩
  · simp only [Controller.step, hj, hpc, bind_eq_bind, bind_some]
    rfl
  · refine mem_filter.mpr ⟨?_, by rw [hactive]; rfl⟩
    exact mem_map.mpr ⟨row, hrow, by rw [if_pos hid]⟩

/-- The condition is needed at every step: when a run is marked stopped while such a write is due,
    the execution that is to make it can make it next, and the run is active again. -/
theorem active_again_of_overlap {ev : Event T} (h : s.Sound)
    (hoverlap : ¬ s.Exclusive ev) (hstep : s.step p ev = some s') :
    ∃ id j, s'.world.store.Stopped id ∧ ∀ a, ∃ s'', s'.step p (.call j a) = some s'' ∧
      ∃ run ∈ s''.world.store.activeRuns, run.id = id := by
  have hsound := h.step hstep
  cases ev
  case call i a =>
    obtain ⟨e, pc, w, res, hi, hpc, hperform, rfl⟩ := exists_of_call hstep
    have hat : s.At i pc := ⟨e, hi, hpc⟩
    simp only [Exclusive, not_forall, Bool.not_eq_false, hat.finishing] at hoverlap
    obtain ⟨id, hid, hdue⟩ := hoverlap
    obtain ⟨j, run, rest, ⟨e', hj, hpc'⟩, rfl⟩ := exists_of_refreshing hdue
    obtain ⟨row, hrow, hrowid, -⟩ := ((h.ok j _ ⟨e', hj, hpc'⟩).held run mem_cons_self).row
    cases pc
    case updateRun run' phase reason next =>
      cases hperform
      have hrun' : run'.id = run.id := some.inj hid
      have hne : i ≠ j := by
        rintro rfl
        obtain rfl := some.inj (hi.symm.trans hj)
        exact absurd (hpc.symm.trans hpc') (by simp)
      refine ⟨run.id, j, ?_, hsound.refresh ⟨e', ?_, hpc'⟩ p⟩
      · rw [stopped_updateRun, if_pos hrun'.symm]
        exact ⟨⟨row, hrow, hrowid⟩, rfl⟩
      · rw [getElem?_set_ne hne]
        exact hj
    all_goals simp [Pc.finishing] at hid
  all_goals exact absurd trivial hoverlap

end Controller

end Weibo.Control
