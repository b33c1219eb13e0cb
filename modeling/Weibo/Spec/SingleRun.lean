import Weibo.Spec.ControllerSteps

/-!
# One live container per job

`launch` first checks that the job's latest run has stopped, then starts a container, and only then
records the run. As long as the executions take turns in this, at most one container runs: a run
that is marked stopped has no running container, all runs but the latest have none, and a container
that is not recorded yet belongs to the one execution that is launching.

## Key results

- `Inv.step`: the invariant, over every step that keeps the turns
- `at_most_one_running`: no two containers run at the same time
-/

namespace Weibo.Control

open List Option

variable {T : Type} {pc' : Option (Pc T)} {p : RestartPolicy}

/-! ## The invariant -/

namespace Controller

/-- The invariant: a container that runs is that of the latest run, or of the one execution that is
    launching. -/
structure Inv [LT T] (s : Controller T) : Prop where
  world : s.world.Inv
  ok : ∀ i pc, s.At i pc → pc.Ok s.world
  one : ∀ i j, s.launching i = true → s.launching j = true → i = j
  recorded : ∀ c, ¬ s.world.Down c →
    (∃ row ∈ s.world.store.runs, row.containerID = c) ∨ ∃ i, s.launching i = true

section

variable {s : Controller T} {i j : ℕ} {e : Execution T} {w : World T} {pc' : Option (Pc T)}

/-- An execution in the list after one of them made a call. -/
theorem getElem?_set {e' : Execution T} (hi : s.procs[i]? = some e) {e₁ : Execution T}
    (h : (s.procs.set i e')[j]? = some e₁) :
    (j = i ∧ e₁ = e') ∨ (j ≠ i ∧ s.procs[j]? = some e₁) := by
  by_cases hj : j = i
  · subst hj
    obtain ⟨hlt, -⟩ := List.getElem?_eq_some_iff.mp hi
    rw [getElem?_set_self hlt] at h
    exact .inl ⟨rfl, (some.inj h).symm⟩
  · rw [getElem?_set_ne (Ne.symm hj)] at h
    exact .inr ⟨hj, h⟩

theorem at_set (hi : s.procs[i]? = some e) {pc : Pc T}
    (h : (Controller.mk w (s.procs.set i { e with pc := pc' })).At j pc) :
    (j = i ∧ pc' = some pc) ∨ (j ≠ i ∧ s.At j pc) := by
  obtain ⟨e', he', hpc⟩ := h
  rcases getElem?_set hi he' with ⟨hj, rfl⟩ | ⟨hj, he'⟩
  · exact .inl ⟨hj, hpc⟩
  · exact .inr ⟨hj, e', he', hpc⟩

theorem launching_set_self (hi : s.procs[i]? = some e) :
    (Controller.mk w (s.procs.set i { e with pc := pc' })).launching i = pc'.any Pc.launching := by
  obtain ⟨hlt, -⟩ := List.getElem?_eq_some_iff.mp hi
  rw [launching, getElem?_set_self hlt]
  rfl

theorem launching_set_ne (hj : j ≠ i) :
    (Controller.mk w (s.procs.set i { e with pc := pc' })).launching j = s.launching j := by
  rw [launching, getElem?_set_ne (Ne.symm hj)]
  rfl

theorem getElem?_start {r : Request} {e : Execution T}
    (h : (s.procs ++ [⟨r, some r.pc⟩])[j]? = some e) :
    s.procs[j]? = some e ∨ e = ⟨r, some r.pc⟩ := by
  rcases Nat.lt_or_ge j s.procs.length with hlt | hge
  · rw [getElem?_append_left hlt] at h
    exact .inl h
  · rw [getElem?_append_right hge] at h
    exact .inr (mem_singleton.mp (mem_of_getElem? h))

theorem launching_of_start {r : Request}
    (h : (Controller.mk w (s.procs ++ [⟨r, some r.pc⟩])).launching j = true) :
    s.launching j = true := by
  obtain ⟨pc, ⟨e, he, hpc⟩, hlaunching⟩ := exists_of_launching h
  rcases getElem?_start he with he | rfl
  · exact (At.launching ⟨e, he, hpc⟩).trans hlaunching
  · cases hpc
    cases r <;> exact absurd hlaunching Bool.false_ne_true

/-- An execution that launches is in the list. -/
theorem lt_of_launching (h : s.launching i = true) : i < s.procs.length := by
  obtain ⟨pc, ⟨e, he, -⟩, -⟩ := exists_of_launching h
  exact (List.getElem?_eq_some_iff.mp he).1

end

variable [LT T] {s : Controller T} {i : ℕ} {e : Execution T} {pc : Pc T} {w : World T}

/-- A step of an execution that is as much launching after it as before. -/
theorem Inv.move (h : s.Inv) (hi : s.procs[i]? = some e) (hpc : e.pc = some pc)
    (hquiet : s.world.Quiet w) (hok : ∀ pc'' ∈ pc', pc''.Ok w)
    (hlaunching : pc'.any Pc.launching = pc.launching) :
    (Controller.mk w (s.procs.set i { e with pc := pc' })).Inv := by
  have hsame : ∀ j, (Controller.mk w (s.procs.set i { e with pc := pc' })).launching j =
      s.launching j := by
    intro j
    by_cases hj : j = i
    · subst hj
      rw [launching_set_self hi, hlaunching, At.launching ⟨e, hi, hpc⟩]
    · exact launching_set_ne hj
  refine ⟨h.world.quiet hquiet, fun j pc₁ hat => ?_, fun j k hj hk => ?_, fun c hc => ?_⟩
  · rcases at_set hi hat with ⟨-, heq⟩ | ⟨-, hat⟩
    · exact hok pc₁ heq
    · exact (h.ok j pc₁ hat).quiet hquiet
  · rw [hsame] at hj hk
    exact h.one j k hj hk
  · rcases h.recorded c fun hdown => hc (hquiet.down c hdown) with ⟨row, hrow, heq⟩ | ⟨j, hj⟩
    · obtain ⟨row', hrow', hident⟩ := hquiet.exists_row' hrow
      exact .inl ⟨row', hrow', (congrArg (·.2.1) hident).trans heq⟩
    · exact .inr ⟨j, by rw [hsame]; exact hj⟩

/-- A change from outside. -/
theorem Inv.quiet (h : s.Inv) (hquiet : s.world.Quiet w) : (Controller.mk w s.procs).Inv where
  world := h.world.quiet hquiet
  ok i pc hat := (h.ok i pc hat).quiet hquiet
  one := h.one
  recorded c hc := by
    rcases h.recorded c fun hdown => hc (hquiet.down c hdown) with ⟨row, hrow, heq⟩ | hj
    · obtain ⟨row', hrow', hident⟩ := hquiet.exists_row' hrow
      exact .inl ⟨row', hrow', (congrArg (·.2.1) hident).trans heq⟩
    · exact .inr hj

theorem any_launching_of_calm (h : ∀ pc'' ∈ pc', pc''.Calm w) : pc'.any Pc.launching = false := by
  cases pc' with
  | none => rfl
  | some pc'' => exact (h pc'' rfl).calm

/-- A step of an execution during which no other is launching. -/
theorem Inv.turn (h : s.Inv) (hi : s.procs[i]? = some e)
    (hothers : ∀ j, j ≠ i → s.launching j = false) (hw : w.Inv)
    (hrows : ∀ row ∈ s.world.store.runs, row ∈ w.store.runs)
    (hdown : ∀ c, s.world.backend c ≠ none → s.world.Down c → w.Down c)
    (hok : ∀ pc'' ∈ pc', pc''.Ok w)
    (hrecorded : ∀ c, ¬ w.Down c → (∃ row ∈ w.store.runs, row.containerID = c) ∨
      pc'.any Pc.launching = true) :
    (Controller.mk w (s.procs.set i { e with pc := pc' })).Inv := by
  have hself : ∀ j, (Controller.mk w (s.procs.set i { e with pc := pc' })).launching j = true →
      j = i := by
    intro j hj
    by_contra hne
    rw [launching_set_ne hne, hothers j hne] at hj
    exact Bool.false_ne_true hj
  refine ⟨hw, fun j pc₁ hat => ?_, fun j k hj hk => (hself j hj).trans (hself k hk).symm, ?_⟩
  · rcases at_set hi hat with ⟨-, heq⟩ | ⟨hj, hat⟩
    · exact hok pc₁ heq
    · exact (h.ok j pc₁ hat).grow h.world.sound (hat.launching ▸ hothers j hj) hrows hdown
  · intro c hc
    rcases hrecorded c hc with hrow | hlaunching
    · exact .inl hrow
    · exact .inr ⟨i, (launching_set_self hi).trans hlaunching⟩

/-- While an execution is launching, the others are not. -/
theorem Inv.others (h : s.Inv) (hi : s.launching i = true) (j : ℕ) (hj : j ≠ i) :
    s.launching j = false := by
  rw [Bool.eq_false_iff]
  exact fun hlaunching => hj (h.one j i hlaunching hi)

end Controller

/-! ## Steps -/

section Steps

variable [LinearOrder T]

/-- A run whose container is up is the latest. -/
theorem latestRun_eq {w : World T} (h : w.Inv) {row : Run T} (hrow : row ∈ w.store.runs)
    (hup : ¬ w.Down row.containerID) : w.store.latestRun = some row := by
  apply latestRun_eq_of_lt hrow
  intro r' hr'
  rcases h.latest row hrow hup r' hr' with hid | hlt
  · exact .inl (h.sound.eq_of_id hr' hrow hid)
  · exact .inr hlt

namespace Controller

variable {s s' : Controller T} {i : ℕ} {a : Answer T}

/-- If nobody is launching and the latest run has stopped, no container runs. -/
theorem Inv.all_down (h : s.Inv) (hnone : ∀ j, s.launching j = false)
    (hlatest : ∀ run, s.world.store.latestRun = some run → run.stopped = true) (c : ℕ) :
    s.world.Down c := by
  by_contra hup
  rcases h.recorded c hup with ⟨row, hrow, rfl⟩ | ⟨j, hj⟩
  · exact hup (h.world.stopped row hrow (hlatest row (latestRun_eq h.world hrow hup)))
  · rw [hnone j] at hj
    exact Bool.false_ne_true hj

/-- The check of `launch`, in turn. -/
theorem Inv.fence (h : s.Inv) {e : Execution T} (hi : s.procs[i]? = some e) {attempt : ℕ}
    {rest : List (Run T)} (hpc : e.pc = some (.fence attempt rest))
    (hothers : ∀ j, j ≠ i → s.launching j = false)
    (hnow : ∀ row ∈ s.world.store.runs, row.started < a.now) (p : RestartPolicy) :
    (Controller.mk s.world (s.procs.set i { e with
      pc := (Pc.fence attempt rest).resume p a s.world.store.latestRun })).Inv := by
  have hat : s.At i (.fence attempt rest) := ⟨e, hi, hpc⟩
  have hheld := (h.ok i _ hat).held
  have hnone : ∀ j, s.launching j = false := by
    intro j
    by_cases hj : j = i
    · subst hj
      exact hat.launching
    · exact hothers j hj
  have hpass : (∀ c, s.world.Down c) → (Controller.mk s.world (s.procs.set i { e with
      pc := some (.launch a.id attempt a.now rest) })).Inv := by
    intro hdown
    apply h.turn hi hothers h.world (fun _ => id) fun _ _ => id
    · intro pc hpc
      cases hpc
      exact ⟨hheld, hdown, hnow⟩
    · exact fun c hc => absurd (hdown c) hc
  cases hlatest : s.world.store.latestRun with
  | none =>
    exact hpass (h.all_down hnone fun run hrun => absurd (hlatest.symm.trans hrun) (by simp))
  | some run =>
    show (Controller.mk s.world (s.procs.set i { e with
      pc := if run.stopped then _ else _ })).Inv
    split
    case isTrue hstopped =>
      apply hpass (h.all_down hnone _)
      intro run' hrun'
      obtain rfl := some.inj (hlatest.symm.trans hrun')
      exact hstopped
    case isFalse =>
      have hcalm := calm_nextRun hheld
      exact h.move hi hpc (.refl h.world.sound) (fun pc hpc => (hcalm pc hpc).toOk)
        (any_launching_of_calm hcalm)

/-- What a call of an execution does. -/
theorem exists_of_call (h : s.step p (.call i a) = some s') :
    ∃ e pc w, ∃ res : pc.call.Res, s.procs[i]? = some e ∧ e.pc = some pc ∧
      s.world.perform a pc.call = some (w, res) ∧
      s' = ⟨w, s.procs.set i { e with pc := pc.resume p a res }⟩ := by
  obtain ⟨e, hi, h⟩ := bind_eq_some_iff.mp h
  obtain ⟨pc, hpc, h⟩ := bind_eq_some_iff.mp h
  obtain ⟨⟨w, res⟩, hperform, h⟩ := bind_eq_some_iff.mp h
  exact ⟨e, pc, w, res, hi, hpc, hperform, (some.inj h).symm⟩

/-- A call of an execution. -/
theorem Inv.call (h : s.Inv) (horderly : s.Orderly (.call i a))
    (hstep : s.step p (.call i a) = some s') : s'.Inv := by
  obtain ⟨e, pc, w, res, hi, hpc, hperform, rfl⟩ := exists_of_call hstep
  clear hstep
  have hat : s.At i pc := ⟨e, hi, hpc⟩
  have hok := h.ok i pc hat
  by_cases hcalm : pc.launching = false ∧ pc.atFence = false
  · obtain ⟨hquiet, hresume⟩ := calm_call p a h.world.sound hok hcalm.1 hcalm.2 hperform
    exact h.move hi hpc hquiet (fun pc' hpc' => (hresume pc' hpc').toOk)
      ((any_launching_of_calm hresume).trans hcalm.1.symm)
  · have hothers := h.others (i := i)
    cases pc
    case fence attempt rest =>
      cases hperform
      obtain ⟨hturn, hnow⟩ := horderly hat.atFence
      apply h.fence hi hpc _ hnow
      intro j hj
      rw [Bool.eq_false_iff]
      intro hlaunching
      rw [hturn j (lt_of_launching hlaunching) hj] at hlaunching
      exact Bool.false_ne_true hlaunching
    case launch _ attempt started rest =>
      obtain ⟨b, hb, heq⟩ := map_eq_some_iff.mp hperform
      cases heq
      obtain ⟨hgrow, hne, hknown, hrest⟩ := h.world.launch hb
      obtain ⟨hdown, hstarted⟩ := hok.fact
      obtain ⟨hup, hw⟩ := hrest hdown
      apply h.turn hi (hothers hat.launching) hw (fun _ => id) hgrow
      · intro pc' hpc'
        cases hpc'
        refine ⟨fun run hrun => ?_, rfl, hup, hknown, fun row hrow =>
          ⟨hstarted row hrow, hne row hrow⟩⟩
        obtain ⟨row, hrow, hid, hcontainer⟩ := (hok.held run hrun).row
        exact ⟨⟨row, hrow, hid, hcontainer⟩, fun _ =>
          hgrow _ (hcontainer ▸ h.world.known row hrow) (hdown _)⟩
      · exact fun _ _ => .inr rfl
    case launchStatus run rest =>
      cases hperform
      apply h.move hi hpc (.refl h.world.sound) _ rfl
      intro pc' hpc'
      cases hpc'
      exact ⟨hok.held, hok.fact⟩
    case createRun run rest =>
      obtain ⟨store, hstore, heq⟩ := map_eq_some_iff.mp hperform
      cases heq
      obtain ⟨hrun, hup, hknown, hrows⟩ := hok.fact
      obtain ⟨hruns, hw⟩ := h.world.createRun hrun hup hknown hrows hstore
      have hmem : ∀ row ∈ s.world.store.runs, row ∈ store.runs := fun row hrow => by
        rw [hruns]
        exact mem_append_left _ hrow
      apply h.turn hi (hothers hat.launching) hw hmem fun _ _ => id
      · intro pc' hpc'
        cases hpc'
        refine ⟨fun r hr => ?_, trivial⟩
        obtain ⟨row, hrow, heq⟩ := (hok.held r hr).row
        exact ⟨⟨row, hmem row hrow, heq⟩, (hok.held r hr).stopped⟩
      · intro c hc
        refine .inl ⟨run, ?_, (hup c hc).symm⟩
        rw [hruns]
        exact mem_append_right _ (mem_singleton_self run)
    all_goals exact absurd ⟨rfl, rfl⟩ hcalm

/-- Every step in turn keeps the invariant. -/
theorem Inv.step {ev : Event T} (h : s.Inv) (horderly : s.Orderly ev)
    (hstep : s.step p ev = some s') : s'.Inv := by
  cases ev with
  | start r =>
    cases hstep
    refine ⟨h.world, fun i pc hat => ?_, fun i j hi hj => ?_, fun c hc => ?_⟩
    · obtain ⟨e, he, hpc⟩ := hat
      rcases getElem?_start he with he | rfl
      · exact h.ok i pc ⟨e, he, hpc⟩
      · cases hpc
        cases r <;> exact ⟨fun run hrun => absurd hrun not_mem_nil, trivial⟩
    · exact h.one i j (launching_of_start hi) (launching_of_start hj)
    · rcases h.recorded c hc with hrow | ⟨j, hj⟩
      · exact .inl hrow
      · refine .inr ⟨j, ?_⟩
        rw [launching, getElem?_append_left (lt_of_launching hj)]
        exact hj
  | call i a => exact h.call horderly hstep
  | exit c code =>
    obtain ⟨-, hstep⟩ := ite_none_right_eq_some.mp hstep
    cases hstep
    exact h.quiet (World.quiet_stop h.world.sound c code)
  | vanish c =>
    obtain ⟨hsome, hstep⟩ := ite_none_right_eq_some.mp hstep
    cases hstep
    exact h.quiet (World.quiet_update h.world.sound (isSome_iff_ne_none.mp hsome)
      Container.noConfusion)

theorem inv_submitted (started : T) (hostPort : ℕ) : (submitted started hostPort).Inv where
  world :=
    { ids := nodup_singleton _
      known := by
        intro row hrow
        rw [mem_singleton.mp hrow]
        exact some_ne_none _
      stopped := by
        intro row hrow hstopped
        rw [mem_singleton.mp hrow] at hstopped
        exact absurd hstopped Bool.false_ne_true
      latest := by
        intro row hrow _ row' hrow'
        rw [mem_singleton.mp hrow, mem_singleton.mp hrow']
        exact .inl rfl }
  ok i pc hat := by
    obtain ⟨e, he, -⟩ := hat
    simp [submitted] at he
  one i j hi _ := absurd hi (by simp [launching, submitted])
  recorded c hc := by
    refine .inl ⟨_, mem_singleton_self _, ?_⟩
    by_contra hne
    apply hc
    have hc0 : c ≠ 0 := Ne.symm hne
    simp only [World.Down, submitted, Function.update_of_ne hc0]
    exact (some_ne_none _).symm

/-- Under the invariant at most one container runs. -/
theorem Inv.eq_of_up (h : s.Inv) {c c' : ℕ} (hc : ¬ s.world.Down c) (hc' : ¬ s.world.Down c') :
    c = c' := by
  by_cases hlaunching : ∃ i, s.launching i = true
  · obtain ⟨i, hi⟩ := hlaunching
    obtain ⟨pc, hat, hpc⟩ := exists_of_launching hi
    have hfact := (h.ok i pc hat).fact
    cases pc
    case launch => exact absurd (hfact.1 c) hc
    case launchStatus => exact (hfact.2.1 c hc).trans (hfact.2.1 c' hc').symm
    case createRun => exact (hfact.2.1 c hc).trans (hfact.2.1 c' hc').symm
    all_goals exact absurd hpc Bool.false_ne_true
  · obtain ⟨row, hrow, rfl⟩ := (h.recorded c hc).resolve_right hlaunching
    obtain ⟨row', hrow', rfl⟩ := (h.recorded c' hc').resolve_right hlaunching
    have hlatest := latestRun_eq h.world hrow hc
    rw [latestRun_eq h.world hrow' hc'] at hlatest
    rw [some.inj hlatest]

/-- In every run in which the executions take turns in `launch`, no two containers run at the same
    time. -/
theorem at_most_one_running (p : RestartPolicy) (started : T) (hostPort : ℕ) (es : List (Event T))
    (s : Controller T) (hrun : Run.exec (step p) (submitted started hostPort) es = some s)
    (horderly : Run.Along (step p) Orderly (submitted started hostPort) es) (c c' : ℕ)
    (hc : s.world.backend c = some .running) (hc' : s.world.backend c' = some .running) :
    c = c' := by
  have hinv : s.Inv := Run.exec_invariant_along (fun _ _ _ h ho hs => h.step ho hs)
    (inv_submitted started hostPort) horderly hrun
  exact hinv.eq_of_up (fun hdown => hdown hc) fun hdown => hdown hc'

/-- One `Restart` from beginning to end. -/
theorem at_most_one_running_restart :
    ∃ s : Controller ℕ, Run.exec (step ⟨5, 2, 60⟩) (submitted 0 8080)
        (.start .restart :: List.replicate 11 (.call 0 ⟨1, 1, 8081, 143, false⟩)) = some s ∧
      s.world.backend 1 = some .running ∧ ∀ c, s.world.backend c = some .running → c = 1 := by
  have hmap : (Run.exec (step ⟨5, 2, 60⟩) (submitted 0 8080) (.start .restart ::
      replicate 11 (.call 0 ⟨1, 1, 8081, 143, false⟩))).map
      (fun s => s.world.backend 1) = some (some .running) := by decide
  obtain ⟨s, hs, hup⟩ := map_eq_some_iff.mp hmap
  exact ⟨s, hs, hup, fun c hc => at_most_one_running _ _ _ _ s hs (by decide) c 1 hc hup⟩

/-- Two `Restart` calls at once: each checks before the other has recorded its run. -/
theorem two_restarts_two_running :
    (Run.exec (step ⟨5, 2, 60⟩) (submitted 0 8080)
      ([.start .restart, .start .restart] ++
        List.replicate 6 (.call 0 ⟨1, 1, 8081, 143, false⟩) ++
        List.replicate 3 (.call 1 ⟨2, 2, 8082, 143, false⟩) ++
        [.call 0 ⟨3, 1, 8081, 143, false⟩, .call 1 ⟨4, 2, 8082, 143, false⟩,
          .call 0 ⟨5, 1, 8081, 143, false⟩, .call 1 ⟨6, 2, 8082, 143, false⟩])).any
      (fun s => s.world.backend 1 == some .running && s.world.backend 2 == some .running) =
        true := by
  decide

end Controller

end Steps

end Weibo.Control
