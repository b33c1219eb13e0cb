import Weibo.Model.ControlCalls

/-!
# Store and backend under failures

A container and its run are two records of one fact, kept in two places without a transaction. They
agree if no run that is recorded as stopped has a running container, and every running container has
a run that is not recorded as stopped.

Two failures break this. The error of `Stop` is ignored, and the run is recorded as stopped although
its container goes on. If `CreateRun` fails behind a successful `Launch`, the container runs without
a record. All other failures are harmless, in any pattern: `agrees_of_harmless`.

## Key results

- `Leads`: what one call, and then one request, preserves
- `finishRun_leads`: a run is recorded as stopped only after its container has stopped
- `serve_leads`: what a request preserves
- `agrees_of_harmless`: without the two failures store and backend agree after every
  request
-/

namespace Weibo.Control

open Function List

variable {T : Type} {run : RunRow T} {container : Option ℕ}

/-- A run recorded as stopped has no running container, and a running container has a run that is
    not recorded as stopped. -/
def Agree (s : System T) : Prop :=
  (∀ run ∈ s.tables.runs, run.stopped = true → s.runs run.containerID = false) ∧
    ∀ c, s.backend c = some .running →
      ∃ run ∈ s.tables.runs, run.containerID = some c ∧ run.stopped = false

/-- A `Stop` of a running container, or a `CreateRun` for a launched one. -/
def FailedCall.harmful : FailedCall → Bool
  | .stop _ running => running
  | .createRun container => container.isSome
  | _ => false

/-- No such call has failed. -/
def Harmless (s : System T) : Prop := ∀ f ∈ s.failed, f.harmful = false

/-! ## Backend -/

/-- Containers have stopped at most: none has started, and none is new. -/
def Fades (b b' : Backend) : Prop :=
  ∀ c, (b' c = some .running → b c = some .running) ∧ (b' c = none → b c = none)

namespace Fades

theorem refl (b : Backend) : Fades b b := fun _ => ⟨id, id⟩

theorem trans {b b' b'' : Backend} (h : Fades b b') (h' : Fades b' b'') : Fades b b'' :=
  fun c => ⟨fun hc => (h c).1 ((h' c).1 hc), fun hc => (h c).2 ((h' c).2 hc)⟩

theorem update {b : Backend} {c : ℕ} (hc : b c = some .running) (st : Container) :
    Fades b (update b c (some st)) := by
  intro c'
  rw [update_apply]
  split
  case isTrue heq =>
    subst heq
    exact ⟨fun _ => hc, fun h => absurd h (by simp)⟩
  case isFalse => exact ⟨id, id⟩

theorem stop (b : Backend) (c : ℕ) (code : ℤ) : Fades b (b.stop c code) := by
  rw [Backend.stop]
  split
  case isTrue hc => exact update hc _
  case isFalse => exact refl b

theorem die (b : Backend) (dies : List (ℕ × Container)) : Fades b (b.die dies) := by
  induction dies generalizing b with
  | nil => exact refl b
  | cons d dies ih =>
    show Fades b (Backend.die (if b d.1 = some .running ∧ d.2 ≠ .running then
      Function.update b d.1 (some d.2) else b) dies)
    split
    case isTrue hd => exact (update hd.1 d.2).trans (ih _)
    case isFalse => exact ih b

end Fades

theorem stop_ne_running (b : Backend) (c : ℕ) (code : ℤ) : b.stop c code c ≠ some .running := by
  rw [Backend.stop]
  split
  case isTrue => rw [update_self]; simp
  case isFalse hc => exact hc

theorem runs_eq_false_iff {s : System T} :
    s.runs container = false ↔ ∀ c, container = some c → s.backend c ≠ some .running := by
  cases container with
  | none => exact ⟨fun _ c hc => absurd hc (by simp), fun _ => rfl⟩
  | some c =>
    constructor
    · intro h c' hc'
      cases hc'
      exact of_decide_eq_false h
    · exact fun h => decide_eq_false (h c rfl)

theorem runs_eq_false_of_fades {s s' : System T} (h : Fades s.backend s'.backend)
    (hruns : s.runs container = false) : s'.runs container = false := by
  rw [runs_eq_false_iff] at hruns ⊢
  exact fun c hc hrunning => hruns c hc ((h c).1 hrunning)

/-! ## The invariant -/

/-- Store and backend agree, up to a container that has been launched and whose run is not recorded
    yet. What a run says to be its container has been launched. -/
structure Consistent (pending : Option ℕ) (s : System T) : Prop where
  launched : ∀ run ∈ s.tables.runs, ∀ c, run.containerID = some c → s.backend c ≠ none
  stopped : ∀ run ∈ s.tables.runs, run.stopped = true → s.runs run.containerID = false
  running : ∀ c, s.backend c = some .running → pending ≠ some c →
    ∃ run ∈ s.tables.runs, run.containerID = some c ∧ run.stopped = false
  present : ∀ c, pending = some c → s.backend c ≠ none

namespace Consistent

variable {pending : Option ℕ} {s s' : System T}

theorem agree (h : Consistent none s) : Agree s :=
  ⟨h.stopped, fun c hc => h.running c hc (by simp)⟩

theorem start : Consistent none (System.start : System T) where
  launched run hrun := absurd hrun not_mem_nil
  stopped run hrun := absurd hrun not_mem_nil
  running c hc := absurd hc (by simp [System.start])
  present c hc := absurd hc (by simp)

/-- Containers that stop do no harm. -/
theorem fades (h : Consistent pending s) (hruns : s'.tables.runs = s.tables.runs)
    (hb : Fades s.backend s'.backend) : Consistent pending s' where
  launched run hrun c hc := fun hnone => h.launched run (hruns ▸ hrun) c hc ((hb c).2 hnone)
  stopped run hrun hstopped := runs_eq_false_of_fades hb (h.stopped run (hruns ▸ hrun) hstopped)
  running c hc := by
    rw [hruns]
    exact h.running c ((hb c).1 hc)
  present c hc := fun hnone => h.present c hc ((hb c).2 hnone)

/-- A row is overwritten. If it is recorded as stopped then, its container has stopped. -/
theorem updateRun (h : Consistent pending s) {old new : RunRow T} (hold : old ∈ s.tables.runs)
    (hid : new.id = old.id) (hcontainer : new.containerID = old.containerID)
    (hstopped : new.stopped = true → s.runs old.containerID = false) :
    Consistent pending { s with tables := s.tables.updateRun new } := by
  have hmem : ∀ run ∈ (s.tables.updateRun new).runs, run ∈ s.tables.runs ∨
      run.containerID = old.containerID ∧ run.stopped = new.stopped := by
    intro run hrun
    obtain ⟨row, hmem, rfl⟩ := mem_map.mp hrun
    split
    · exact .inr ⟨hcontainer, rfl⟩
    · exact .inl hmem
  refine ⟨?_, ?_, ?_, h.present⟩
  · intro run hrun c hc
    cases hmem run hrun with
    | inl hrow => exact h.launched run hrow c hc
    | inr hnew => exact h.launched old hold c (hnew.1 ▸ hc)
  · intro run hrun hstop
    cases hmem run hrun with
    | inl hrow => exact h.stopped run hrow hstop
    | inr hnew =>
      show s.runs run.containerID = false
      rw [hnew.1]
      exact hstopped (hnew.2 ▸ hstop)
  · intro c hc hpending
    obtain ⟨run, hrun, hrunc, hactive⟩ := h.running c hc hpending
    by_cases heq : run.id = new.id
    · -- the row of a running container is overwritten by one that is active
      have hrow : run = old := inj_on_of_nodup_map s.tables.runIDs hrun hold (heq.trans hid)
      refine ⟨{ new with jobID := run.jobID, started := run.started },
        mem_map.mpr ⟨run, hrun, if_pos heq⟩, ?_, ?_⟩
      · rw [← hrunc, hrow]
        exact hcontainer
      · cases hnew : new.stopped with
        | false => rfl
        | true =>
          have hnot := runs_eq_false_iff.mp (hstopped hnew) c (hrow ▸ hrunc)
          exact absurd hc hnot
    · exact ⟨run, mem_map.mpr ⟨run, hrun, if_neg heq⟩, hrunc, hactive⟩

/-- A row is added: of the pending container if there is one, and otherwise of none. -/
theorem createRun (h : Consistent pending s) {tables : Tables T}
    (hcreate : s.tables.createRun run = some tables) (hcontainer : run.containerID = pending)
    (hactive : run.stopped = !pending.isSome) : Consistent none { s with tables } := by
  rw [Tables.createRun] at hcreate
  split at hcreate
  case isFalse => simp at hcreate
  case isTrue =>
    cases hcreate
    refine ⟨?_, ?_, ?_, fun c hc => absurd hc (by simp)⟩
    · intro row hrow c hc
      cases mem_append.mp hrow with
      | inl hrow => exact h.launched row hrow c hc
      | inr hrow =>
        rw [mem_singleton.mp hrow, hcontainer] at hc
        exact h.present c hc
    · intro row hrow hstopped
      cases mem_append.mp hrow with
      | inl hrow => exact h.stopped row hrow hstopped
      | inr hrow =>
        rw [mem_singleton.mp hrow] at hstopped ⊢
        rw [hactive] at hstopped
        rw [hcontainer]
        cases pending with
        | none => rfl
        | some c => simp at hstopped
    · intro c hc _
      -- the pending container now has its run
      by_cases hpending : pending = some c
      · refine ⟨run, mem_append_right _ (mem_singleton_self run), ?_, ?_⟩
        · exact hcontainer.trans hpending
        · rw [hactive, hpending]
          rfl
      · obtain ⟨row, hrow, hrest⟩ := h.running c hc hpending
        exact ⟨row, mem_append_left _ hrow, hrest⟩

/-- A container is launched. -/
theorem launch (h : Consistent none s) {c : ℕ} {backend : Backend}
    (hlaunch : s.backend.launch c = some backend) : Consistent (some c) { s with backend } := by
  rw [Backend.launch] at hlaunch
  split at hlaunch
  case isFalse => simp at hlaunch
  case isTrue hfresh =>
    cases hlaunch
    -- no run has the new container
    have hne : ∀ run ∈ s.tables.runs, ∀ c', run.containerID = some c' → c' ≠ c := by
      intro run hrun c' hc' heq
      exact h.launched run hrun c' hc' (heq ▸ hfresh)
    refine ⟨?_, ?_, ?_, ?_⟩
    · intro run hrun c' hc'
      show update s.backend c _ c' ≠ none
      rw [update_of_ne (hne run hrun c' hc')]
      exact h.launched run hrun c' hc'
    · intro run hrun hstopped
      rw [runs_eq_false_iff]
      intro c' hc'
      show update s.backend c _ c' ≠ _
      rw [update_of_ne (hne run hrun c' hc')]
      exact runs_eq_false_iff.mp (h.stopped run hrun hstopped) c' hc'
    · intro c' hc' hother
      have hold : update s.backend c (some .running) c' = some .running := hc'
      rw [update_of_ne fun heq => hother (congrArg some heq.symm)] at hold
      exact h.running c' hold (by simp)
    · intro c' hc'
      cases hc'
      show update s.backend c _ c ≠ none
      rw [update_self]
      simp

end Consistent

/-! ## Calls -/

/-- What a call or a request does: failures are only added, and without a harmful one the invariant
    is kept. -/
structure Leads (s s' : System T) : Prop where
  failed : s.failed <+: s'.failed
  consistent : Consistent none s → Harmless s' → Consistent none s'

namespace Leads

variable {s s' s'' : System T}

theorem refl (s : System T) : Leads s s := ⟨prefix_rfl, fun h _ => h⟩

theorem harmless (h : Leads s s') (hs : Harmless s') : Harmless s :=
  fun f hf => hs f (h.failed.subset hf)

theorem trans (h : Leads s s') (h' : Leads s' s'') : Leads s s'' where
  failed := h.failed.trans h'.failed
  consistent hs hharmless := h'.consistent (h.consistent hs (h'.harmless hharmless)) hharmless

/-- Only containers stop. -/
theorem of_fades (hfailed : s.failed <+: s'.failed) (hruns : s'.tables.runs = s.tables.runs)
    (hb : Fades s.backend s'.backend) : Leads s s' :=
  ⟨hfailed, fun h _ => h.fades hruns hb⟩

end Leads

section Calls

variable (env : ℕ → Outcome T) (s : System T)

theorem fades_next : Fades s.backend (s.next env).backend := .die _ _

theorem leads_next : Leads s (s.next env) := .of_fades prefix_rfl rfl (fades_next env s)

theorem leads_transition (jobID : ℕ) (runID : Option ℕ) (fromPhase : Option Phase) (toPhase : Phase)
    (reason : String) : Leads s (s.transition jobID runID fromPhase toPhase reason) :=
  .of_fades prefix_rfl rfl (.refl _)

theorem leads_logFailed (f : FailedCall) : Leads s (s.logFailed f) :=
  .of_fades (prefix_append _ _) rfl (.refl _)

/-- `Stop` leaves the tables alone and stops the container, unless a failure is logged that says
    that it goes on. -/
theorem stopContainer_spec (container : Option ℕ) : Leads s (s.stopContainer env container) ∧
      (s.stopContainer env container).tables = s.tables ∧
      (Harmless (s.stopContainer env container) →
        (s.stopContainer env container).runs container = false) := by
  unfold System.stopContainer
  dsimp only
  split
  case isTrue =>
    -- the log says whether the container was running
    refine ⟨(leads_next env s).trans (leads_logFailed _ _), rfl, fun hharmless => ?_⟩
    exact hharmless _ (mem_append_right _ (mem_singleton_self _))
  case isFalse =>
    cases container with
    | none => exact ⟨leads_next env s, rfl, fun _ => rfl⟩
    | some c =>
      have hstop : Fades (s.next env).backend _ := .stop _ c (env s.calls).code
      refine ⟨(leads_next env s).trans (.of_fades prefix_rfl rfl hstop), rfl, fun _ => ?_⟩
      exact decide_eq_false (stop_ne_running _ _ _)

theorem containerStatus_spec (container : Option ℕ) : Leads s (s.containerStatus env container).1 ∧
      (s.containerStatus env container).1.tables = s.tables ∧
      Fades s.backend (s.containerStatus env container).1.backend := by
  unfold System.containerStatus
  dsimp only
  split
  · exact ⟨(leads_next env s).trans (leads_logFailed _ _), rfl, fades_next env s⟩
  · cases container with
    | none => exact ⟨leads_next env s, rfl, fades_next env s⟩
    | some c => exact ⟨leads_next env s, rfl, fades_next env s⟩

/-- A container that is reported to have exited or gone is not running. -/
theorem runs_of_status {st : Container} {port : ℕ}
    (h : (s.containerStatus env container).2 = some (st, port)) (hst : st ≠ .running) :
    (s.containerStatus env container).1.runs container = false := by
  unfold System.containerStatus at h ⊢
  dsimp only at h ⊢
  split
  case isTrue hfails => exact absurd h (by rw [if_pos hfails]; simp)
  case isFalse hfails =>
    rw [if_neg hfails] at h
    cases container with
    | none => rfl
    | some c =>
      obtain ⟨hstatus, -⟩ := Prod.mk.inj (Option.some.inj h)
      refine decide_eq_false fun hrunning => hst ?_
      rw [← hstatus, Backend.status, hrunning]
      rfl

/-- An overwritten row leaves the others alone. -/
theorem mem_rewriteRun {row : RunRow T} (hrow : row ∈ s.tables.runs) (hid : row.id ≠ run.id) :
    row ∈ (s.rewriteRun env run).tables.runs := by
  unfold System.rewriteRun
  dsimp only
  split
  · exact hrow
  · exact mem_map.mpr ⟨row, hrow, if_neg hid⟩

theorem rewriteRun_leads {old new : RunRow T} (hold : old ∈ s.tables.runs) (hid : new.id = old.id)
    (hcontainer : new.containerID = old.containerID)
    (hstopped : Consistent none s → Harmless s → new.stopped = true →
      s.runs old.containerID = false) :
    Leads s (s.rewriteRun env new) := by
  unfold System.rewriteRun
  dsimp only
  split
  · exact (leads_next env s).trans (leads_logFailed _ _)
  · refine ⟨prefix_rfl, fun h hharmless => ?_⟩
    have hnext := (leads_next env s).consistent h hharmless
    exact hnext.updateRun hold hid hcontainer fun hnew =>
      runs_eq_false_of_fades (fades_next env s) (hstopped h hharmless hnew)

/-- A run is recorded as stopped after its container has stopped. -/
theorem finishRun_leads (hrun : run ∈ s.tables.runs)
    (hstopped : Harmless s → s.runs run.containerID = false) (fromPhase toPhase : Phase)
    (reason : String) : Leads s (s.finishRun env run fromPhase toPhase reason) := by
  have hrewrite : Leads s (s.rewriteRun env { run with phase := toPhase, stopped := true }) :=
    rewriteRun_leads env s hrun rfl rfl fun _ hharmless _ => hstopped hharmless
  exact hrewrite.trans (leads_transition _ _ _ _ _ _)

/-- A row is recorded, or a failure is logged that says that it is not. -/
theorem recordRun_spec (run : RunRow T) : ((s.recordRun env run).2 = none ∧
        ∃ tables, (s.next env).tables.createRun run = some tables ∧
          (s.recordRun env run).1 = { s.next env with tables }) ∨
      (s.recordRun env run).2.isSome ∧
        (s.recordRun env run).1 = (s.next env).logFailed (.createRun run.containerID) := by
  unfold System.recordRun
  dsimp only
  split
  case h_1 tables htables =>
    refine .inl ⟨rfl, tables, ?_, rfl⟩
    split at htables
    · simp at htables
    · exact htables
  case h_2 => exact .inr ⟨rfl, rfl⟩

theorem prefix_recordRun (run : RunRow T) : s.failed <+: (s.recordRun env run).1.failed := by
  rcases recordRun_spec env s run with ⟨-, tables, -, heq⟩ | ⟨-, heq⟩ <;> rw [heq]
  · exact prefix_rfl
  · exact prefix_append _ _

theorem mem_recordRun {row : RunRow T} (run : RunRow T) (hrow : row ∈ s.tables.runs) :
    row ∈ (s.recordRun env run).1.tables.runs := by
  rcases recordRun_spec env s run with ⟨-, tables, hcreate, heq⟩ | ⟨-, heq⟩ <;> rw [heq]
  · rw [Tables.createRun] at hcreate
    split at hcreate
    · cases hcreate
      exact mem_append_left _ hrow
    · simp at hcreate
  · exact hrow

/-- The row of a pending container, or of a failed launch. -/
theorem recordRun_consistent {pending : Option ℕ}
    (hcontainer : run.containerID = pending) (hactive : run.stopped = !pending.isSome)
    (h : Consistent pending s) (hharmless : Harmless (s.recordRun env run).1) :
    Consistent none (s.recordRun env run).1 := by
  have hnext : Consistent pending (s.next env) := h.fades rfl (fades_next env s)
  rcases recordRun_spec env s run with ⟨-, tables, hcreate, heq⟩ | ⟨-, heq⟩
  · rw [heq]
    exact hnext.createRun hcreate hcontainer hactive
  · rw [heq] at hharmless ⊢
    -- the failure does no harm only if there was no container
    have hnone := hharmless _ (mem_append_right _ (mem_singleton_self _))
    rw [FailedCall.harmful, hcontainer, Option.isSome_eq_false_iff, Option.isNone_iff_eq_none] at hnone
    subst hnone
    exact hnext.fades rfl (.refl _)

end Calls

/-! ## Requests -/

/-- What is done about one run: the other rows are left alone. -/
structure Handles (id : ℕ) (s s' : System T) : Prop extends Leads s s' where
  others : ∀ row ∈ s.tables.runs, row.id ≠ id → row ∈ s'.tables.runs

namespace Handles

variable {id : ℕ} {s s' s'' : System T}

theorem refl (s : System T) : Handles id s s := ⟨.refl s, fun _ hrow _ => hrow⟩

theorem trans (h : Handles id s s') (h' : Handles id s' s'') : Handles id s s'' :=
  ⟨h.toLeads.trans h'.toLeads, fun row hrow hid => h'.others row (h.others row hrow hid) hid⟩

theorem transition (h : Handles id s s') (jobID : ℕ) (runID : Option ℕ) (fromPhase : Option Phase)
    (toPhase : Phase) (reason : String) :
    Handles id s (s'.transition jobID runID fromPhase toPhase reason) :=
  ⟨h.toLeads.trans (leads_transition _ _ _ _ _ _), h.others⟩

end Handles

section Requests

variable (env : ℕ → Outcome T) (s : System T)

theorem finishRun_handles (hrun : run ∈ s.tables.runs)
    (hstopped : Harmless s → s.runs run.containerID = false) (fromPhase toPhase : Phase)
    (reason : String) : Handles run.id s (s.finishRun env run fromPhase toPhase reason) :=
  ⟨finishRun_leads env s hrun hstopped _ _ _, fun _ hrow hid => mem_rewriteRun env s hrow hid⟩

/-- A container is stopped and its run recorded as stopped. -/
theorem stop_finishRun_handles (hrun : run ∈ s.tables.runs) (reason : String) : Handles run.id s
      ((s.stopContainer env run.containerID).finishRun env run .running .cancelled reason) := by
  obtain ⟨hleads, htables, hstopped⟩ := stopContainer_spec env s run.containerID
  have hstop : Handles run.id s (s.stopContainer env run.containerID) :=
    ⟨hleads, fun row hrow _ => htables ▸ hrow⟩
  exact hstop.trans (finishRun_handles env _ (htables ▸ hrun) hstopped _ _ _)

/-- The rows that `launchRun` finds stay. If `CreateRun` fails behind a `Launch`, a harmful failure
    is logged. -/
theorem launchRun_handles (handled jobID attempt id : ℕ) (now : T) :
    Handles handled s (s.launchRun env jobID attempt id now).1 := by
  unfold System.launchRun
  dsimp only
  split
  case h_1 =>
    -- nothing was started; the row has no container, so its `CreateRun` may fail as well
    have hfailed : Leads s ((s.next env).logFailed .launch) :=
      (leads_next env s).trans (leads_logFailed _ _)
    refine ⟨(hfailed.trans ⟨prefix_recordRun env _ _, fun h hharmless => ?_⟩).trans
      (leads_transition _ _ _ _ _ _), fun row hrow _ => mem_recordRun env _ _ hrow⟩
    exact recordRun_consistent env _ rfl rfl h hharmless
  case h_2 backend hlaunch =>
    have hlaunch : (s.next env).backend.launch (env s.calls).id = some backend := by
      split at hlaunch
      · simp at hlaunch
      · exact hlaunch
    set s₁ : System T := { s.next env with backend } with hs₁
    obtain ⟨hstatus, htables, hfades⟩ := containerStatus_spec env s₁ (some (env s.calls).id)
    set s₂ := (s₁.containerStatus env (some (env s.calls).id)).1 with hs₂
    -- the container is pending until its row is there
    have hrecord : ∀ run : RunRow T, run.containerID = some (env s.calls).id →
        run.stopped = false → Handles handled s (s₂.recordRun env run).1 := by
      intro run hcontainer hactive
      refine ⟨⟨hstatus.failed.trans (prefix_recordRun env s₂ run), fun h hharmless => ?_⟩,
        fun row hrow _ => mem_recordRun env s₂ run (htables ▸ hrow)⟩
      have hnext : Consistent none (s.next env) := h.fades rfl (fades_next env s)
      have hpending : Consistent (some (env s.calls).id) s₂ :=
        (hnext.launch hlaunch).fades (congrArg Tables.runs htables) hfades
      exact recordRun_consistent env s₂ hcontainer hactive hpending hharmless
    split
    case h_1 s₃ err heq =>
      obtain rfl : _ = s₃ := congrArg Prod.fst heq
      exact hrecord _ rfl rfl
    case h_2 s₃ heq =>
      obtain rfl : _ = s₃ := congrArg Prod.fst heq
      exact Handles.transition (hrecord _ rfl rfl) _ _ _ _ _

theorem leads_setDesired (jobID : ℕ) (d : DesiredState) :
    Leads s { s with tables := s.tables.setDesired jobID d } :=
  .of_fades prefix_rfl rfl (.refl _)

variable [LT T] [DecidableLT T]

theorem launch_handles (handled jobID attempt : ℕ) :
    Handles handled s (s.launch env jobID attempt).1 := by
  have hnext : Handles handled s (s.next env) := ⟨leads_next env s, fun row hrow _ => hrow⟩
  unfold System.launch
  dsimp only
  split
  · split
    · exact hnext.trans (launchRun_handles env _ _ _ _ _ _)
    · exact hnext
  · exact hnext.trans (launchRun_handles env _ _ _ _ _ _)

theorem launch_leads (jobID attempt : ℕ) : Leads s (s.launch env jobID attempt).1 :=
  (launch_handles env s 0 jobID attempt).toLeads

theorem mem_of_latestRun {t : Tables T} {jobID : ℕ} (h : t.latestRun jobID = some run) : run ∈ t.runs := by
  have hfold : ∀ (l : List (RunRow T)) (a : RunRow T), l.foldl Tables.later a ∈ a :: l := by
    intro l
    induction l with
    | nil => exact fun a => mem_singleton_self a
    | cons b l ih =>
      intro a
      rw [foldl_cons, Tables.later]
      split
      · exact mem_cons_of_mem a (ih b)
      · cases mem_cons.mp (ih a) with
        | inl heq => rw [heq]; exact mem_cons_self
        | inr hmem => exact mem_cons_of_mem a (mem_cons_of_mem b hmem)
  rw [Tables.latestRun] at h
  split at h
  · simp at h
  · rename_i run' rest hfilter
    have hmem := hfold rest run'
    rw [Option.some.inj h, ← hfilter] at hmem
    exact (mem_filter.mp hmem).1

theorem submit_leads (kind : JobKind) : Leads s (s.submit env kind).1 := by
  unfold System.submit
  dsimp only
  split
  case h_1 => exact leads_next env s
  case h_2 tables hcreate =>
    have hjob : Leads (s.next env) { s.next env with tables } := by
      rw [Tables.createJob] at hcreate
      split at hcreate
      · cases hcreate
        exact .of_fades prefix_rfl rfl (.refl _)
      · simp at hcreate
    exact (((leads_next env s).trans hjob).trans (leads_transition _ _ _ _ _ _)).trans
      (launch_leads env _ _ _)

theorem cancel_leads (jobID : ℕ) : Leads s (s.cancel env jobID).1 := by
  unfold System.cancel
  split
  case h_1 => exact .refl s
  case h_2 =>
    dsimp only
    have hdesired := leads_setDesired s jobID .stopped
    set s' : System T := { s with tables := s.tables.setDesired jobID .stopped } with hs'
    split
    case h_1 => exact hdesired
    case h_2 run hrun =>
      split
      · exact hdesired
      · exact hdesired.trans
          (stop_finishRun_handles env s' (mem_of_latestRun hrun) "user cancel").toLeads

theorem doRestart_leads (jobID : ℕ) : Leads s (s.doRestart env jobID).1 := by
  unfold System.doRestart
  split
  case h_1 => exact .refl s
  case h_2 =>
    dsimp only
    refine Leads.trans ?_ ((leads_setDesired _ jobID .running).trans (launch_leads env _ _ _))
    split
    case h_1 => exact .refl s
    case h_2 run hrun =>
      split
      · exact .refl s
      · exact (stop_finishRun_handles env s (mem_of_latestRun hrun) "restart").toLeads

/-! ## Reconcile -/

variable (p : RestartPolicy)

theorem maybeRestart_handles (id : ℕ) (job : JobRow) (run : RunRow T) :
    Handles id s (s.maybeRestart env p job run) := by
  unfold System.maybeRestart
  split_ifs
  · exact .refl s
  · exact .refl s
  · exact .refl s
  · exact launch_handles env s _ _ _

/-- `finishRun`, for a container that has been reported not to run, and then `maybeRestart`. -/
theorem finishRun_maybeRestart_handles (hrun : run ∈ s.tables.runs)
    (hstopped : s.runs run.containerID = false) (job : JobRow) (toPhase : Phase) (reason : String) :
    Handles run.id s ((s.finishRun env run .running toPhase reason).maybeRestart env p job run) :=
  (finishRun_handles env s hrun (fun _ => hstopped) _ _ _).trans
    (maybeRestart_handles env _ p _ _ _)

theorem handleExit_handles (hrun : run ∈ s.tables.runs)
    (hstopped : s.runs run.containerID = false) (job : JobRow) (code : ℤ) :
    Handles run.id s (s.handleExit env p job run code) := by
  unfold System.handleExit
  split_ifs
  · exact finishRun_handles env s hrun (fun _ => hstopped) _ _ _
  · exact finishRun_handles env s hrun (fun _ => hstopped) _ _ _
  · exact finishRun_maybeRestart_handles env s p hrun hstopped _ _ _

/-- One case for each phase that `Status` reports. -/
theorem reconcileRun_handles (hrun : run ∈ s.tables.runs) (job : JobRow)
    {st : Container} (port : ℕ) (hst : st ≠ .running → s.runs run.containerID = false) :
    Handles run.id s (s.reconcileRun env p job run (st, port)) := by
  cases st with
  | running =>
    rw [System.reconcileRun]
    by_cases hdesired : job.desired = .stopped
    · rw [if_pos hdesired]
      exact stop_finishRun_handles env s hrun _
    · rw [if_neg hdesired]
      split
      · -- phase and port are written, whether the run has stopped stays
        exact ⟨rewriteRun_leads env s hrun rfl rfl fun h _ hstopped => h.stopped run hrun hstopped,
          fun row hrow hid => mem_rewriteRun env s hrow hid⟩
      · exact .refl s
  | exited code => exact handleExit_handles env s p hrun (hst (by simp)) job code
  | gone =>
    rw [System.reconcileRun]
    split
    · exact finishRun_handles env s hrun (fun _ => hst (by simp)) _ _ _
    · exact finishRun_maybeRestart_handles env s p hrun (hst (by simp)) _ _ _

theorem reconcileStep_handles (hrun : run ∈ s.tables.runs) :
    Handles run.id s (s.reconcileStep env p run) := by
  obtain ⟨hstatus, htables, -⟩ := containerStatus_spec env s run.containerID
  have hhandles : Handles run.id s (s.containerStatus env run.containerID).1 :=
    ⟨hstatus, fun row hrow _ => htables ▸ hrow⟩
  unfold System.reconcileStep
  split
  case h_1 => exact .refl s
  case h_2 job _ =>
    split
    case h_1 s' heq =>
      obtain rfl : _ = s' := congrArg Prod.fst heq
      exact hhandles
    case h_2 s' st heq =>
      obtain rfl : _ = s' := congrArg Prod.fst heq
      -- the row is as it was read, since `Status` leaves the store alone
      refine hhandles.trans (reconcileRun_handles env _ p (htables ▸ hrun) job st.2 fun hne => ?_)
      exact runs_of_status env s (congrArg Prod.snd heq) hne

/-- The loop of `Reconcile`. The runs still to come have other ids, and their rows are as they were
    read. -/
theorem reconcile_leads : Leads s (s.reconcile env p) := by
  have hloop : ∀ (active : List (RunRow T)) (s : System T), (active.map RunRow.id).Nodup →
      (∀ run ∈ active, run ∈ s.tables.runs) →
      Leads s (active.foldl (System.reconcileStep env p) s) := by
    intro active
    induction active with
    | nil => exact fun s _ _ => .refl s
    | cons run active ih =>
      intro s hids hrows
      rw [map_cons, nodup_cons] at hids
      have hstep := reconcileStep_handles env s p (hrows run mem_cons_self)
      refine hstep.toLeads.trans (ih _ hids.2 fun row hrow => ?_)
      refine hstep.others row (hrows row (mem_cons_of_mem run hrow)) fun heq => hids.1 ?_
      exact heq ▸ mem_map_of_mem hrow
  refine hloop _ s (s.tables.runIDs.sublist ?_) fun run hrun => (mem_filter.mp hrun).1
  exact filter_sublist.map RunRow.id

/-! ## Runs -/

theorem serve_leads (req : JobRequest) : Leads s (s.serve env p req) := by
  cases req with
  | submit kind => exact submit_leads env s kind
  | cancel jobID => exact cancel_leads env s jobID
  | restart jobID => exact doRestart_leads env s jobID
  | reconcile => exact reconcile_leads env s p

theorem serves_leads (reqs : List JobRequest) : Leads s (reqs.foldl (System.serve env p) s) := by
  induction reqs generalizing s with
  | nil => exact .refl s
  | cons req reqs ih => exact (serve_leads env s p req).trans (ih _)

end Requests

/-- Requests of any kind are served one after the other while calls fail in any pattern, but no
    `Stop` of a running container and no `CreateRun` for a launched one. Then store and backend
    agree. -/
theorem agrees_of_harmless [LT T] [DecidableLT T] (env : ℕ → Outcome T) (p : RestartPolicy)
    (reqs : List JobRequest) (hharmless : Harmless (reqs.foldl (System.serve env p) System.start)) :
    Agree (reqs.foldl (System.serve env p) System.start) :=
  ((serves_leads env System.start p reqs).consistent .start hharmless).agree

/-- Only the `n`-th call fails. -/
def failingCall (n : ℕ) : ℕ → Outcome ℕ := fun i => ⟨i, i, 8080, 0, false, i == n, "timeout", []⟩

/-- Serve the requests with the default policy while the `n`-th call fails. -/
def serveFailing (n : ℕ) (reqs : List JobRequest) : System ℕ :=
  reqs.foldl (System.serve (failingCall n) .defaultRestartPolicy) System.start

/-- A job is submitted and cancelled, and its `UpdateRun` fails. -/
theorem agrees_of_harmless_updateRun :
    (serveFailing 6 [.submit .yaml, .cancel 0]).failed.length = 1 ∧
      Agree (serveFailing 6 [.submit .yaml, .cancel 0]) := by
  refine ⟨by decide, agrees_of_harmless (failingCall 6) .defaultRestartPolicy _ ?_⟩
  show ∀ f ∈ (serveFailing 6 [.submit .yaml, .cancel 0]).failed, f.harmful = false
  decide

/-- Job 0 is submitted as run 1 in container 2 and cancelled, and its `Stop` fails: the run is
    stopped and the container runs. A `Restart` then starts a second one. If `CreateRun` fails in
    `Submit`, the container has no run. -/
theorem failed_stop_disagrees :
    ¬ Agree (serveFailing 5 [.submit .yaml, .cancel 0]) ∧
      (serveFailing 5 [.submit .yaml, .cancel 0, .restart 0]).backend 2 = some .running ∧
      (serveFailing 5 [.submit .yaml, .cancel 0, .restart 0]).backend 8 = some .running ∧
      ¬ Agree (serveFailing 4 [.submit .yaml]) := by
  refine ⟨fun h => ?_, by decide, by decide, fun h => ?_⟩
  · have hruns : ∀ run ∈ (serveFailing 5 [.submit .yaml, .cancel 0]).tables.runs, run.stopped = true →
        (serveFailing 5 [.submit .yaml, .cancel 0]).runs run.containerID = false := h.1
    exact absurd hruns (by decide)
  · obtain ⟨run, hrun, -⟩ := h.2 2 (by decide)
    have hempty : (serveFailing 4 [.submit .yaml]).tables.runs = [] := rfl
    rw [hempty] at hrun
    cases hrun

end Weibo.Control
