import Mathlib.Data.List.Nodup
import Mathlib.Order.Defs.LinearOrder
import Weibo.Model.Controller

/-!
# Steps of the controller's executions

What one call of an execution does to the store and the containers, and what the execution may rely
on at its next call. A run that is marked stopped has no running container, and containers never
come back: so what an execution learnt about a run stays true while others make their calls.

## Key results

- `Pc.Ok.quiet`, `Pc.Ok.grow`: what an execution relies on survives the calls of others
- `calm_call`: what a call outside of `launch` does
-/

namespace Weibo.Control

open Function List Option

variable {T : Type} {run : Run T} {store s : Store T}

/-! ## Where executions are -/

namespace Pc

/-- Between the check of `launch` and the record of the run. -/
def launching : Pc T → Bool
  | .launch .. | .launchStatus .. | .createRun .. => true
  | _ => false

/-- At the check of `launch`. -/
def atFence : Pc T → Bool
  | .fence .. => true
  | _ => false

end Pc

/-- The runs that the code behind `finishRun` holds. -/
def Next.held : Next T → List (Run T)
  | .runs rest => rest
  | .setDesired => []
  | .maybeRestart _ run rest => run :: rest

/-- The runs an execution has read from the store. -/
def Pc.held : Pc T → List (Run T)
  | .stop run _ next | .updateRun run _ _ next | .transition run _ _ next => run :: next.held
  | .getJob run rest | .status _ run rest | .refresh run rest => run :: rest
  | .backoff _ rest | .fence _ rest | .launch _ _ _ rest | .launchStatus _ rest
  | .createRun _ rest | .launched _ rest => rest
  | _ => []

namespace Controller

def At (s : Controller T) (i : ℕ) (pc : Pc T) : Prop :=
  ∃ e, s.procs[i]? = some e ∧ e.pc = some pc

/-- Whether an execution is launching. -/
def launching (s : Controller T) (i : ℕ) : Bool :=
  s.procs[i]?.any fun e => e.pc.any Pc.launching

/-- Whether an execution is at the check of `launch`. -/
def atFence (s : Controller T) (i : ℕ) : Bool :=
  s.procs[i]?.any fun e => e.pc.any Pc.atFence

theorem At.launching {s : Controller T} {i : ℕ} {pc : Pc T} (h : s.At i pc) :
    s.launching i = pc.launching := by
  obtain ⟨e, he, hpc⟩ := h
  rw [Controller.launching, he, any_some, hpc, any_some]

theorem At.atFence {s : Controller T} {i : ℕ} {pc : Pc T} (h : s.At i pc) :
    s.atFence i = pc.atFence := by
  obtain ⟨e, he, hpc⟩ := h
  rw [Controller.atFence, he, any_some, hpc, any_some]

theorem exists_of_launching {s : Controller T} {i : ℕ} (h : s.launching i = true) :
    ∃ pc, s.At i pc ∧ pc.launching = true := by
  rw [Controller.launching] at h
  cases he : s.procs[i]? with
  | none => rw [he] at h; exact absurd h Bool.false_ne_true
  | some e =>
    rw [he, any_some] at h
    cases hpc : e.pc with
    | none => rw [hpc] at h; exact absurd h Bool.false_ne_true
    | some pc =>
      rw [hpc, any_some] at h
      exact ⟨pc, ⟨e, he, hpc⟩, h⟩

/-- Executions take turns in `launch`: none checks the latest run while another is between its check
    and its record, and a new run starts later than those that are recorded. -/
def Orderly [LT T] (s : Controller T) : Event T → Prop
  | .call i a => s.atFence i = true →
    (∀ j < s.procs.length, j ≠ i → s.launching j = false) ∧
      ∀ row ∈ s.world.store.runs, row.started < a.now
  | _ => True

instance [LT T] [DecidableLT T] (s : Controller T) : (e : Event T) → Decidable (s.Orderly e)
  | .call i a => inferInstanceAs (Decidable (s.atFence i = true →
    (∀ j < s.procs.length, j ≠ i → s.launching j = false) ∧
      ∀ row ∈ s.world.store.runs, row.started < a.now))
  | .start _ => isTrue trivial
  | .exit .. => isTrue trivial
  | .vanish _ => isTrue trivial

end Controller

/-! ## Store and backend -/

/-- What of a run never changes. -/
def Run.ident (r : Run T) : ℕ × ℕ × T := (r.id, r.containerID, r.started)

namespace World

/-- A container does not run. -/
def Down (w : World T) (c : ℕ) : Prop := w.backend c ≠ some .running

/-- A run as it was read from the store at some time. -/
structure Held (w : World T) (run : Run T) : Prop where
  row : ∃ row ∈ w.store.runs, row.id = run.id ∧ row.containerID = run.containerID
  stopped : run.stopped = true → w.Down run.containerID

/-- The invariant of store and backend. -/
structure Inv [LT T] (w : World T) : Prop where
  ids : (w.store.runs.map Run.id).Nodup
  known : ∀ row ∈ w.store.runs, w.backend row.containerID ≠ none
  stopped : ∀ row ∈ w.store.runs, row.stopped = true → w.Down row.containerID
  latest : ∀ row ∈ w.store.runs, ¬ w.Down row.containerID →
    ∀ row' ∈ w.store.runs, row'.id = row.id ∨ row'.started < row.started

/-- The part of it that no order of start times enters. -/
structure Sound (w : World T) : Prop where
  ids : (w.store.runs.map Run.id).Nodup
  known : ∀ row ∈ w.store.runs, w.backend row.containerID ≠ none
  stopped : ∀ row ∈ w.store.runs, row.stopped = true → w.Down row.containerID

/-- A change that launches no container and records no run. -/
structure Quiet (w w' : World T) : Prop where
  down : ∀ c, w.Down c → w'.Down c
  known : ∀ c, w'.backend c = none ↔ w.backend c = none
  rows : w'.store.runs.map Run.ident = w.store.runs.map Run.ident
  stopped : ∀ row ∈ w'.store.runs, row.stopped = true → w'.Down row.containerID

variable {w w' : World T}

theorem Inv.sound [LT T] (h : w.Inv) : w.Sound := ⟨h.ids, h.known, h.stopped⟩

/-- The rows after a quiet change are those before, but for their state. -/
theorem Quiet.exists_row (h : Quiet w w') {row' : Run T} (hrow : row' ∈ w'.store.runs) :
    ∃ row ∈ w.store.runs, row.ident = row'.ident := by
  have hmem : row'.ident ∈ w.store.runs.map Run.ident := by
    rw [← h.rows]
    exact mem_map_of_mem hrow
  exact mem_map.mp hmem

theorem Quiet.exists_row' (h : Quiet w w') {row : Run T} (hrow : row ∈ w.store.runs) :
    ∃ row' ∈ w'.store.runs, row'.ident = row.ident := by
  have hmem : row.ident ∈ w'.store.runs.map Run.ident := by
    rw [h.rows]
    exact mem_map_of_mem hrow
  exact mem_map.mp hmem

theorem Quiet.refl (h : w.Sound) : Quiet w w := ⟨fun _ => id, fun _ => .rfl, rfl, h.stopped⟩

theorem Held.quiet (h : w.Held run) (hq : Quiet w w') : w'.Held run where
  row := by
    obtain ⟨row, hrow, hid, hcontainer⟩ := h.row
    obtain ⟨row', hrow', heq⟩ := hq.exists_row' hrow
    refine ⟨row', hrow', ?_, ?_⟩
    · rw [← hid]
      exact congrArg (·.1) heq
    · rw [← hcontainer]
      exact congrArg (·.2.1) heq
  stopped hstopped := hq.down _ (h.stopped hstopped)

theorem Sound.quiet (h : w.Sound) (hq : Quiet w w') : w'.Sound where
  ids := by
    have hids : w'.store.runs.map Run.id = w.store.runs.map Run.id := by
      have hmap := congrArg (map Prod.fst) hq.rows
      rw [List.map_map, List.map_map] at hmap
      exact hmap
    rw [hids]
    exact h.ids
  known row' hrow' := by
    obtain ⟨row, hrow, heq⟩ := hq.exists_row hrow'
    rw [show row'.containerID = row.containerID from congrArg (·.2.1) heq.symm]
    exact mt (hq.known _).mp (h.known row hrow)
  stopped := hq.stopped

theorem Inv.quiet [LT T] (h : w.Inv) (hq : Quiet w w') : w'.Inv where
  ids := (h.sound.quiet hq).ids
  known := (h.sound.quiet hq).known
  stopped := hq.stopped
  latest a' ha' hup b' hb' := by
    obtain ⟨a, ha, heqa⟩ := hq.exists_row ha'
    obtain ⟨b, hb, heqb⟩ := hq.exists_row hb'
    have hup : ¬ w.Down a.containerID := fun hdown => by
      rw [show a'.containerID = a.containerID from congrArg (·.2.1) heqa.symm] at hup
      exact hup (hq.down _ hdown)
    rw [show a'.id = a.id from congrArg (·.1) heqa.symm,
      show b'.id = b.id from congrArg (·.1) heqb.symm,
      show a'.started = a.started from congrArg (·.2.2) heqa.symm,
      show b'.started = b.started from congrArg (·.2.2) heqb.symm]
    exact h.latest a ha hup b hb

/-- Two rows with one `ID` are the same. -/
theorem Sound.eq_of_id (h : w.Sound) {a b : Run T} (ha : a ∈ w.store.runs)
    (hb : b ∈ w.store.runs) (heq : a.id = b.id) : a = b :=
  inj_on_of_nodup_map h.ids ha hb heq

/-- `UpdateRun` with a run that was read before. -/
theorem quiet_updateRun (h : w.Sound) {r : Run T} (hr : w.Held r) :
    Quiet w { w with store := w.store.updateRun r } where
  down _ := id
  known _ := .rfl
  rows := by
    simp only [Store.updateRun, List.map_map]
    apply map_congr_left
    intro row hrow
    rw [comp_apply]
    split
    case isTrue heq =>
      obtain ⟨row₀, hrow₀, hid, hcontainer⟩ := hr.row
      obtain rfl := h.eq_of_id hrow hrow₀ (heq.trans hid.symm)
      simp only [Run.ident, hid, hcontainer]
    case isFalse => rfl
  stopped row' hrow' hstopped := by
    obtain ⟨row, hrow, rfl⟩ := mem_map.mp hrow'
    by_cases hid : row.id = r.id
    · rw [if_pos hid] at hstopped ⊢
      exact hr.stopped hstopped
    · rw [if_neg hid] at hstopped ⊢
      exact h.stopped row hrow hstopped

/-- Containers go down. -/
theorem quiet_down (h : w.Sound) {b : Backend} (hdown : ∀ c, w.Down c → b c ≠ some .running)
    (hknown : ∀ c, b c = none ↔ w.backend c = none) : Quiet w { w with backend := b } where
  down := hdown
  known := hknown
  rows := rfl
  stopped row hrow hstopped := hdown _ (h.stopped row hrow hstopped)

theorem down_stop (b : Backend) (c : ℕ) (code : ℤ) : b.stop c code c ≠ some .running := by
  rw [Backend.stop]
  split
  case isTrue => simp
  case isFalse h => exact h

/-- A container that was launched goes down. -/
theorem quiet_update (h : w.Sound) {c : ℕ} (hc : w.backend c ≠ none) {state : Container}
    (hstate : state ≠ .running) :
    Quiet w { w with backend := update w.backend c (some state) } := by
  apply quiet_down h
  · intro c' hdown
    by_cases heq : c' = c
    · subst heq
      rw [update_self]
      exact fun hsome => hstate (some.inj hsome)
    · rw [update_of_ne heq]
      exact hdown
  · intro c'
    by_cases heq : c' = c
    · subst heq
      rw [update_self]
      exact ⟨fun hnone => absurd hnone (some_ne_none _), fun hnone => absurd hnone hc⟩
    · rw [update_of_ne heq]

theorem quiet_stop (h : w.Sound) (c : ℕ) (code : ℤ) :
    Quiet w { w with backend := w.backend.stop c code } := by
  rw [Backend.stop]
  split
  case isTrue hrunning =>
    exact quiet_update h (by rw [hrunning]; exact some_ne_none _) Container.noConfusion
  case isFalse => exact Quiet.refl h

/-- A change after which the runs and containers of before are still there, and no container that
    was down is up. -/
structure Keeps (w w' : World T) : Prop where
  rows : ∀ row ∈ w.store.runs, ∃ row' ∈ w'.store.runs,
    row'.id = row.id ∧ row'.containerID = row.containerID
  known : ∀ c, w.backend c ≠ none → w'.backend c ≠ none
  down : ∀ c, w.backend c ≠ none → w.Down c → w'.Down c

theorem Quiet.keeps (h : w.Quiet w') : w.Keeps w' where
  rows row hrow := by
    obtain ⟨row', hrow', heq⟩ := h.exists_row' hrow
    exact ⟨row', hrow', congrArg (·.1) heq, congrArg (·.2.1) heq⟩
  known c := mt (h.known c).mp
  down c _ := h.down c

theorem Held.keeps (h : w.Held run) (hw : w.Sound) (hkeeps : w.Keeps w') : w'.Held run where
  row := by
    obtain ⟨row, hrow, hid, hcontainer⟩ := h.row
    obtain ⟨row', hrow', hid', hcontainer'⟩ := hkeeps.rows row hrow
    exact ⟨row', hrow', hid'.trans hid, hcontainer'.trans hcontainer⟩
  stopped hstopped := by
    obtain ⟨row, hrow, -, hcontainer⟩ := h.row
    exact hkeeps.down _ (hcontainer ▸ hw.known row hrow) (h.stopped hstopped)

/-- `Launch` of a container under a new name. -/
theorem Sound.launch (hw : w.Sound) {c : ℕ} {b : Backend} (h : w.backend.launch c = some b) :
    World.Sound ⟨w.store, b⟩ ∧ w.Keeps ⟨w.store, b⟩ ∧ b c ≠ none := by
  obtain ⟨hfresh, hb⟩ := ite_none_right_eq_some.mp h
  cases hb
  have hother : ∀ c', w.backend c' ≠ none →
      update w.backend c (some .running) c' = w.backend c' := by
    rintro c' hknown
    apply update_of_ne
    rintro rfl
    exact hknown hfresh
  have hdown : ∀ c', w.backend c' ≠ none → w.Down c' →
      World.Down ⟨w.store, update w.backend c (some .running)⟩ c' := by
    intro c' hknown hdown hup
    exact hdown ((hother c' hknown).symm.trans hup)
  have hknown : ∀ c', w.backend c' ≠ none →
      update w.backend c (some .running) c' ≠ none := by
    intro c' hknown
    rw [hother c' hknown]
    exact hknown
  refine ⟨⟨hw.ids, fun row hrow => hknown _ (hw.known row hrow), fun row hrow hstopped => ?_⟩,
    ⟨fun row hrow => ⟨row, hrow, rfl, rfl⟩, hknown, hdown⟩, by simp⟩
  exact hdown _ (hw.known row hrow) (hw.stopped row hrow hstopped)

/-- `CreateRun` of a run that has not stopped. -/
theorem Sound.createRun (hw : w.Sound) (hactive : run.stopped = false)
    (hknown : w.backend run.containerID ≠ none) (h : w.store.createRun run = some store) :
    World.Sound ⟨store, w.backend⟩ ∧ w.Keeps ⟨store, w.backend⟩ := by
  obtain ⟨hfresh, hstore⟩ := ite_none_right_eq_some.mp h
  cases hstore
  refine ⟨⟨?_, fun row hrow => ?_, fun row hrow hstopped => ?_⟩,
    fun row hrow => ⟨row, mem_append_left _ hrow, rfl, rfl⟩, fun _ => id, fun _ _ => id⟩
  · rw [map_append, map_singleton, nodup_append]
    refine ⟨hw.ids, nodup_singleton _, fun a ha b hb => ?_⟩
    obtain ⟨row, hrow, rfl⟩ := mem_map.mp ha
    rw [mem_singleton.mp hb]
    exact hfresh row hrow
  · rcases mem_append.mp hrow with hrow | hrow
    · exact hw.known row hrow
    · rw [mem_singleton.mp hrow]
      exact hknown
  · rcases mem_append.mp hrow with hrow | hrow
    · exact hw.stopped row hrow hstopped
    · rw [mem_singleton.mp hrow, hactive] at hstopped
      exact absurd hstopped Bool.false_ne_true

end World

namespace World

variable [LT T] {w : World T}

/-- `Launch` of a container that no run has. -/
theorem Inv.launch (h : w.Inv) {c : ℕ} {b : Backend} (hb : w.backend.launch c = some b) :
    (∀ c', w.backend c' ≠ none → w.Down c' → World.Down ⟨w.store, b⟩ c') ∧
      (∀ row ∈ w.store.runs, row.containerID ≠ c) ∧ b c ≠ none ∧
      ((∀ c', w.Down c') → (∀ c', ¬ World.Down ⟨w.store, b⟩ c' → c' = c) ∧
        World.Inv ⟨w.store, b⟩) := by
  obtain ⟨hsound, hkeeps, hknown⟩ := h.sound.launch hb
  obtain ⟨hfresh, hb⟩ := ite_none_right_eq_some.mp hb
  cases hb
  have hne : ∀ row ∈ w.store.runs, row.containerID ≠ c := by
    rintro row hrow rfl
    exact h.known row hrow hfresh
  refine ⟨hkeeps.down, hne, hknown, fun hdown => ⟨fun c' hc' => ?_,
    hsound.ids, hsound.known, hsound.stopped, fun row hrow hup => ?_⟩⟩
  · by_contra hne
    refine hc' fun hup => hdown c' ?_
    rw [← hup]
    exact (update_of_ne hne _ _).symm
  · exact absurd (hkeeps.down _ (h.known row hrow) (hdown _)) hup

/-- `CreateRun` of the run whose container is the only one that may run. -/
theorem Inv.createRun (h : w.Inv) (hrun : run.stopped = false)
    (hup : ∀ c, ¬ w.Down c → c = run.containerID) (hknown : w.backend run.containerID ≠ none)
    (hrows : ∀ row ∈ w.store.runs, row.started < run.started ∧ row.containerID ≠ run.containerID)
    (hstore : w.store.createRun run = some store) :
    store.runs = w.store.runs ++ [run] ∧ World.Inv ⟨store, w.backend⟩ := by
  obtain ⟨hsound, -⟩ := h.sound.createRun hrun hknown hstore
  obtain ⟨-, hstore⟩ := ite_none_right_eq_some.mp hstore
  cases hstore
  refine ⟨rfl, hsound.ids, hsound.known, hsound.stopped, fun row hrow hrowup => ?_⟩
  -- an older run has a container that is down, so the new run is the latest
  rcases mem_append.mp hrow with hrow | hrow
  · exact absurd (hup _ hrowup) (hrows row hrow).2
  · obtain rfl := mem_singleton.mp hrow
    intro row' hrow'
    rcases mem_append.mp hrow' with hrow' | hrow'
    · exact .inr (hrows row' hrow').1
    · exact .inl (congrArg Run.id (mem_singleton.mp hrow'))

end World

/-! ## The latest run -/

section Latest

theorem foldl_later_mem [LT T] [DecidableLT T] (rest : List (Run T)) (r : Run T) :
    rest.foldl Store.later r ∈ r :: rest := by
  induction rest generalizing r with
  | nil => exact mem_singleton_self r
  | cons a rest ih =>
    rw [foldl_cons]
    rcases mem_cons.mp (ih (Store.later r a)) with heq | hmem
    · rw [heq, Store.later]
      split
      · exact mem_cons_of_mem _ mem_cons_self
      · exact mem_cons_self
    · exact mem_cons_of_mem _ (mem_cons_of_mem _ hmem)

theorem latestRun_mem [LT T] [DecidableLT T] (h : s.latestRun = some run) : run ∈ s.runs := by
  rw [Store.latestRun] at h
  split at h
  · simp at h
  · rename_i r rest heq
    cases h
    rw [heq]
    exact foldl_later_mem rest r

variable [LinearOrder T] [DecidableLT T]

theorem started_le_later (a b : Run T) :
    a.started ≤ (Store.later a b).started ∧ b.started ≤ (Store.later a b).started := by
  rw [Store.later]
  split
  case isTrue hlt => exact ⟨le_of_lt hlt, le_refl _⟩
  case isFalse hlt => exact ⟨le_refl _, le_of_not_gt hlt⟩

theorem started_le_foldl (rest : List (Run T)) (r : Run T) :
    ∀ r' ∈ r :: rest, r'.started ≤ (rest.foldl Store.later r).started := by
  induction rest generalizing r with
  | nil =>
    intro r' hr'
    rw [mem_singleton.mp hr']
    exact le_refl _
  | cons a rest ih =>
    rw [foldl_cons]
    have hlater := ih (Store.later r a) _ mem_cons_self
    obtain ⟨hr, ha⟩ := started_le_later r a
    intro r' hr'
    rcases mem_cons.mp hr' with rfl | hr'
    · exact le_trans hr hlater
    · rcases mem_cons.mp hr' with rfl | hr'
      · exact le_trans ha hlater
      · exact ih _ r' (mem_cons_of_mem _ hr')

/-- No run started after the latest. -/
theorem started_le_latestRun (h : s.latestRun = some run) :
    ∀ r ∈ s.runs, r.started ≤ run.started := by
  rw [Store.latestRun] at h
  split at h
  · simp at h
  · rename_i r rest heq
    cases h
    rw [heq]
    exact started_le_foldl rest r

/-- A run that started after all others is the latest. -/
theorem latestRun_eq_of_lt (hrun : run ∈ s.runs)
    (h : ∀ r ∈ s.runs, r = run ∨ r.started < run.started) : s.latestRun = some run := by
  cases hlatest : s.latestRun with
  | none =>
    rw [Store.latestRun] at hlatest
    split at hlatest
    case h_1 hnil => rw [hnil] at hrun; cases hrun
    case h_2 => exact absurd hlatest (some_ne_none _)
  | some m =>
    rcases h m (latestRun_mem hlatest) with rfl | hlt
    · rfl
    · exact absurd hlt (not_lt_of_ge (started_le_latestRun hlatest run hrun))

end Latest

/-! ## Executions -/

namespace Pc

/-- What an execution relies on at the call it makes next. -/
def Fact [LT T] (w : World T) : Pc T → Prop
  | .updateRun run .. => w.Down run.containerID
  | .launch _ _ started _ => (∀ c, w.Down c) ∧ ∀ row ∈ w.store.runs, row.started < started
  | .launchStatus run _ | .createRun run _ =>
    run.stopped = false ∧ (∀ c, ¬ w.Down c → c = run.containerID) ∧
      w.backend run.containerID ≠ none ∧
      ∀ row ∈ w.store.runs, row.started < run.started ∧ row.containerID ≠ run.containerID
  | _ => True

/-- The runs an execution holds are from the store, and it can rely on what it does. -/
structure Ok [LT T] (w : World T) (pc : Pc T) : Prop where
  held : ∀ run ∈ pc.held, w.Held run
  fact : pc.Fact w

variable [LT T] {w w' : World T} {pc : Pc T}

theorem Fact.quiet (h : pc.Fact w) (hq : w.Quiet w') : pc.Fact w' := by
  have hlaunched : ∀ (run : Run T) (rest : List (Run T)), (Pc.createRun run rest).Fact w →
      (Pc.createRun run rest).Fact w' := by
    rintro run - ⟨hrun, hup, hknown, hrows⟩
    refine ⟨hrun, fun c hc => hup c fun hdown => hc (hq.down c hdown), mt (hq.known _).mp hknown, ?_⟩
    intro row' hrow'
    obtain ⟨row, hrow, heq⟩ := hq.exists_row hrow'
    rw [show row'.started = row.started from congrArg (·.2.2) heq.symm,
      show row'.containerID = row.containerID from congrArg (·.2.1) heq.symm]
    exact hrows row hrow
  cases pc
  case updateRun => exact hq.down _ h
  case launch =>
    refine ⟨fun c => hq.down c (h.1 c), fun row' hrow' => ?_⟩
    obtain ⟨row, hrow, heq⟩ := hq.exists_row hrow'
    rw [show row'.started = row.started from congrArg (·.2.2) heq.symm]
    exact h.2 row hrow
  case launchStatus run rest => exact hlaunched run rest h
  case createRun run rest => exact hlaunched run rest h
  all_goals trivial

theorem Ok.quiet (h : pc.Ok w) (hq : w.Quiet w') : pc.Ok w' :=
  ⟨fun run hrun => (h.held run hrun).quiet hq, h.fact.quiet hq⟩

/-- An execution that is not launching minds neither a new container nor a new run. -/
theorem Ok.grow (h : pc.Ok w) (hw : w.Sound) (hcalm : pc.launching = false)
    (hrows : ∀ row ∈ w.store.runs, row ∈ w'.store.runs)
    (hdown : ∀ c, w.backend c ≠ none → w.Down c → w'.Down c) : pc.Ok w' := by
  have hheld : ∀ run ∈ pc.held, w.Down run.containerID → w'.Down run.containerID := by
    intro run hrun
    obtain ⟨row, hrow, -, hcontainer⟩ := (h.held run hrun).row
    exact hdown _ (hcontainer ▸ hw.known row hrow)
  refine ⟨fun run hrun => ?_, ?_⟩
  · obtain ⟨row, hrow, heq⟩ := (h.held run hrun).row
    exact ⟨⟨row, hrows row hrow, heq⟩, fun hstopped =>
      hheld run hrun ((h.held run hrun).stopped hstopped)⟩
  · cases pc
    case updateRun run _ _ _ => exact hheld run mem_cons_self h.fact
    case launch => simp [Pc.launching] at hcalm
    case launchStatus => simp [Pc.launching] at hcalm
    case createRun => simp [Pc.launching] at hcalm
    all_goals trivial

/-- Where an execution may go that is not launching. -/
structure Calm (w : World T) (pc : Pc T) : Prop extends Ok w pc where
  calm : pc.launching = false

end Pc

theorem held_of_mem {w : World T} (hw : w.Sound) (h : run ∈ w.store.runs) : w.Held run :=
  ⟨⟨run, h, rfl, rfl⟩, hw.stopped run h⟩

theorem quiet_store {w : World T} (hw : w.Sound) (h : store.runs = w.store.runs) :
    w.Quiet { w with store } where
  down _ := id
  known _ := .rfl
  rows := by rw [h]
  stopped row hrow := hw.stopped row (h ▸ hrow)

theorem quiet_appendTransition {w : World T} (hw : w.Sound) (t : Transition) :
    w.Quiet { w with store := w.store.appendTransition t } := quiet_store hw rfl

section Resume

variable [LT T] {w : World T} {rest : List (Run T)}

theorem calm_nextRun (h : ∀ run ∈ rest, w.Held run) : ∀ pc ∈ nextRun rest, pc.Calm w := by
  intro pc hpc
  cases rest with
  | nil => cases hpc
  | cons run rest =>
    cases hpc
    exact ⟨⟨h, trivial⟩, rfl⟩

theorem calm_maybeRestart (p : RestartPolicy) (job : Job) (run : Run T)
    (h : ∀ run ∈ rest, w.Held run) : ∀ pc ∈ maybeRestart p job run rest, pc.Calm w := by
  intro pc hpc
  revert hpc
  fun_cases maybeRestart p job run rest <;> intro hpc <;> try cases hpc
  case case1 | case2 => exact calm_nextRun h pc hpc
  all_goals exact ⟨⟨h, trivial⟩, rfl⟩

theorem calm_next (p : RestartPolicy) {next : Next T} (h : ∀ run ∈ next.held, w.Held run) :
    ∀ pc ∈ next.pc p, pc.Calm w := by
  cases next with
  | runs rest => exact calm_nextRun h
  | setDesired =>
    intro pc hpc
    cases hpc
    exact ⟨⟨fun run hrun => absurd hrun not_mem_nil, trivial⟩, rfl⟩
  | maybeRestart job run rest =>
    exact calm_maybeRestart p job run fun r hr => h r (mem_cons_of_mem _ hr)

/-- A run whose container is down may be marked stopped. -/
theorem calm_updateRun {next : Next T} (h : ∀ r ∈ run :: next.held, w.Held r)
    (hdown : w.Down run.containerID) (phase : Phase) (reason : String) :
    (Pc.updateRun run phase reason next).Calm w := ⟨⟨h, hdown⟩, rfl⟩

theorem calm_reconcileRun {job : Job} (h : ∀ r ∈ run :: rest, w.Held r) (port : ℕ) :
    ∀ pc ∈ reconcileRun job run rest (w.backend.status run.containerID, port), pc.Calm w := by
  have hrun : ∀ r ∈ run :: run :: rest, w.Held r := forall_mem_cons.mpr ⟨h run mem_cons_self, h⟩
  intro pc hpc
  generalize hst : (w.backend.status run.containerID, port) = st at hpc
  have hdown : st.1 ≠ .running → w.Down run.containerID := by
    intro hne heq
    rw [← hst, Backend.status, heq] at hne
    exact hne rfl
  revert hpc
  fun_cases reconcileRun job run rest st <;> intro hpc <;> try cases hpc
  case case1.refl => exact ⟨⟨h, trivial⟩, rfl⟩
  case case2.refl =>
    obtain ⟨hheld, hrest⟩ := forall_mem_cons.mp h
    exact ⟨⟨forall_mem_cons.mpr ⟨⟨hheld.row, hheld.stopped⟩, hrest⟩, trivial⟩, rfl⟩
  case case3 => exact calm_nextRun (fun r hr => h r (mem_cons_of_mem _ hr)) pc hpc
  case case4.refl =>
    have hdown := hdown Container.noConfusion
    rw [handleExit]
    split
    · exact calm_updateRun h hdown _ _
    · split
      · exact calm_updateRun h hdown _ _
      · exact calm_updateRun hrun hdown _ _
  case case5.refl => exact calm_updateRun h (hdown Container.noConfusion) _ _
  case case6.refl => exact calm_updateRun hrun (hdown Container.noConfusion) _ _

variable [DecidableLT T]

/-- An execution that is neither launching nor about to check makes a quiet call and does not come
    to launch. -/
theorem calm_call (p : RestartPolicy) (a : Answer T) (hw : w.Sound) {pc : Pc T} (hok : pc.Ok w)
    (hcalm : pc.launching = false) (hfence : pc.atFence = false) {w' : World T}
    {res : pc.call.Res} (h : w.perform a pc.call = some (w', res)) :
    w.Quiet w' ∧ ∀ pc' ∈ pc.resume p a res, pc'.Calm w' := by
  have hquiet : w.Quiet w' := by
    cases pc
    case cancelSetDesired | restartSetDesired =>
      cases h
      exact quiet_store hw rfl
    case stop run reason next =>
      cases h
      exact World.quiet_stop hw run.containerID a.code
    case updateRun run phase reason next =>
      cases h
      have hrun := hok.held run mem_cons_self
      exact World.quiet_updateRun hw
        (show w.Held { run with phase, stopped := true } from ⟨hrun.row, fun _ => hok.fact⟩)
    case transition | launched =>
      cases h
      exact quiet_appendTransition hw _
    case refresh run rest =>
      cases h
      exact World.quiet_updateRun hw (hok.held run mem_cons_self)
    case launch | createRun => simp [Pc.launching] at hcalm
    all_goals
      cases h
      exact .refl hw
  refine ⟨hquiet, fun pc' hpc' => ?_⟩
  have hheld := fun r hr => (hok.held r hr).quiet hquiet
  revert hpc'
  fun_cases Pc.resume p a pc res <;> intro hpc' <;> try cases hpc'
  case case5.refl run _ | case9.refl run _ =>
    obtain ⟨rfl, hlatest⟩ := Prod.mk.inj (some.inj h)
    have hlatest := held_of_mem hw (latestRun_mem hlatest)
    exact ⟨⟨by simpa [Pc.held, Next.held] using hlatest, trivial⟩, rfl⟩
  case case11.refl run _ _ _ =>
    cases h
    exact calm_updateRun hheld (World.down_stop w.backend run.containerID a.code) _ _
  case case13 => exact calm_next p (fun r hr => hheld r (mem_cons_of_mem _ hr)) pc' hpc'
  case case14 =>
    cases h
    exact calm_nextRun (fun r hr => held_of_mem hw (mem_of_mem_filter hr)) pc' hpc'
  case case16 =>
    cases h
    exact calm_reconcileRun hok.held a.hostPort pc' hpc'
  case case17 => exact calm_nextRun (fun r hr => hheld r (mem_cons_of_mem _ hr)) pc' hpc'
  case case18 | case26 => exact calm_nextRun hheld pc' hpc'
  case case20.refl | case21.refl | case22 => simp [Pc.atFence] at hfence
  case case23.refl | case24.refl | case25.refl => simp [Pc.launching] at hcalm
  all_goals exact ⟨⟨hheld, trivial⟩, rfl⟩

end Resume

end Weibo.Control
