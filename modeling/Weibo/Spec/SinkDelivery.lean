import Weibo.Model.SinkStage
import Mathlib.Algebra.Order.Group.Multiset
import Mathlib.Tactic.Abel

/-!
# What a batching sink has written when a checkpoint is saved

`SinkStage` saves a checkpoint once the channel to the sink is empty. That says that the sink took
every record ahead of the barrier, not that it wrote them: a record may be on its way into the
batch, in a batch that is not full, in a flush that is still running or in one that failed. No other
record is missing, so the checkpoint is right exactly if there is none of these
(`allHanded_iff_settled`).

Both directions come from one fact about every step, that entries are moved and never lost or made:
what the stage sent is what the channel, the loop, the flushes and the destination hold together
(`Inv.conserved`).

The end of the stream is treated correctly: if the stage returns without an
error and was not cancelled, everything is written (`flushed_of_clean_return`).
-/

namespace Weibo

open List Option WriterPc
open Multiset (coe_add coe_eq_coe coe_nil)

variable {T : Type} {input rest : List Record} {cancelled closed : Bool} {w w' : Writer T}

/-- The loop is about to return an error, or has. -/
def WriterPc.Errs : WriterPc T → Prop
  | .waiting (.failed _) _ => True
  | .waiting _ err => err.isSome
  | .returned err => err.isSome
  | _ => False

/-- The loop has seen the end of its input, and has met no error if it returned. -/
def WriterPc.AtEnd : WriterPc T → Prop
  | .lastFlush ending _ => ending = .closed
  | .waiting ending _ => ending = .closed
  | .returned err => err = none
  | _ => False

namespace Writer

variable (b : BatchWriter T) {inFlush : List T → WriterPc T} {next : WriterPc T}

/-- What a step of the loop can do. -/
inductive Move (cancelled closed : Bool) (input : List Record) (w : Writer T) :
    Writer T → List Record → Prop
  | fail {err : String} (hpc : w.pc = .select) (herr : w.errCh = some err) :
      Move cancelled closed input w
        { w with pc := .waiting (.failed err) none, errCh := none } input
  | drain (hpc : w.pc = .select) (hc : cancelled = true) :
      Move cancelled closed input w { w with pc := .draining } input
  | take {r : Record} {rest : List Record} (hpc : w.pc = .select) (hin : input = r :: rest) :
      Move cancelled closed input w { w with pc := .adding r } rest
  | drainTake {r : Record} {rest : List Record} (hpc : w.pc = .draining)
      (hin : input = r :: rest) :
      Move cancelled closed input w { w with pc := .drainAdding r } rest
  | close (hpc : w.pc = .select) (hin : input = []) (hc : closed = true) :
      Move cancelled closed input w
        (w.doFlush b (.waiting .closed none) (.lastFlush .closed)) input
  | drained (hpc : w.pc = .draining) :
      Move cancelled closed input w
        (w.doFlush b (.waiting .cancelled none) (.lastFlush .cancelled)) input
  | tick (hpc : w.pc = .select) :
      Move cancelled closed input w (w.doFlush b .select .flushing) input
  | fill {r : Record} (hpc : w.pc = .adding r) :
      Move cancelled closed input w ((w.add b r).doFlush b .select .flushing) input
  | add {r : Record} (hpc : w.pc = .adding r) :
      Move cancelled closed input w { w.add b r with pc := .select } input
  | drainAdd {r : Record} (hpc : w.pc = .drainAdding r) :
      Move cancelled closed input w { w.add b r with pc := .draining } input
  | flushed {items : List T} (err : Option String) (hpc : w.pc = .flushing items) :
      Move cancelled closed input w
        { w.settle items err with pc := if err.isSome then .returned err else .select } input
  | lastFlushed {ending : Ending} {items : List T} (err : Option String)
      (hpc : w.pc = .lastFlush ending items) :
      Move cancelled closed input w { w.settle items err with pc := .waiting ending err } input
  | asyncFlushed {i : Nat} {items : List T} (err : Option String)
      (hi : w.running[i]? = some items) :
      Move cancelled closed input w
        { w.settle items err with running := w.running.eraseIdx i, errCh := w.errCh.or err } input
  | wait {ending : Ending} {err : Option String} (hpc : w.pc = .waiting ending err)
      (hrun : w.running = []) :
      Move cancelled closed input w { w with pc := .returned (w.result err ending) } input

theorem move_of_step {e : WriterEvent} (h : w.step b cancelled closed input e = some (w', rest)) :
    Move b cancelled closed input w w' rest := by
  revert h
  -- a case for each branch of the step; `cases` closes those that are not enabled
  fun_cases step b cancelled closed input w e <;> intro h <;> cases h
  case case1.refl herr hpc => exact .fail hpc herr
  case case3.refl hpc => exact .drain hpc rfl
  case case5.refl hpc => exact .take hpc rfl
  case case6.refl hpc => exact .drainTake hpc rfl
  case case8.refl hpc => exact .close hpc rfl rfl
  case case9.refl hpc => exact .drained hpc
  case case11.refl hpc _ => exact .tick hpc
  case case14.refl hpc _ _ => exact .fill hpc
  case case15.refl hpc _ _ => exact .add hpc
  case case16.refl hpc => exact .drainAdd hpc
  case case18.refl err _ hpc => exact .flushed err hpc
  case case19.refl err _ _ hpc => exact .lastFlushed err hpc
  case case21.refl err _ hi => exact .asyncFlushed err hi
  case case23.refl hpc => exact .drained hpc
  case case25.refl hpc hrun => exact .wait hpc (isEmpty_iff.mp hrun)

/-- The entries outside the loop's hands. -/
def stored (w : Writer T) : Multiset T :=
  ↑w.flushed + ↑w.failed + ↑w.running.flatten + ↑w.batch

/-- All entries made from the records taken so far. -/
def entries (w : Writer T) : Multiset T := w.stored + ↑(w.pc.held b)

theorem stored_add (w : Writer T) (r : Record) :
    (w.add b r).stored = w.stored + ↑(b.convert r).toList := by
  simp only [stored, add, ← coe_add]
  abel

theorem stored_settle (w : Writer T) (items : List T) (err : Option String) :
    (w.settle items err).stored = w.stored + ↑items := by
  cases err with
  | none =>
    simp only [stored, settle, ← coe_add]
    abel
  | some e =>
    simp only [stored, settle, ← coe_add]
    abel

/-- Starting a flush only moves the batch. -/
theorem entries_doFlush (w : Writer T)
    (hnext : next.held b = []) (hflush : ∀ items, (inFlush items).held b = items) :
    (w.doFlush b next inFlush).entries b = w.stored := by
  unfold doFlush
  split
  · show w.stored + ↑(next.held b) = w.stored
    rw [hnext, coe_nil, add_zero]
  · split
    · simp only [entries, stored, hnext, flatten_append, flatten_singleton,
        ← coe_add, coe_nil]
      abel
    · simp only [entries, stored, hflush, coe_nil]
      abel

/-- The batches of the other goroutines and the one that returned. -/
theorem flatten_eraseIdx {running : List (List T)} {i : Nat} {items : List T}
    (hi : running[i]? = some items) :
    (↑(running.eraseIdx i).flatten + ↑items : Multiset T) = ↑running.flatten := by
  obtain ⟨hlt, hitems⟩ := List.getElem?_eq_some_iff.mp hi
  have hperm := (getElem_cons_eraseIdx_perm hlt).flatten
  rw [hitems, flatten_cons] at hperm
  rw [← coe_eq_coe.mpr hperm, ← coe_add]
  abel

/-- A step of the sink neither loses nor makes entries. -/
theorem Move.entries_eq (h : Move b cancelled closed input w w' rest) :
    w'.entries b + ↑(rest.filterMap b.convert) =
      w.entries b + ↑(input.filterMap b.convert) := by
  -- a received record leaves the channel and is held by the loop
  have hreceive : ∀ (r : Record) (rs : List Record),
      (↑((r :: rs).filterMap b.convert) : Multiset T) =
        ↑(b.convert r).toList + ↑(rs.filterMap b.convert) := by
    intro r rs
    rw [coe_add]
    cases hr : b.convert r with
    | none => rw [filterMap_cons_none hr]; rfl
    | some t => rw [filterMap_cons_some hr]; rfl
  cases h with
  | fail hpc _ | drain hpc _ => simp only [entries, hpc]; rfl
  | take hpc hin | drainTake hpc hin =>
    simp only [entries, hpc, hin, hreceive, held, coe_nil]
    show w.stored + _ + _ = _
    abel
  | close hpc _ _ | drained hpc | tick hpc =>
    rw [entries_doFlush b w rfl fun _ => rfl]
    simp [entries, hpc, held]
  | fill hpc =>
    rw [entries_doFlush b _ rfl fun _ => rfl, stored_add]
    simp only [entries, hpc, held]
  | add hpc | drainAdd hpc =>
    show (w.add b _).stored + 0 + _ = _
    rw [stored_add]
    simp [entries, hpc, held]
  | flushed err hpc =>
    have hheld : held b (if err.isSome then .returned err else .select) = [] := by
      cases err <;> rfl
    show (w.settle _ err).stored + ↑(held b _) + _ = _
    rw [stored_settle, hheld]
    simp [entries, hpc, held]
  | lastFlushed err hpc =>
    show (w.settle _ err).stored + 0 + _ = _
    rw [stored_settle]
    simp [entries, hpc, held]
  | @asyncFlushed i items err hi =>
    cases err with
    | none | some e =>
      simp only [entries, stored, settle, ← flatten_eraseIdx hi, ← coe_add]
      abel
  | wait hpc _ => simp only [entries, hpc]; rfl

/-- An empty channel stays empty: only the stage sends. -/
theorem Move.rest_nil (h : Move b cancelled closed input w w' rest) (hin : input = []) : rest = [] := by
  cases h with
  | take _ hcons | drainTake _ hcons =>
    rw [hin] at hcons
    simp at hcons
  | _ => exact hin

/-- A loop that has returned stays so; only its flushes may go on. -/
theorem Move.returned (h : Move b cancelled closed input w w' rest) {err : Option String}
    (hret : w.pc = .returned err) : w'.pc = .returned err := by
  cases h with
  | asyncFlushed err _ => cases err <;> exact hret
  | fail hpc _ | drain hpc _ | take hpc _ | drainTake hpc _ | close hpc _ _ | drained hpc
  | tick hpc | fill hpc | add hpc | drainAdd hpc | flushed _ hpc | lastFlushed _ hpc
  | wait hpc _ => exact absurd (hpc.symm.trans hret) (by simp)

theorem doFlush_pc (w : Writer T) (next : WriterPc T) (inFlush : List T → WriterPc T) :
    (w.doFlush b next inFlush).pc = next ∨ (w.doFlush b next inFlush).pc = inFlush w.batch := by
  unfold doFlush
  split
  · exact .inl rfl
  · split
    · exact .inl rfl
    · exact .inr rfl

@[simp] theorem doFlush_batch (w : Writer T) (next : WriterPc T) (inFlush : List T → WriterPc T) : (w.doFlush b next inFlush).batch = [] := by
  unfold doFlush
  split
  case isTrue h => exact isEmpty_iff.mp h
  case isFalse => split <;> rfl

@[simp] theorem doFlush_errCh (w : Writer T) (next : WriterPc T) (inFlush : List T → WriterPc T) : (w.doFlush b next inFlush).errCh = w.errCh := by
  unfold doFlush
  split
  · rfl
  · split <;> rfl

@[simp] theorem doFlush_failed (w : Writer T) (next : WriterPc T) (inFlush : List T → WriterPc T) : (w.doFlush b next inFlush).failed = w.failed := by
  unfold doFlush
  split
  · rfl
  · split <;> rfl

theorem doFlush_running (w : Writer T) (h : ∀ items ∈ w.running, items ≠ []) :
    ∀ items ∈ (w.doFlush b next inFlush).running, items ≠ [] := by
  unfold doFlush
  split
  · exact h
  case isFalse hne =>
    split
    · intro items hitems
      cases mem_append.mp hitems with
      | inl hmem => exact h items hmem
      | inr hmem =>
        rw [mem_singleton.mp hmem]
        exact fun heq => hne (isEmpty_iff.mpr heq)
    · exact h

theorem settle_batch (w : Writer T) (items : List T) (err : Option String) :
    (w.settle items err).batch = w.batch := by
  cases err <;> rfl

theorem settle_pc (w : Writer T) (items : List T) (err : Option String) :
    (w.settle items err).pc = w.pc := by
  cases err <;> rfl

/-- What holds of the loop in every state: a flush has something to write, a failure is reported,
    and the end of the input is noticed only when there is nothing left. -/
structure Ok (closed : Bool) (input : List Record) (w : Writer T) : Prop where
  running_ne : ∀ items ∈ w.running, items ≠ []
  reported : w.failed ≠ [] → w.errCh.isSome ∨ w.pc.Errs
  ended : w.pc.AtEnd → closed = true ∧ input = [] ∧ w.batch = []
  returned : w.pc = .returned none → w.running = [] ∧ w.errCh = none

/-- A flush started at a point without an error, going on at one before the end. -/
theorem Ok.doFlush (hrun : ∀ items ∈ w.running, items ≠ []) (hrep : w.failed ≠ [] → w.errCh.isSome)
    (hend : next.AtEnd ∨ (inFlush w.batch).AtEnd → closed = true ∧ input = [])
    (hret : next ≠ .returned none ∧ inFlush w.batch ≠ .returned none) :
    Ok closed input (w.doFlush b next inFlush) where
  running_ne := doFlush_running b w hrun
  reported := by
    rw [doFlush_failed, doFlush_errCh]
    exact fun h => .inl (hrep h)
  ended := by
    intro h
    rw [doFlush_batch]
    cases doFlush_pc b w next inFlush with
    | inl hpc =>
      obtain ⟨hc, hin⟩ := hend (.inl (hpc ▸ h))
      exact ⟨hc, hin, rfl⟩
    | inr hpc =>
      obtain ⟨hc, hin⟩ := hend (.inr (hpc ▸ h))
      exact ⟨hc, hin, rfl⟩
  returned := by
    intro h
    cases doFlush_pc b w next inFlush with
    | inl hpc => exact absurd (hpc.symm.trans h) hret.1
    | inr hpc => exact absurd (hpc.symm.trans h) hret.2

theorem Move.ok (h : Move b cancelled closed input w w' rest) (hw : w.Ok closed input) :
    w'.Ok closed rest := by
  obtain ⟨hrun, hrep, hend, hret⟩ := hw
  -- away from the end, a failure is still in the channel
  have hch : ¬ w.pc.Errs → w.failed ≠ [] → w.errCh.isSome := by
    intro hno hf
    cases hrep hf with
    | inl h => exact h
    | inr h => exact absurd h hno
  cases h with
  | fail hpc herr =>
    exact ⟨hrun, fun _ => .inr trivial, fun h => absurd h (by simp [AtEnd]), by simp⟩
  | drain hpc _ =>
    rw [hpc] at hch
    exact ⟨hrun, fun hf => .inl (hch id hf), False.elim, by simp⟩
  | take hpc _ | drainTake hpc _ =>
    rw [hpc] at hch
    exact ⟨hrun, fun hf => .inl (hch id hf), False.elim, by simp⟩
  | close hpc hin hc =>
    rw [hpc] at hch
    exact .doFlush b hrun (hch id) (fun _ => ⟨hc, hin⟩) (by simp)
  | drained hpc =>
    rw [hpc] at hch
    exact .doFlush b hrun (hch id) (by simp [AtEnd]) (by simp)
  | tick hpc =>
    rw [hpc] at hch
    exact .doFlush b hrun (hch id) (by simp [AtEnd]) (by simp)
  | fill hpc =>
    rw [hpc] at hch
    exact .doFlush b hrun (hch id) (by simp [AtEnd]) (by simp)
  | add hpc | drainAdd hpc =>
    rw [hpc] at hch
    exact ⟨hrun, fun hf => .inl (hch id hf), False.elim, by simp⟩
  | flushed err hpc =>
    rw [hpc] at hch
    cases err with
    | none => exact ⟨hrun, fun hf => .inl (hch id hf), False.elim, by simp⟩
    | some e => exact ⟨hrun, fun _ => .inr rfl, fun h => absurd h (by simp [AtEnd]), by simp⟩
  | @lastFlushed ending items err hpc =>
    rw [hpc] at hch hend
    cases err with
    | none => exact ⟨hrun, fun hf => .inl (hch id hf), hend, by simp⟩
    | some e =>
      have herrs : Errs (T := T) (.waiting ending (some e)) := by
        cases ending with
        | failed _ => trivial
        | closed | cancelled => rfl
      exact ⟨hrun, fun _ => .inr herrs, hend, by simp⟩
  | @asyncFlushed i items err hi =>
    have hne : w.pc ≠ .returned none := by
      intro h
      rw [(hret h).1] at hi
      simp at hi
    refine ⟨?_, ?_, ?_, ?_⟩
    · exact fun items hmem => hrun items (mem_of_mem_eraseIdx hmem)
    · show (w.settle items err).failed ≠ [] → (w.errCh.or err).isSome ∨ (w.settle items err).pc.Errs
      rw [settle_pc]
      cases err with
      | none =>
        rw [or_none]
        exact hrep
      | some e =>
        intro _
        left
        cases w.errCh <;> rfl
    · show (w.settle items err).pc.AtEnd → closed = true ∧ input = [] ∧ (w.settle items err).batch = []
      rw [settle_pc, settle_batch]
      exact hend
    · show (w.settle items err).pc = _ → _
      rw [settle_pc]
      exact fun h => absurd h hne
  | @wait ending err hpc hr =>
    rw [hpc] at hend hrep
    cases ending with
    | failed e => exact ⟨hrun, fun _ => .inr rfl, fun h => absurd h (by simp [AtEnd, result]), by simp [result]⟩
    | closed =>
      refine ⟨hrun, ?_, fun _ => hend rfl, ?_⟩
      · intro hf
        right
        show (err.or w.errCh).isSome
        rw [isSome_or, Bool.or_eq_true_iff]
        exact (hrep hf).symm
      · intro hnone
        have hor : err.or w.errCh = none := returned.inj hnone
        exact ⟨hr, (or_eq_none_iff.mp hor).2⟩
    | cancelled =>
      have hsome : ∃ e, w.result err .cancelled = some e := by
        cases err with
        | some e => exact ⟨e, rfl⟩
        | none =>
          cases herr : w.errCh with
          | some e => exact ⟨e, by rw [result, herr]; rfl⟩
          | none => exact ⟨contextCanceled, by rw [result, herr]; rfl⟩
      obtain ⟨e, he⟩ := hsome
      rw [he]
      exact ⟨hrun, fun _ => .inr rfl, fun h => absurd h (by simp [AtEnd]), by simp⟩

end Writer

namespace SinkRun

variable (k : SinkRun T) {s s' : State T} {r : Record}

/-- What a step of the stage can do, the call of `OnBarrier` apart. -/
inductive Pump (s : State T) : State T → Prop
  | close (hpc : s.pc = .receiving) (hr : k.stream[s.position]? = none) :
      Pump s { s with pc := .awaiting, closed := true }
  | discard (hpc : s.pc = .receiving) (hp : s.pumping = false) : Pump s s.next
  | align {r : Record} (hpc : s.pc = .receiving) (hp : s.pumping = true)
      (hr : k.stream[s.position]? = some r) (hb : r.isBarrier = true) :
      Pump s { s with pc := .aligning r }
  | drop {r : Record} (hpc : s.pc = .receiving)
      (hr : k.stream[s.position]? = some r) (hm : r.isMarker = true) : Pump s s.next
  | load {r : Record} (hpc : s.pc = .receiving) (hp : s.pumping = true)
      (hr : k.stream[s.position]? = some r) (hm : r.isMarker = false) :
      Pump s { s with pc := .sending r }
  | aligned {r : Record} (hpc : s.pc = .aligning r) (hin : s.pumped = []) :
      Pump s { s with pc := .hooking r }
  | timer : Pump s s
  | send {r : Record} (hpc : s.pc = .sending r) :
      Pump s (State.next { s with pumped := s.pumped ++ [r] })
  | finish {err : Option String} (hw : s.writer.pc = .returned err) :
      Pump s { s with pc := .returned err }
  | stop {r : Record} (hpc : s.pc = .aligning r ∨ s.pc = .sending r) (hc : s.cancelled = true) :
      Pump s (State.next { s with pumping := false })

/-- The save made by a call of `OnBarrier`. -/
def saveOf (s : State T) (r : Record) : Save T := ⟨r.checkpointID, s.position, s.writer.flushed⟩

theorem sinkResult_eq_some {err : Option String} (h : s.sinkResult = some err) :
    s.writer.pc = .returned err := by
  unfold State.sinkResult at h
  split at h
  case h_1 hpc =>
    cases h
    exact hpc
  case h_2 => simp at h

/-- A step of the stage is one of these moves or calls `OnBarrier`. -/
theorem pump_of_step {e : PumpEvent} (h : k.stageStep s e = some s') (he : e ≠ .hook) : k.Pump s s' := by
  revert h
  fun_cases stageStep k s e <;> intro h <;> cases h
  case case1.refl hr hpc => exact .close hpc hr
  case case2.refl hpc hp => exact .discard hpc (by simpa using hp)
  case case3.refl hr hpc hp hb => exact .align hpc (by simpa using hp) hr (Bool.and_eq_true_iff.mp hb).1
  case case4.refl hr hpc hp _ =>
    unfold State.forward
    rw [Bool.or_comm]
    split
    case isTrue hm => exact .drop hpc hr hm
    case isFalse hm => exact .load hpc (by simpa using hp) hr (Bool.eq_false_iff.mpr hm)
  case case6.refl hin hpc => exact .aligned hpc hin
  case case8.refl => exact .timer
  case case10.refl => exact absurd rfl he
  case case12.refl hpc _ => exact .send hpc
  case case15.refl hw _ _ | case16.refl hw _ | case17.refl hw _ =>
    exact .finish (sinkResult_eq_some hw)
  case case19.refl hc _ hpc => exact .stop (.inl hpc) hc
  case case20.refl hc hpc => exact .stop (.inr hpc) hc

theorem hook_of_step (h : k.stageStep s .hook = some s') :
    ∃ r, s.pc = .hooking r ∧
      s' = State.forward { s with saves := s.saves ++ [saveOf s r] } r := by
  dsimp only [stageStep] at h
  split at h
  case h_1 r hpc => exact ⟨r, hpc, (some.inj h).symm⟩
  case h_2 => simp at h

/-- The record the stage is working on. -/
def Current (s : State T) : Prop :=
  match s.pc with
  | .aligning r => s.pumping = true ∧ k.stream[s.position]? = some r ∧ r.isBarrier = true
  | .hooking r =>
    s.pumping = true ∧ k.stream[s.position]? = some r ∧ r.isBarrier = true ∧ s.pumped = []
  | .sending r => s.pumping = true ∧ k.stream[s.position]? = some r ∧ r.isMarker = false
  | _ => True

/-- The stage is past the loop over its input. -/
def Over (s : State T) : Prop := s.pc = .awaiting ∨ ∃ err, s.pc = .returned err

/-- What holds in every state of a run. -/
structure Inv (s : State T) : Prop where
  conserved : s.pumping = true → (↑(k.ahead s.position) : Multiset T) =
    s.writer.entries k.sink + ↑(s.pumped.filterMap k.sink.convert)
  writer : s.writer.Ok s.closed s.pumped
  current : k.Current s
  closed : s.closed = true → k.stream[s.position]? = none ∧ Over s
  stopped : s.pumping = false → s.cancelled = true
  returned : ∀ err, s.pc = .returned err → s.writer.pc = .returned err

theorem filterMap_singleton {α β : Type*} (f : α → Option β) (a : α) :
    [a].filterMap f = (f a).toList := by
  cases h : f a with
  | none => rw [filterMap_cons_none h]; rfl
  | some b => rw [filterMap_cons_some h]; rfl

theorem ahead_succ {n : Nat} (h : k.stream[n]? = some r) :
    k.ahead (n + 1) = k.ahead n ++ (k.entry r).toList := by
  rw [ahead, take_add_one, h, filterMap_append, ← ahead]
  show _ ++ [r].filterMap k.entry = _
  rw [filterMap_singleton]

/-- A marker adds nothing to what is ahead. -/
theorem ahead_marker {n : Nat} (h : k.stream[n]? = some r) (hm : r.isMarker = true) : k.ahead (n + 1) = k.ahead n := by
  rw [k.ahead_succ h, entry, if_pos hm, toList_none, append_nil]

theorem Inv.init : k.Inv {} where
  conserved := fun _ => rfl
  writer := ⟨by simp, by simp, False.elim, by simp⟩
  current := trivial
  closed := by simp
  stopped := by simp
  returned := by simp

/-- Before the stage is past its loop, the channel is open. -/
theorem Inv.not_closed (hs : k.Inv s) (hover : ¬ Over s) : s.closed ≠ true :=
  fun hc => hover (hs.closed hc).2

/-- Dropping a marker, with or without a save. -/
theorem Inv.drop (hs : k.Inv s) (hover : ¬ Over s)
    (hr : k.stream[s.position]? = some r) (hm : r.isMarker = true) (saves : List (Save T)) :
    k.Inv (State.next { s with saves := saves }) where
  conserved := by
    intro hp
    show (↑(k.ahead (s.position + 1)) : Multiset T) = _
    rw [k.ahead_marker hr hm]
    exact hs.conserved hp
  writer := hs.writer
  current := trivial
  closed := fun h => absurd h (hs.not_closed k hover)
  stopped := hs.stopped
  returned := by simp [State.next]

/-- The stage's moves keep the invariant. Those that go on to the next record are the delicate ones:
    what is ahead grows by the record's entry. -/
theorem Pump.inv (h : k.Pump s s') (hs : k.Inv s) : k.Inv s' := by
  have hcur := hs.current
  unfold Current at hcur
  cases h with
  | close hpc hr =>
    have hopen := hs.not_closed k (by simp [Over, hpc])
    refine ⟨hs.conserved, ?_, trivial, fun _ => ⟨hr, .inl rfl⟩, hs.stopped, by simp⟩
    -- the sink cannot have seen the end before
    exact { hs.writer with ended := fun h => absurd (hs.writer.ended h).1 hopen }
  | discard hpc hp =>
    have hopen := hs.not_closed k (by simp [Over, hpc])
    refine ⟨fun h => ?_, hs.writer, trivial, fun h => absurd h hopen, hs.stopped,
      by simp [State.next]⟩
    exact absurd (h.symm.trans hp) (by decide)
  | align hpc hp hr hb =>
    have hopen := hs.not_closed k (by simp [Over, hpc])
    exact ⟨hs.conserved, hs.writer, ⟨hp, hr, hb⟩, fun h => absurd h hopen, hs.stopped, by simp⟩
  | drop hpc hr hm => exact hs.drop k (by simp [Over, hpc]) hr hm s.saves
  | load hpc hp hr hm =>
    have hopen := hs.not_closed k (by simp [Over, hpc])
    exact ⟨hs.conserved, hs.writer, ⟨hp, hr, hm⟩, fun h => absurd h hopen, hs.stopped, by simp⟩
  | aligned hpc hin =>
    have hopen := hs.not_closed k (by simp [Over, hpc])
    rw [hpc] at hcur
    obtain ⟨hp, hr, hb⟩ := hcur
    exact ⟨hs.conserved, hs.writer, ⟨hp, hr, hb, hin⟩, fun h => absurd h hopen, hs.stopped, by simp⟩
  | timer => exact hs
  | @send r hpc =>
    have hopen := hs.not_closed k (by simp [Over, hpc])
    rw [hpc] at hcur
    obtain ⟨-, hr, hm⟩ := hcur
    refine ⟨fun hp => ?_, ?_, trivial, fun h => absurd h hopen, hs.stopped, by simp [State.next]⟩
    · show (↑(k.ahead (s.position + 1)) : Multiset T) =
        s.writer.entries k.sink + ↑((s.pumped ++ [r]).filterMap k.sink.convert)
      have hentry : k.entry r = k.sink.convert r := by
        rw [entry, hm, if_neg (by decide)]
      rw [k.ahead_succ hr, filterMap_append, filterMap_singleton, hentry,
        ← coe_add, ← coe_add, hs.conserved hp, add_assoc]
    · exact { hs.writer with ended := fun h => absurd (hs.writer.ended h).1 hopen }
  | finish hw =>
    refine ⟨hs.conserved, hs.writer, trivial, ?_, hs.stopped, ?_⟩
    · exact fun h => ⟨(hs.closed h).1, .inr ⟨_, rfl⟩⟩
    · intro err h
      rw [hw, PumpPc.returned.inj h]
  | stop hpc hc =>
    have hopen : s.closed ≠ true := by
      apply hs.not_closed k
      cases hpc with
      | inl hpc | inr hpc => simp [Over, hpc]
    exact ⟨fun h => absurd h (by simp [State.next]), hs.writer, trivial,
      fun h => absurd h hopen, fun _ => hc, by simp [State.next]⟩

/-- After `OnBarrier` the barrier is dropped. -/
theorem forward_barrier (hb : r.isBarrier = true) :
    s.forward r = s.next := by
  rw [State.forward, hb, Bool.or_true, if_pos rfl]

theorem inv_step (e : SinkEvent) (hs : k.Inv s) (h : k.step s e = some s') :
    k.Inv s' := by
  cases e with
  | stage e =>
    by_cases he : e = .hook
    · subst he
      obtain ⟨r, hpc, rfl⟩ := k.hook_of_step h
      have hcur := hs.current
      rw [Current, hpc] at hcur
      obtain ⟨-, hr, hb, -⟩ := hcur
      rw [forward_barrier hb]
      exact hs.drop k (by simp [Over, hpc]) hr (by rw [Record.isMarker, hb, Bool.true_or]) _
    · exact (k.pump_of_step h he).inv k hs
  | sink e =>
    obtain ⟨⟨w, rest⟩, hw, rfl⟩ := map_eq_some_iff.mp h
    have hmove := Writer.move_of_step k.sink hw
    refine ⟨fun hp => ?_, hmove.ok k.sink hs.writer, ?_, hs.closed, hs.stopped,
      fun err h => hmove.returned k.sink (hs.returned err h)⟩
    · show (↑(k.ahead s.position) : Multiset T) =
        w.entries k.sink + ↑(rest.filterMap k.sink.convert)
      rw [hs.conserved hp, hmove.entries_eq]
    · have hcur := hs.current
      unfold Current at hcur ⊢
      dsimp only
      split at hcur
      -- the sink only takes from the channel, so it stays empty
      case h_2 => exact ⟨hcur.1, hcur.2.1, hcur.2.2.1, hmove.rest_nil k.sink hcur.2.2.2⟩
      all_goals exact hcur
  | cancel =>
    cases h
    exact ⟨hs.conserved, hs.writer, hs.current, hs.closed, fun _ => rfl, hs.returned⟩

/-- Nothing but the flushed entries is left exactly if the sink is settled. -/
theorem entries_le_flushed_iff (hrun : ∀ items ∈ w.running, items ≠ []) :
    w.entries k.sink ≤ ↑w.flushed ↔ w.Settled k.sink := by
  have hsplit : w.entries k.sink =
      ↑w.flushed + ↑(w.failed ++ w.running.flatten ++ w.batch ++ w.pc.held k.sink) := by
    simp only [Writer.entries, Writer.stored, ← coe_add]
    abel
  rw [hsplit, add_le_iff_nonpos_right, Multiset.le_zero, Multiset.coe_eq_zero]
  simp only [append_eq_nil_iff]
  constructor
  · rintro ⟨⟨⟨hfailed, hflat⟩, hbatch⟩, hheld⟩
    refine ⟨hfailed, ?_, hbatch, hheld⟩
    -- a flush that is running holds an entry
    apply eq_nil_iff_forall_not_mem.mpr
    intro items hmem
    exact hrun items hmem (flatten_eq_nil_iff.mp hflat items hmem)
  · intro h
    exact ⟨⟨⟨h.failed, by rw [h.running]; rfl⟩, h.batch⟩, h.held⟩

/-- The checkpoint saved now covers only what is written exactly if the sink holds nothing back. -/
theorem handed_iff_settled (hs : k.Inv s) (hpc : s.pc = .hooking r) :
    k.Handed (saveOf s r) ↔ s.writer.Settled k.sink := by
  have hcur := hs.current
  rw [Current, hpc] at hcur
  obtain ⟨hp, -, -, hin⟩ := hcur
  have hahead : (↑(k.ahead s.position) : Multiset T) = s.writer.entries k.sink := by
    rw [hs.conserved hp, hin]
    exact add_zero _
  rw [← k.entries_le_flushed_iff hs.writer.running_ne, ← hahead]
  exact Multiset.coe_le.symm

theorem Pump.saves_eq (h : k.Pump s s') : s'.saves = s.saves := by
  cases h <;> rfl

/-- Only a call of `OnBarrier` decides whether the checkpoints are right. -/
theorem allHanded_step (e : SinkEvent) (hs : k.Inv s) (hP : k.AllHanded s)
    (h : k.step s e = some s') : k.AllHanded s' ↔ k.HookSettled s e := by
  cases e with
  | stage e =>
    by_cases he : e = .hook
    · subst he
      obtain ⟨r, hpc, rfl⟩ := k.hook_of_step h
      have hcur := hs.current
      rw [Current, hpc] at hcur
      rw [forward_barrier hcur.2.2.1]
      show (∀ save ∈ s.saves ++ [saveOf s r], k.Handed save) ↔ _
      constructor
      · intro hall _
        exact (k.handed_iff_settled hs hpc).mp (hall _ (by simp))
      · intro hsettled save hsave
        cases mem_append.mp hsave with
        | inl hmem => exact hP save hmem
        | inr hmem =>
          rw [mem_singleton.mp hmem]
          exact (k.handed_iff_settled hs hpc).mpr (hsettled rfl)
    · have hsaves := (k.pump_of_step h he).saves_eq
      apply iff_of_true
      · unfold AllHanded
        rw [hsaves]
        exact hP
      · exact fun heq => absurd (SinkEvent.stage.inj heq) he
  | sink e =>
    obtain ⟨⟨w, rest⟩, -, rfl⟩ := map_eq_some_iff.mp h
    exact iff_of_true hP (fun heq => absurd heq (by simp))
  | cancel =>
    cases h
    exact iff_of_true hP (fun heq => absurd heq (by simp))

/-- In every interleaving, the checkpoints saved cover only what the sink has written exactly if
    `OnBarrier` is only ever called while the sink has no record in hand, an empty batch, no flush
    running and none that failed. -/
theorem allHanded_iff_settled (es : List SinkEvent) :
    Run.Always k.step k.AllHanded {} es ↔ Run.Along k.step k.HookSettled {} es :=
  Run.always_iff_along (fun _ e _ hi _ hs _ => k.inv_step e hi hs)
    (fun _ e _ hi hp hs => k.allHanded_step e hi hp hs) (Inv.init k) (by simp [AllHanded])

/-- A stage that returns without an error and without a cancellation has written the whole
    stream. -/
theorem flushed_of_clean_return {es : List SinkEvent} (h : Run.exec k.step {} es = some s)
    (hret : s.pc = .returned none) (hc : s.cancelled = false) : (k.stream.filterMap k.entry).Perm s.writer.flushed := by
  have hs : k.Inv s := Run.exec_invariant (fun _ e _ hi hs => k.inv_step e hi hs) (Inv.init k) h
  have hpc : s.writer.pc = .returned none := hs.returned none hret
  -- the loop ended with nothing left to write and no failure
  obtain ⟨hclosed, hin, hbatch⟩ := hs.writer.ended (by rw [hpc]; rfl)
  have hfailed : s.writer.failed = [] := by
    by_contra hne
    cases hs.writer.reported hne with
    | inl hsome =>
      rw [(hs.writer.returned hpc).2] at hsome
      simp at hsome
    | inr herrs =>
      rw [hpc] at herrs
      simp [Errs] at herrs
  have hsettled : s.writer.Settled k.sink :=
    ⟨hfailed, (hs.writer.returned hpc).1, hbatch, by rw [hpc]; rfl⟩
  -- the stage pumped to the end of the stream
  have hp : s.pumping = true := by
    by_contra hno
    rw [hs.stopped (Bool.eq_false_iff.mpr hno)] at hc
    simp at hc
  have hall : k.ahead s.position = k.stream.filterMap k.entry := by
    rw [ahead, take_of_length_le (getElem?_eq_none_iff.mp (hs.closed hclosed).1)]
  rw [← coe_eq_coe, ← hall, hs.conserved hp, hin]
  show s.writer.entries k.sink + 0 = _
  rw [add_zero, Writer.entries, Writer.stored, hsettled.failed, hsettled.running, hsettled.batch,
    hsettled.held]
  show (↑s.writer.flushed + 0 + 0 + 0 + 0 : Multiset T) = _
  simp

/-- An HTTP sink with batches of two records. -/
def pairSink : BatchWriter Record where
  batchSize := 2
  convert r := some r

/-- A record and a barrier behind it. -/
def oneRecord : SinkRun Record where
  stream := [{ offset := 7 }, .newBarrier "1"]
  sink := pairSink

/-- The sink takes the record and keeps it for a batch of two; the channel is empty and the
    checkpoint is saved. -/
def batchHeldBack : List SinkEvent :=
  [.stage .recv, .stage .send, .sink .take, .sink .add, .stage .recv, .stage .aligned, .stage .hook]

/-- Then the stream ends, the sink flushes what it kept, and both return. -/
def flushAtTheEnd : List SinkEvent :=
  batchHeldBack ++ [.stage .recv, .sink .inClosed, .sink (.flushReturns none), .sink .wait,
    .stage .sinkDone]

theorem flushed_of_clean_return_oneRecord :
    ∃ s, Run.exec oneRecord.step {} flushAtTheEnd = some s ∧
      (oneRecord.stream.filterMap oneRecord.entry).Perm s.writer.flushed := by
  have hs : Run.exec oneRecord.step {} flushAtTheEnd = some _ := rfl
  exact ⟨_, hs, oneRecord.flushed_of_clean_return hs rfl rfl⟩

/-- The checkpoint covers the record at offset 7 and nothing has been written. -/
theorem saved_before_flush :
    ∃ s, Run.exec oneRecord.step {} batchHeldBack = some s ∧
      (∃ save ∈ s.saves, save.checkpointID = "1" ∧
        (oneRecord.ahead save.position).map Record.offset = [7] ∧ save.flushed = []) ∧
      ¬ oneRecord.AllHanded s := by
  have hsaves : (Run.exec oneRecord.step {} batchHeldBack).map (fun s => s.saves.map fun c =>
      (c.checkpointID, (oneRecord.ahead c.position).map Record.offset, c.flushed.length)) =
      some [("1", [7], 0)] := by decide
  obtain ⟨s, hs, hsaves⟩ := map_eq_some_iff.mp hsaves
  obtain ⟨save, hlist, heq⟩ := map_eq_singleton_iff.mp hsaves
  simp only [Prod.mk.injEq] at heq
  obtain ⟨hid, hahead, hlength⟩ := heq
  have hmem : save ∈ s.saves := by rw [hlist]; exact mem_singleton_self save
  have hflushed : save.flushed = [] := length_eq_zero_iff.mp hlength
  refine ⟨s, hs, ⟨save, hmem, hid, hahead, hflushed⟩, fun hall => ?_⟩
  have hsub : (oneRecord.ahead save.position).length ≤ save.flushed.length :=
    (hall save hmem).length_le
  have hone : (oneRecord.ahead save.position).length = 1 := by
    rw [← length_map (f := Record.offset), hahead]
    rfl
  omega

end SinkRun

end Weibo
