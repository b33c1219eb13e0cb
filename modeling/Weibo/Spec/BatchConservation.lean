import Weibo.Spec.SinkDelivery

/-!
# A batch writer loses and repeats nothing

`BatchRun` records the batches passed to `flush` in the order of the calls. They are consecutive
pieces of the arrival sequence: put together, followed by the batch and the record on its way into
it, they are the entries of the received records in order (`Inv.conserved`). So no entry is passed
to two flushes, and none is missing once the batch is empty and nothing is on its way.

The other part is about errors.  The channel `errCh` holds one error and drops
the others, which is enough: a failed flush leaves the channel full until the
loop returns an error (`Inv.failed`), and nothing but a failed flush fills it
(`Inv.errCh`).
-/

namespace Weibo

open List Option Writer WriterPc

namespace BatchRun

variable {T : Type} (b : BatchWriter T)

/-- Some flush has returned an error. -/
def Failing (s : BatchRun T) : Prop := ∃ call ∈ s.ended, call.2.isSome

/-- What is known at the points at the end of the loop. -/
def AtEnding (s : BatchRun T) : WriterPc T → Prop
  | .waiting (.failed _) _ => s.Failing
  | .waiting _ _ => s.writer.batch = []
  | .lastFlush ending _ => s.writer.batch = [] ∧ (ending = .closed ∨ ending = .cancelled)
  | .returned _ => s.Failing ∨ s.writer.batch = [] ∧ s.writer.running = []
  | _ => True

/-- What holds in every reachable state. -/
structure Inv (s : BatchRun T) : Prop where
  conserved : s.begun.flatten ++ s.writer.batch ++ s.writer.pc.incoming b =
    s.received.filterMap b.convert
  calls : (s.ended.map Prod.fst ++ s.writer.calls).Perm s.begun
  sync : b.async = false →
    s.writer.running = [] ∧ s.ended.map Prod.fst ++ s.writer.calls = s.begun
  failed : s.Failing →
    (s.writer.errCh.isSome ∧ ∀ err, s.writer.pc ≠ .returned err) ∨ s.writer.pc.Errs
  errCh : s.writer.errCh.isSome → s.Failing
  ending : s.AtEnding s.writer.pc

theorem initial_inv : Inv b {} where
  conserved := rfl
  calls := .refl _
  sync _ := ⟨rfl, rfl⟩
  failed h := by
    obtain ⟨call, hmem, -⟩ := h
    cases hmem
  errCh h := nomatch h
  ending := trivial

variable {b} {s : BatchRun T} {pc : WriterPc T} {err : Option String}

/-- At one of the two `select`s no flush of the loop is running, nothing is on its way into the
    batch and no error has been met. -/
theorem select_spec (h : pc = .select ∨ pc = .draining) :
    pc.inFlush = none ∧ pc.incoming b = [] ∧ ¬ pc.Errs := by
  rcases h with rfl | rfl <;> exact ⟨rfl, rfl, not_false⟩

section Steps

variable (hs : s.Inv b)

include hs

/-- From a `select` the loop goes to another point, with nothing to flush. -/
theorem Inv.goto (hselect : s.writer.pc = .select ∨ s.writer.pc = .draining)
    (hflush : pc.inFlush = none) (hincoming : pc.incoming b = [])
    (hret : ∀ err, pc ≠ .returned err) (hending : s.AtEnding pc) :
    Inv b { s with writer := { s.writer with pc := pc } } := by
  obtain ⟨hflush', hincoming', herrs⟩ := select_spec (b := b) hselect
  have hcalls : ({ s.writer with pc := pc } : Writer T).calls = s.writer.calls := by
    simp only [Writer.calls, hflush, hflush']
  exact {
    conserved := by
      show s.begun.flatten ++ s.writer.batch ++ pc.incoming b = _
      rw [hincoming, ← hincoming']
      exact hs.conserved
    calls := by rw [hcalls]; exact hs.calls
    sync := fun hsync => ⟨(hs.sync hsync).1, by rw [hcalls]; exact (hs.sync hsync).2⟩
    failed := fun h => .inl ⟨((hs.failed h).resolve_right herrs).1, hret⟩
    errCh := hs.errCh
    ending := by
      cases pc with
      | waiting ending err => cases ending <;> exact hending
      | _ => exact hending }

/-- The loop receives a record. -/
theorem Inv.receive (hselect : s.writer.pc = .select ∨ s.writer.pc = .draining) {r : Record}
    (hpc : pc = .adding r ∨ pc = .drainAdding r) :
    Inv b { s with writer := { s.writer with pc := pc }, received := s.received ++ [r] } := by
  obtain ⟨hflush, hincoming, herrs⟩ := select_spec (b := b) hselect
  have hconserved := hs.conserved
  rw [hincoming, append_nil] at hconserved
  have hcalls : ({ s.writer with pc := pc } : Writer T).calls = s.writer.calls := by
    rcases hpc with rfl | rfl <;> simp only [Writer.calls, hflush] <;> rfl
  exact {
    conserved := by
      have hentry : pc.incoming b = [r].filterMap b.convert := by
        rcases hpc with rfl | rfl <;> simp [incoming, filterMap_cons] <;>
          cases b.convert r <;> rfl
      rw [filterMap_append, ← hconserved]
      exact congrArg _ hentry
    calls := by rw [hcalls]; exact hs.calls
    sync := fun hsync => ⟨(hs.sync hsync).1, by rw [hcalls]; exact (hs.sync hsync).2⟩
    failed := fun h => .inl ⟨((hs.failed h).resolve_right herrs).1, by
      rcases hpc with rfl | rfl <;> simp⟩
    errCh := hs.errCh
    ending := by rcases hpc with rfl | rfl <;> exact trivial }

/-- The received record is put into the batch. -/
theorem Inv.add {r : Record} (hpc : s.writer.pc = .adding r ∨ s.writer.pc = .drainAdding r)
    (hpc' : pc = .select ∨ pc = .draining) :
    Inv b { s with writer := { s.writer.add b r with pc := pc } } := by
  have hconserved := hs.conserved
  have hincoming : s.writer.pc.incoming b = (b.convert r).toList := by
    rcases hpc with h | h <;> rw [h] <;> rfl
  have hcalls : ({ s.writer.add b r with pc := pc } : Writer T).calls = s.writer.calls := by
    rcases hpc with h | h <;> rcases hpc' with rfl | rfl <;>
      simp [Writer.calls, Writer.add, inFlush, h]
  have herrs : ¬ s.writer.pc.Errs := by
    rcases hpc with h | h <;> rw [h] <;> exact not_false
  exact {
    conserved := by
      rw [hincoming] at hconserved
      rw [← hconserved]
      rcases hpc' with rfl | rfl <;> simp [Writer.add, incoming]
    calls := by rw [hcalls]; exact hs.calls
    sync := fun hsync => ⟨(hs.sync hsync).1, by rw [hcalls]; exact (hs.sync hsync).2⟩
    failed := fun h => .inl ⟨((hs.failed h).resolve_right herrs).1, by
      rcases hpc' with rfl | rfl <;> simp⟩
    errCh := hs.errCh
    ending := by rcases hpc' with rfl | rfl <;> exact trivial }

/-- The batch is handed to a flush. -/
theorem Inv.doFlush (hselect : s.writer.pc = .select ∨ s.writer.pc = .draining) {next : WriterPc T}
    {inFlush : List T → WriterPc T}
    (hnext : next = .select ∨ next = .waiting .closed none ∨ next = .waiting .cancelled none)
    (hinFlush : inFlush = .flushing ∨ inFlush = .lastFlush .closed ∨
      inFlush = .lastFlush .cancelled) :
    Inv b { s with
      writer := s.writer.doFlush b next inFlush
      begun := s.begun ++ (s.writer.doFlush b next inFlush).calls.drop s.writer.calls.length } := by
  obtain ⟨hflush, hincoming, herrs⟩ := select_spec (b := b) hselect
  have hconserved := hs.conserved
  rw [hincoming, append_nil] at hconserved
  have hnext' : next.inFlush = none ∧ next.incoming b = [] ∧ ∀ err, next ≠ .returned err := by
    rcases hnext with rfl | rfl | rfl <;> exact ⟨rfl, rfl, by simp⟩
  unfold Writer.doFlush
  split
  · -- there is nothing to flush
    rename_i hempty
    have hbatch : s.writer.batch = [] := isEmpty_iff.mp hempty
    have hnone : ({ s.writer with pc := next } : Writer T).calls.drop s.writer.calls.length = [] := by
      simp [Writer.calls, hnext'.1, hflush]
    rw [hnone, append_nil]
    refine hs.goto hselect hnext'.1 hnext'.2.1 hnext'.2.2 ?_
    rcases hnext with rfl | rfl | rfl
    · trivial
    · exact hbatch
    · exact hbatch
  · split
    · -- a goroutine of its own
      rename_i hasync
      have hnew : ({ s.writer with
          pc := next, batch := [], running := s.writer.running ++ [s.writer.batch] } : Writer T).calls =
          s.writer.calls ++ [s.writer.batch] := by
        simp [Writer.calls, hnext'.1, hflush]
      rw [hnew, drop_left]
      exact {
        conserved := by
          rw [← hconserved]
          simp [hnext'.2.1]
        calls := by
          rw [hnew, ← append_assoc]
          exact hs.calls.append_right _
        sync := fun hsync => by simp [hsync] at hasync
        failed := fun h => .inl ⟨((hs.failed h).resolve_right herrs).1, hnext'.2.2⟩
        errCh := hs.errCh
        ending := by
          rcases hnext with rfl | rfl | rfl
          · trivial
          · rfl
          · rfl }
    · -- the loop itself is in the flush
      have hin : ∀ items, (inFlush items).inFlush = some items ∧
          (inFlush items).incoming b = [] ∧ ∀ err, inFlush items ≠ .returned err := by
        intro items
        rcases hinFlush with rfl | rfl | rfl <;> exact ⟨rfl, rfl, by simp⟩
      have hnew : ({ s.writer with pc := inFlush s.writer.batch, batch := [] } : Writer T).calls =
          s.writer.calls ++ [s.writer.batch] := by
        simp [Writer.calls, (hin s.writer.batch).1, hflush]
      rw [hnew, drop_left]
      exact {
        conserved := by
          rw [← hconserved]
          simp [(hin s.writer.batch).2.1]
        calls := by
          rw [hnew, ← append_assoc]
          exact hs.calls.append_right _
        sync := fun hsync => ⟨(hs.sync hsync).1, by
          rw [hnew, ← append_assoc, (hs.sync hsync).2]⟩
        failed := fun h => .inl ⟨((hs.failed h).resolve_right herrs).1, (hin _).2.2⟩
        errCh := hs.errCh
        ending := by
          rcases hinFlush with rfl | rfl | rfl
          · trivial
          · exact ⟨rfl, .inl rfl⟩
          · exact ⟨rfl, .inr rfl⟩ }

/-- A flush of the loop itself returns. -/
theorem Inv.flushReturns {items : List T} (hflush : s.writer.pc.inFlush = some items)
    (hflush' : pc.inFlush = none) (hincoming : pc.incoming b = []) (herrs : ¬ s.writer.pc.Errs)
    (hok : err = none → ∀ err, pc ≠ .returned err) (herr : err.isSome → pc.Errs)
    (hending : AtEnding { s with ended := s.ended ++ [(items, err)] } pc) :
    Inv b { s with
      writer := { s.writer.settle items err with pc := pc }
      ended := s.ended ++ [(items, err)] } := by
  have hincoming' : s.writer.pc.incoming b = [] := by
    cases hpc : s.writer.pc with
    | adding r | drainAdding r => simp [hpc, inFlush] at hflush
    | _ => rfl
  have hconserved := hs.conserved
  rw [hincoming'] at hconserved
  have hcalls : s.writer.calls = s.writer.running ++ [items] := by
    simp [Writer.calls, hflush]
  -- what was flushed and what failed is kept apart, nothing else looks at it
  have hsettle : ∀ w : Writer T, (w.settle items err).running = w.running ∧
      (w.settle items err).batch = w.batch ∧ (w.settle items err).errCh = w.errCh := by
    intro w
    cases err <;> exact ⟨rfl, rfl, rfl⟩
  obtain ⟨hrunning, hbatch, herrCh⟩ := hsettle s.writer
  have hcalls' : ({ s.writer.settle items err with pc := pc } : Writer T).calls =
      s.writer.running := by
    simp [Writer.calls, hflush', hrunning]
  exact {
    conserved := by
      show s.begun.flatten ++ (s.writer.settle items err).batch ++ pc.incoming b = _
      rw [hbatch, hincoming]
      exact hconserved
    calls := by
      have := hs.calls
      rw [hcalls] at this
      rw [hcalls', map_append, append_assoc]
      exact (perm_append_comm.append_left _).trans this
    sync := fun hsync => by
      obtain ⟨hnone, hall⟩ := hs.sync hsync
      rw [hcalls, hnone] at hall
      refine ⟨hrunning.trans hnone, ?_⟩
      rw [hcalls', hnone, map_append, append_nil]
      exact hall
    failed := by
      rintro ⟨call, hmem, hcall⟩
      cases herr' : err with
      | some e => exact .inr (herr (by rw [herr']; rfl))
      | none =>
        refine .inl ⟨?_, hok herr'⟩
        rcases mem_append.mp hmem with hold | hnew
        · show s.writer.errCh.isSome
          exact ((hs.failed ⟨call, hold, hcall⟩).resolve_right herrs).1
        · obtain rfl := mem_singleton.mp hnew
          rw [herr'] at hcall
          cases hcall
    errCh := by
      intro h
      rw [show (s.writer.settle items err).errCh = s.writer.errCh from herrCh] at h
      obtain ⟨call, hmem, hcall⟩ := hs.errCh h
      exact ⟨call, mem_append_left _ hmem, hcall⟩
    ending := by
      cases pc with
      | waiting ending err' =>
        cases ending with
        | failed e => exact hending
        | closed | cancelled => exact hbatch.trans hending
      | lastFlush ending items' => exact ⟨hbatch.trans hending.1, hending.2⟩
      | returned err' =>
        exact hending.imp_right fun h => ⟨hbatch.trans h.1, hrunning.trans h.2⟩
      | _ => trivial }

/-- A flush of a goroutine returns. -/
theorem Inv.asyncReturns {i : Nat} {items : List T} (hi : s.writer.running[i]? = some items) :
    Inv b { s with
      writer := { s.writer.settle items err with
        running := s.writer.running.eraseIdx i, errCh := s.writer.errCh.or err }
      ended := s.ended ++ [(items, err)] } := by
  have hsettle : ∀ w : Writer T, (w.settle items err).pc = w.pc ∧
      (w.settle items err).batch = w.batch := by
    intro w
    cases err <;> exact ⟨rfl, rfl⟩
  obtain ⟨hpc, hbatch⟩ := hsettle s.writer
  have hne : s.writer.running ≠ [] := by
    intro hnil
    simp [hnil] at hi
  have hperm : (items :: s.writer.running.eraseIdx i).Perm s.writer.running := by
    obtain ⟨hlt, hget⟩ := List.getElem?_eq_some_iff.mp hi
    exact hget ▸ getElem_cons_eraseIdx_perm hlt
  have hkeep : s.Failing → Failing { s with ended := s.ended ++ [(items, err)] } := by
    rintro ⟨call, hmem, hcall⟩
    exact ⟨call, mem_append_left _ hmem, hcall⟩
  exact {
    conserved := by
      show s.begun.flatten ++ (s.writer.settle items err).batch ++
        (s.writer.settle items err).pc.incoming b = _
      rw [hbatch, hpc]
      exact hs.conserved
    calls := by
      have hcalls : (s.ended.map Prod.fst ++ (s.writer.running ++
          s.writer.pc.inFlush.toList)).Perm s.begun := hs.calls
      show ((s.ended ++ [(items, err)]).map Prod.fst ++ (s.writer.running.eraseIdx i ++
        (s.writer.settle items err).pc.inFlush.toList)).Perm s.begun
      rw [hpc, map_append, append_assoc]
      exact ((hperm.append_right _).append_left _).trans hcalls
    sync := fun hsync => absurd (hs.sync hsync).1 hne
    failed := by
      rintro ⟨call, hmem, hcall⟩
      show ((s.writer.errCh.or err).isSome ∧ ∀ err', (s.writer.settle items err).pc ≠ .returned err') ∨
        (s.writer.settle items err).pc.Errs
      rw [hpc]
      -- a loop that returned while a flush was running has returned an error
      by_cases hret : ∃ err', s.writer.pc = .returned err'
      · obtain ⟨err', hret⟩ := hret
        have hending := hs.ending
        rw [hret] at hending
        have hfailing : s.Failing := hending.resolve_right fun h => hne h.2
        exact .inr ((hs.failed hfailing).resolve_left fun h => h.2 err' hret)
      · by_cases herrs : s.writer.pc.Errs
        · exact .inr herrs
        · refine .inl ⟨?_, fun err' h => hret ⟨err', h⟩⟩
          rcases mem_append.mp hmem with hold | hnew
          · have := ((hs.failed ⟨call, hold, hcall⟩).resolve_right herrs).1
            cases herr : s.writer.errCh with
            | none => simp [herr] at this
            | some e => rfl
          · obtain rfl := mem_singleton.mp hnew
            cases herr : s.writer.errCh with
            | none => exact hcall
            | some e => rfl
    errCh := by
      intro h
      cases herr : s.writer.errCh with
      | some e => exact hkeep (hs.errCh (by rw [herr]; rfl))
      | none =>
        refine ⟨(items, err), mem_append_right _ mem_cons_self, ?_⟩
        simpa [herr] using h
    ending := by
      have hending := hs.ending
      show AtEnding _ (s.writer.settle items err).pc
      rw [hpc]
      cases hcase : s.writer.pc with
      | waiting ending err' =>
        rw [hcase] at hending
        cases ending with
        | failed e => exact hkeep hending
        | closed | cancelled => exact hbatch.trans hending
      | lastFlush ending items' =>
        rw [hcase] at hending
        exact ⟨hbatch.trans hending.1, hending.2⟩
      | returned err' =>
        rw [hcase] at hending
        exact .inl (hkeep (hending.resolve_right fun h => hne h.2))
      | _ => trivial }

/-- The loop returns once every flush is done. -/
theorem Inv.wait {ending : Ending}
    (hpc : s.writer.pc = .waiting ending err) (hrun : s.writer.running = []) :
    Inv b { s with writer := { s.writer with pc := .returned (s.writer.result err ending) } } := by
  have hending := hs.ending
  rw [hpc] at hending
  have hcalls : ({ s.writer with pc := .returned (s.writer.result err ending) } : Writer T).calls =
      s.writer.calls := by
    simp [Writer.calls, hpc, inFlush]
  exact {
    conserved := by
      have := hs.conserved
      rw [hpc] at this
      exact this
    calls := by rw [hcalls]; exact hs.calls
    sync := fun hsync => ⟨(hs.sync hsync).1, by rw [hcalls]; exact (hs.sync hsync).2⟩
    failed := by
      intro h
      refine .inr ?_
      have hfailed := hs.failed h
      rw [hpc] at hfailed
      show (s.writer.result err ending).isSome
      cases ending with
      | failed e => rfl
      | closed =>
        rcases hfailed with ⟨herr, -⟩ | herr
        · cases err with
          | none => exact herr
          | some e => rfl
        · obtain ⟨e, rfl⟩ := isSome_iff_exists.mp herr
          rfl
      | cancelled =>
        simp only [Writer.result]
        cases err.or s.writer.errCh <;> rfl
    errCh := hs.errCh
    ending := by
      cases ending with
      | failed e => exact .inl hending
      | closed | cancelled => exact .inr ⟨hending, hrun⟩ }

/-- The loop takes the error of a background flush and stops. -/
theorem Inv.recvErr {err : String} (hpc : s.writer.pc = .select)
    (herr : s.writer.errCh = some err) :
    Inv b { s with
      writer := { s.writer with pc := .waiting (.failed err) none, errCh := none } } := by
  have hconserved := hs.conserved
  have hcalls := hs.calls
  have hsync := hs.sync
  simp only [Writer.calls, hpc] at hconserved hcalls hsync
  exact {
    conserved := hconserved
    calls := hcalls
    sync := hsync
    failed := fun _ => .inr trivial
    errCh := fun h => nomatch h
    ending := hs.errCh (by rw [herr]; rfl) }

end Steps

/-- Nothing but the pieces the invariant talks about matters. -/
theorem Inv.congr {s' : BatchRun T} (hs : s.Inv b) (hwriter : s'.writer = s.writer)
    (hreceived : s'.received = s.received) (hbegun : s'.begun = s.begun)
    (hended : s'.ended = s.ended) : s'.Inv b := by
  obtain ⟨writer, input, closed, cancelled, received, begun, ended⟩ := s'
  dsimp only at hwriter hreceived hbegun hended
  subst hwriter hreceived hbegun hended
  exact { hs with }

/-- No flush begins when one returns. -/
theorem drop_calls_of_le {w w' : Writer T} (h : w'.calls.length ≤ w.calls.length)
    (begun : List (List T)) : begun ++ w'.calls.drop w.calls.length = begun := by
  rw [drop_eq_nil_of_le h, append_nil]

/-- Every step of the loop keeps the invariant. -/
theorem loop_inv {s' : BatchRun T} {e : WriterEvent} (hs : s.Inv b)
    (h : s.step b (.loop e) = some s') : s'.Inv b := by
  obtain ⟨⟨w, rest⟩, hw, rfl⟩ := map_eq_some_iff.mp h
  dsimp only
  generalize s.input = input at hw ⊢
  have hnone : s.received ++ input.take (input.length - input.length) = s.received := by simp
  revert hw
  fun_cases Writer.step b s.cancelled s.closed input s.writer e <;> intro hw <;> cases hw
  case case1.refl herr hpc =>
    refine (hs.recvErr hpc herr).congr rfl hnone ?_ (append_nil _)
    simp [calls, hpc, inFlush]
  case case3.refl hpc =>
    have hgoto : Inv b { s with writer := { s.writer with pc := .draining } } :=
      hs.goto (.inl hpc) rfl rfl (by simp) trivial
    refine hgoto.congr rfl hnone ?_ (append_nil _)
    simp [calls, hpc, inFlush]
  case case5.refl hpc =>
    refine (hs.receive (.inl hpc) (.inl rfl)).congr rfl (by simp) ?_ (append_nil _)
    simp [calls, hpc, inFlush]
  case case6.refl hpc =>
    refine (hs.receive (.inr hpc) (.inr rfl)).congr rfl (by simp) ?_ (append_nil _)
    simp [calls, hpc, inFlush]
  case case8.refl hpc =>
    exact (hs.doFlush (.inl hpc) (.inr (.inl rfl)) (.inr (.inl rfl))).congr rfl (by simp) rfl
      (append_nil _)
  case case9.refl hpc | case23.refl hpc =>
    exact (hs.doFlush (.inr hpc) (.inr (.inr rfl)) (.inr (.inr rfl))).congr rfl (by simp) rfl
      (append_nil _)
  case case11.refl hpc _ =>
    exact (hs.doFlush (.inl hpc) (.inl rfl) (.inl rfl)).congr rfl hnone rfl (append_nil _)
  case case14.refl r hpc _ _ =>
    -- first the record goes into the batch, then the batch goes to a flush
    have hcalls : ({ s.writer.add b r with pc := .select } : Writer T).calls = s.writer.calls := by
      simp [calls, add, hpc, inFlush]
    refine ((hs.add (.inl hpc) (.inl rfl)).doFlush (.inl rfl) (.inl rfl) (.inl rfl)).congr rfl
      hnone ?_ (append_nil _)
    dsimp only
    rw [hcalls]
    rfl
  case case15.refl hpc w' _ =>
    refine (hs.add (.inl hpc) (.inl rfl)).congr rfl hnone ?_ (append_nil _)
    simp [w', calls, add, hpc, inFlush]
  case case16.refl hpc =>
    refine (hs.add (.inr hpc) (.inr rfl)).congr rfl hnone ?_ (append_nil _)
    simp [calls, add, hpc, inFlush]
  case case18.refl err items hpc =>
    have hret : Inv b { s with
        writer := { s.writer.settle items err with
          pc := if err.isSome then .returned err else .select }
        ended := s.ended ++ [(items, err)] } := by
      refine hs.flushReturns (by rw [hpc]; rfl) ?_ ?_ (by rw [hpc]; exact not_false) ?_ ?_ ?_
      · cases err <;> rfl
      · cases err <;> rfl
      · rintro rfl err
        simp
      · intro herr
        rw [if_pos herr]
        exact herr
      · cases err with
        | none => trivial
        | some e => exact .inl ⟨_, mem_append_right _ mem_cons_self, rfl⟩
    refine hret.congr rfl hnone (drop_calls_of_le ?_ _) (by simp [returning, hpc, inFlush])
    cases err <;> simp [calls, settle, hpc, inFlush]
  case case19.refl err ending items hpc =>
    have hending := hs.ending
    rw [hpc] at hending
    have hret : Inv b { s with
        writer := { s.writer.settle items err with pc := .waiting ending err }
        ended := s.ended ++ [(items, err)] } := by
      refine hs.flushReturns (by rw [hpc]; rfl) rfl rfl (by rw [hpc]; exact not_false)
        (by simp) ?_ ?_
      · intro herr
        rcases hending.2 with rfl | rfl <;> exact herr
      · rcases hending.2 with rfl | rfl <;> exact hending.1
    refine hret.congr rfl hnone (drop_calls_of_le ?_ _) (by simp [returning, hpc, inFlush])
    cases err <;> simp [calls, settle, hpc, inFlush]
  case case21.refl i err items hi =>
    refine (hs.asyncReturns hi).congr rfl hnone (drop_calls_of_le ?_ _)
      (by simp [returning, hi])
    have hlen := length_eraseIdx_le s.writer.running i
    cases err <;> simp only [calls, settle, length_append] <;> omega
  case case25.refl hpc hrun =>
    refine (hs.wait hpc (isEmpty_iff.mp hrun)).congr rfl hnone ?_ (append_nil _)
    simp [calls, hpc, inFlush]

/-- Every event keeps the invariant. -/
theorem step_inv (s : BatchRun T) (e : BatchEvent) (s' : BatchRun T) (hs : s.Inv b)
    (h : s.step b e = some s') : s'.Inv b := by
  cases e with
  | send r =>
    obtain ⟨-, h⟩ := ite_none_left_eq_some.mp h
    exact some.inj h ▸ { hs with }
  | close =>
    obtain ⟨-, h⟩ := ite_none_left_eq_some.mp h
    exact some.inj h ▸ { hs with }
  | cancel => exact some.inj h ▸ { hs with }
  | loop e => exact loop_inv hs h

/-- If no flush has failed when the loop returns, everything it received is flushed. -/
theorem Inv.delivered (hs : s.Inv b) (hpc : s.writer.pc = .returned err) (hok : ¬ s.Failing) : s.Delivered b := by
  have hending := hs.ending
  rw [hpc] at hending
  obtain ⟨hbatch, hrunning⟩ := hending.resolve_left hok
  have hcalls : s.writer.calls = [] := by
    simp [Writer.calls, hpc, hrunning, inFlush]
  have hconserved := hs.conserved
  simp only [hbatch, hpc, incoming, append_nil] at hconserved
  exact {
    begun := hconserved
    ended := by
      have := hs.calls
      rwa [hcalls, append_nil] at this
    ok := by
      intro call hmem
      by_contra hne
      exact hok ⟨call, hmem, isSome_iff_ne_none.mpr hne⟩
    sync := fun hsync => by
      have := (hs.sync hsync).2
      rw [hcalls, append_nil] at this
      rw [this, hconserved] }

/-- For every batch size, every mode, every order of the events and every outcome of the flushes:
    the batches passed to `flush`, put together in the order of the calls, are an initial piece of
    the entries in arrival order, so no entry is in two of them; if `run` returns nil, or if it
    returns in any way and no flush has failed, then every entry received is in one of them and
    every flush has returned nil. -/
theorem batch_conservation {es : List BatchEvent} {s : BatchRun T}
    (h : Run.exec (step b) {} es = some s) :
    s.begun.flatten <+: s.received.filterMap b.convert ∧
      (s.writer.pc = .returned none → s.Delivered b) ∧
      ((∀ call ∈ s.ended, call.2 = none) →
        ∀ err, s.writer.pc = .returned err → s.Delivered b) := by
  have hs : s.Inv b := Run.exec_invariant step_inv (initial_inv b) h
  refine ⟨⟨_, (append_assoc ..).symm.trans hs.conserved⟩, ?_, ?_⟩
  · intro hpc
    refine hs.delivered hpc fun hfailing => ?_
    have hfailed := hs.failed hfailing
    rw [hpc] at hfailed
    rcases hfailed with ⟨-, hret⟩ | herrs
    · exact hret none rfl
    · cases herrs
  · intro hok err hpc
    refine hs.delivered hpc ?_
    rintro ⟨call, hmem, hcall⟩
    rw [hok call hmem] at hcall
    cases hcall

/-- A Kafka sink with batches of two offsets, which skips the records without a key. -/
def asyncPairs : BatchWriter Int where
  batchSize := 2
  async := true
  convert r := if r.key.isEmpty then none else some r.offset

/-- Four records come in, one of them without a key. The two flushes return in the other order, the
    second one after the context was cancelled. -/
def cancelWhileFlushing : List BatchEvent :=
  [.send { key := [1], offset := 1 }, .send { offset := 2 }, .send { key := [1], offset := 3 },
    .send { key := [1], offset := 4 }, .loop .take, .loop .add, .loop .take, .loop .add,
    .loop .take, .loop .add, .cancel, .close, .loop .ctxDone, .loop .take, .loop .add,
    .loop .inClosed, .loop (.asyncReturns 1 none), .loop (.asyncReturns 0 none), .loop .wait]

/-- All three entries are in one flush each. -/
theorem batch_conservation_cancelled :
    ∃ s, Run.exec (step asyncPairs) {} cancelWhileFlushing = some s ∧
      s.writer.pc = .returned (some contextCanceled) ∧ s.begun = [[1, 3], [4]] ∧
      s.ended = [([4], none), ([1, 3], none)] ∧ s.Delivered asyncPairs := by
  have hobs : (Run.exec (step asyncPairs) {} cancelWhileFlushing).map
      (fun s => (s.writer.pc, s.begun, s.ended)) =
      some (.returned (some contextCanceled), [[1, 3], [4]], [([4], none), ([1, 3], none)]) := rfl
  obtain ⟨s, hs, hobs⟩ := map_eq_some_iff.mp hobs
  simp only [Prod.mk.injEq] at hobs
  obtain ⟨hpc, hbegun, hended⟩ := hobs
  refine ⟨s, hs, hpc, hbegun, hended, (batch_conservation hs).2.2 ?_ _ hpc⟩
  rw [hended]
  decide

end BatchRun

end Weibo
