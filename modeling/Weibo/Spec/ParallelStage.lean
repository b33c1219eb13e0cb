import Weibo.Model.ParallelStage
import Weibo.Spec.MergeProgress

/-!
# A parallel stage runs its workers to the end

What the router has taken reaches the workers, what a worker has consumed is what it makes, and what
it makes goes through the merge: `Inv` ties the parts of a running stage together. A stage in which
nothing can step has returned: if the router cannot get a record to a worker, that worker is held up
by the merge, which then waits for a worker the router has served already.

## Key results

- `completes`: a stage can always be brought to its end, and there its output is
  an aligned merge of what the workers make of their lanes of the input.
-/

namespace Weibo

open Function List Option Record RouterPc Transducer

/-- A `Process` loop on a whole input, with the flush at its end. -/
def OperatorLoop.Completes (M : OperatorLoop) (init : M.State) (src dst : List Record) : Prop :=
  ∃ (done : List (KeyOrder × Record)) (order : KeyOrder), done.map Prod.snd = src ∧
    dst = M.toTransducer.outs init done ++ M.flush order (M.toTransducer.state init done)

namespace RouterPc

variable {n : ℕ}

/-- What the router has in hand for a worker. -/
def inHand : RouterPc n → Fin n → List Record
  | .sending v r, w => if v = w then [r] else []
  | .broadcasting r k, w => if k ≤ w.val then [r] else []
  | _, _ => []

/-- Whether the router has closed a worker's input. -/
def hasClosed : RouterPc n → Fin n → Bool
  | .closing k, w => decide (w.val < k)
  | .done, _ => true
  | _, _ => false

/-- Only markers are broadcast, and only an input that is used up is closed. -/
def Ok : RouterPc n → List Record → Prop
  | .receiving, _ => True
  | .sending _ r, _ => r.isMarker = false
  | .broadcasting r k, _ => r.isMarker = true ∧ k < n
  | .closing k, input => k < n ∧ input = []
  | .done, input => input = []

variable {k : ℕ}

/-- The marker that the workers from `k` on still get is one for worker `k` and one for those behind
    it. -/
theorem inHand_broadcasting (r : Record) (hk : k < n) (w : Fin n) :
    (broadcasting r k : RouterPc n).inHand w = (if w = ⟨k, hk⟩ then [r] else []) ++
      (if k + 1 < n then .broadcasting r (k + 1) else .receiving : RouterPc n).inHand w := by
  have hlt := w.isLt
  have hrest : (if k + 1 < n then .broadcasting r (k + 1) else .receiving : RouterPc n).inHand w =
      if k + 1 ≤ w.val then [r] else [] := by
    by_cases hnext : k + 1 < n
    · rw [if_pos hnext, inHand]
    · rw [if_neg hnext, if_neg (by omega)]
      rfl
  rw [hrest, inHand]
  by_cases hw : w = ⟨k, hk⟩
  · subst hw
    simp
  · have hne : w.val ≠ k := fun heq => hw (Fin.ext heq)
    rw [if_neg hw, nil_append]
    exact if_congr (by omega) rfl rfl

/-- The next input that is closed is that of worker `k`. -/
theorem hasClosed_closing (hk : k < n) (w : Fin n) :
    (if k + 1 < n then .closing (k + 1) else .done : RouterPc n).hasClosed w =
      (decide (w = ⟨k, hk⟩) || (closing k : RouterPc n).hasClosed w) := by
  have hlt := w.isLt
  have hiff : w = ⟨k, hk⟩ ↔ w.val = k := Fin.ext_iff
  rw [Bool.eq_iff_iff]
  by_cases hnext : k + 1 < n
  · rw [if_pos hnext]
    simp only [hasClosed, Bool.or_eq_true, decide_eq_true_eq, hiff]
    omega
  · rw [if_neg hnext]
    simp only [hasClosed, Bool.or_eq_true, decide_eq_true_eq, hiff, true_iff]
    omega

end RouterPc

namespace ParallelStage

variable {n : ℕ} {M : OperatorLoop} {R : Router Record Record.isMarker n}
  {s s' : ParallelStage M R} {w : Fin n}

/-! ## What a step does -/

/-- What one step can do to a stage, with its guard. -/
inductive Move (s : ParallelStage M R) : ParallelStage M R → Prop
  | marker {r : Record} {rest : List Record} (hpc : s.router = .receiving)
      (hin : s.input = r :: rest) (hr : r.isMarker = true) :
      Move s { s with input := rest, router := .broadcasting r 0 }
  | data {r : Record} {rest : List Record} (hpc : s.router = .receiving)
      (hin : s.input = r :: rest) (hr : r.isMarker = false) :
      Move s { s with
        input := rest
        cursor := (R.route s.cursor r).1
        router := .sending (R.route s.cursor r).2.2 (R.route s.cursor r).2.1 }
  | eof (hpc : s.router = .receiving) (hin : s.input = []) :
      Move s { s with router := .closing 0 }
  | sendData {w : Fin n} {r : Record} (hpc : s.router = .sending w r) :
      Move s { s with
        workerIns := Function.update s.workerIns w
          ((s.workerIns w).withBuf ((s.workerIns w).buf ++ [r]))
        router := .receiving }
  | sendMarker {r : Record} {k : ℕ} (hpc : s.router = .broadcasting r k) (hk : k < n) :
      Move s { s with
        workerIns := Function.update s.workerIns ⟨k, hk⟩
          ((s.workerIns ⟨k, hk⟩).withBuf ((s.workerIns ⟨k, hk⟩).buf ++ [r]))
        router := if k + 1 < n then .broadcasting r (k + 1) else .receiving }
  | close {k : ℕ} (hpc : s.router = .closing k) (hk : k < n) :
      Move s { s with
        workerIns := Function.update s.workerIns ⟨k, hk⟩ (s.workerIns ⟨k, hk⟩).close
        router := if k + 1 < n then .closing (k + 1) else .done }
  | take {w : Fin n} {order : KeyOrder} {r : Record} {rest : List Record}
      (htodo : s.outputs.todo w = []) (hended : s.ended w = false)
      (hbuf : (s.workerIns w).buf = r :: rest) :
      Move s { s with
        workerIns := Function.update s.workerIns w ((s.workerIns w).withBuf rest)
        states := Function.update s.states w (M.toTransducer.step (s.states w) (order, r)).1
        outputs := s.outputs.refill w (M.toTransducer.step (s.states w) (order, r)).2 }
  | flush {w : Fin n} {order : KeyOrder} (htodo : s.outputs.todo w = [])
      (hended : s.ended w = false) (hbuf : (s.workerIns w).buf = [])
      (hclosed : (s.workerIns w).closed = true) :
      Move s { s with
        ended := Function.update s.ended w true
        outputs := s.outputs.refill w (M.flush order (s.states w)) }
  | output {e : MergeRun.Event n} {outputs : MergeRun n} (hstep : s.outputs.step e = some outputs)
      (hfinish : ∀ w, e = .finish w → s.ended w = true) : Move s { s with outputs := outputs }

theorem waiting_eq (h : s.waiting w = true) : s.outputs.todo w = [] ∧ s.ended w = false := by
  simpa [waiting] using h

theorem waiting_of (htodo : s.outputs.todo w = []) (hended : s.ended w = false) :
    s.waiting w = true := by
  simp [waiting, htodo, hended]

theorem move_of_receive (h : s.receive = some s') : Move s s' := by
  revert h
  fun_cases receive s <;> intro h <;> cases h
  case case1.refl hin hpc hr => exact .marker hpc hin hr
  case case2.refl hin hpc hr _ _ _ hroute =>
    have hdata := Move.data hpc hin (by simpa using hr)
    rw [hroute] at hdata
    exact hdata
  case case3.refl hin hpc => exact .eof hpc hin

theorem move_of_send (h : s.send = some s') : Move s s' := by
  revert h
  fun_cases send s <;> intro h <;> try cases h
  all_goals
    obtain ⟨c, hsend, rfl⟩ := map_eq_some_iff.mp h
    rw [Chan.send_eq_some hsend]
  · exact .sendData ‹_›
  · exact .sendMarker ‹_› ‹_›

theorem move_of_close (h : s.close = some s') : Move s s' := by
  revert h
  fun_cases close s <;> intro h <;> cases h
  exact .close ‹_› ‹_›

theorem move_of_take {order : KeyOrder} (h : s.take w order = some s') : Move s s' := by
  unfold take at h
  obtain ⟨hwait, h⟩ := ite_none_right_eq_some.mp h
  obtain ⟨htodo, hended⟩ := waiting_eq hwait
  split at h
  case h_1 r c hrecv =>
    obtain ⟨hbuf, hc⟩ := Chan.recv_eq_some hrecv
    cases h
    rw [hc]
    exact .take htodo hended hbuf
  case h_2 hrecv =>
    obtain ⟨hbuf, hclosed, -⟩ := Chan.recv_eq_none_some hrecv
    cases h
    exact .flush htodo hended hbuf hclosed
  case h_3 => simp at h

theorem move_of_output {e : MergeRun.Event n} (h : s.output e = some s') : Move s s' := by
  unfold output at h
  split at h
  case h_1 w =>
    obtain ⟨hended, h⟩ := ite_none_right_eq_some.mp h
    obtain ⟨outputs, hstep, rfl⟩ := map_eq_some_iff.mp h
    refine .output hstep ?_
    intro v hv
    cases hv
    exact hended
  case h_2 e hne =>
    obtain ⟨outputs, hstep, rfl⟩ := map_eq_some_iff.mp h
    exact .output hstep fun w hw => absurd hw (hne w)

/-- A step is one of these moves. -/
theorem move_of_step {e : Event n} (h : step s e = some s') : Move s s' := by
  cases e with
  | receive => exact move_of_receive h
  | send => exact move_of_send h
  | close => exact move_of_close h
  | take w order => exact move_of_take h
  | output e => exact move_of_output h

/-! ## The parts together -/

/-- The history of a run: what the router has taken, what it has given to each worker, what each
    worker has consumed, what it has made of it, and what of that it has sent. -/
structure History (n : ℕ) where
  taken : List Record
  given : Fin n → List Record
  done : Fin n → List (KeyOrder × Record)
  made : Fin n → List Record
  sent : Fin n → List Record

/-- What holds in every state of a stage that was started with `init`, `cursor` and `input`. -/
structure Inv (init : Fin n → M.State) (cursor : R.Cursor) (input : List Record)
    (s : ParallelStage M R) (h : History n) : Prop where
  taken_eq : input = h.taken ++ s.input
  cursor_eq : ∀ w, s.cursor = (R.lane w).state cursor h.taken
  given_eq : ∀ w, (R.lane w).outs cursor h.taken = h.given w ++ s.router.inHand w
  router_ok : s.router.Ok s.input
  closed_eq : ∀ w, (s.workerIns w).closed = s.router.hasClosed w
  done_eq : ∀ w, h.given w = (h.done w).map Prod.snd ++ (s.workerIns w).buf
  state_eq : ∀ w, s.states w = M.toTransducer.state (init w) (h.done w)
  made_eq : ∀ w, s.ended w = false → h.made w = M.toTransducer.outs (init w) (h.done w)
  flushed : ∀ w, s.ended w = true → (s.workerIns w).closed = true ∧ (s.workerIns w).buf = [] ∧
    ∃ order, h.made w =
      M.toTransducer.outs (init w) (h.done w) ++ M.flush order (s.states w)
  outputs : MergeRun.Inv h.made s.outputs h.sent
  ended : ∀ w, (s.outputs.merge.workerOuts w).closed = true → s.ended w = true

variable {init : Fin n → M.State} {cursor : R.Cursor} {input : List Record} {h : History n}
  {r : Record} {rest : List Record} {v : Fin n}

theorem inv_start (pos : 0 < n) (caps : StageCaps n) :
    Inv init cursor input (start caps init cursor input : ParallelStage M R)
      ⟨[], fun _ => [], fun _ => [], fun _ => [], fun _ => []⟩ where
  taken_eq := rfl
  cursor_eq _ := rfl
  given_eq _ := rfl
  router_ok := trivial
  closed_eq _ := rfl
  done_eq _ := rfl
  state_eq _ := rfl
  made_eq _ _ := rfl
  flushed _ hw := absurd hw (by simp [start])
  outputs := MergeRun.inv_start pos caps.toMergeCaps
  ended _ hw := absurd hw (by simp [start, MergeRun.start, AlignedMerge.start, Chan.make])

section Steps

variable (hinv : Inv init cursor input s h)

include hinv

/-- The markers a worker has made are those it has consumed, as far as they pass. -/
theorem Inv.made_markers (w : Fin n) : (h.made w).filter isMarker =
      (((h.done w).map Prod.snd).filter isMarker).filter M.passes := by
  cases hended : s.ended w with
  | false => rw [hinv.made_eq w hended, M.outs_align isMarker_of_isCut]
  | true =>
    obtain ⟨-, -, order, hmade⟩ := hinv.flushed w hended
    rw [hmade, filter_append, M.flush_align, append_nil, M.outs_align isMarker_of_isCut]

/-- They come from the markers given to it. -/
theorem Inv.made_prefix (w : Fin n) : (h.made w).filter isMarker <+:
      ((h.given w).filter isMarker).filter M.passes := by
  rw [hinv.made_markers w, hinv.done_eq w, filter_append, filter_append]
  exact prefix_append _ _

/-- All workers make their markers from those the router has taken. -/
theorem Inv.common (w : Fin n) : (h.made w).filter isMarker <+:
      (h.taken.filter isMarker).filter M.passes := by
  refine (hinv.made_prefix w).trans ?_
  rw [← R.lane_filter w cursor h.taken, hinv.given_eq w, filter_append, filter_append]
  exact prefix_append _ _

/-- A worker with an open input has not ended and has an open output. -/
theorem Inv.open_of_not_ended (hended : s.ended w = false) : (s.outputs.merge.workerOuts w).closed = false := by
  cases hclosed : (s.outputs.merge.workerOuts w).closed with
  | false => rfl
  | true => exact absurd (hended.symm.trans (hinv.ended w hclosed)) (by decide)

theorem inv_marker (hpc : s.router = .receiving) (hin : s.input = r :: rest)
    (hr : r.isMarker = true) (pos : 0 < n) :
    Inv init cursor input { s with input := rest, router := .broadcasting r 0 }
      { h with taken := h.taken ++ [r] } := by
  refine { hinv with
    taken_eq := ?_, cursor_eq := ?_, given_eq := ?_, router_ok := ⟨hr, pos⟩, closed_eq := ?_ }
  · rw [hinv.taken_eq, hin, append_assoc, singleton_append]
  · intro w
    rw [state_snoc, R.lane_step_of_align w _ hr]
    exact hinv.cursor_eq w
  · intro w
    have hgiven := hinv.given_eq w
    rw [hpc] at hgiven
    rw [outs_snoc, R.lane_step_of_align w _ hr, hgiven]
    simp [inHand]
  · intro w
    rw [hinv.closed_eq w, hpc]
    rfl

theorem inv_data
    (hpc : s.router = .receiving) (hin : s.input = r :: rest) (hr : r.isMarker = false) :
    Inv init cursor input { s with
        input := rest
        cursor := (R.route s.cursor r).1
        router := .sending (R.route s.cursor r).2.2 (R.route s.cursor r).2.1 }
      { h with taken := h.taken ++ [r] } := by
  refine { hinv with
    taken_eq := ?_, cursor_eq := ?_, given_eq := ?_,
    router_ok := R.route_align s.cursor r hr, closed_eq := ?_ }
  · rw [hinv.taken_eq, hin, append_assoc, singleton_append]
  · intro w
    rw [state_snoc, ← hinv.cursor_eq w, R.lane_step_of_not_align w _ hr]
  · intro w
    have hgiven := hinv.given_eq w
    rw [hpc] at hgiven
    rw [outs_snoc, ← hinv.cursor_eq w, R.lane_step_of_not_align w _ hr, hgiven]
    simp [inHand]
  · intro w
    rw [hinv.closed_eq w, hpc]
    rfl

theorem inv_eof (hpc : s.router = .receiving) (hin : s.input = []) (pos : 0 < n) :
    Inv init cursor input { s with router := .closing 0 } h := by
  refine { hinv with given_eq := ?_, router_ok := ⟨pos, hin⟩, closed_eq := ?_ }
  · intro w
    have hgiven := hinv.given_eq w
    rw [hpc] at hgiven
    exact hgiven
  · intro w
    rw [hinv.closed_eq w, hpc]
    simp [hasClosed]

/-- A record arrives at a worker: of the router's hand nothing else changes. -/
theorem inv_send {router : RouterPc n} (hok : router.Ok s.input)
    (hclosed : ∀ v, router.hasClosed v = s.router.hasClosed v)
    (hopen : (s.workerIns w).closed = false)
    (hhand : ∀ v, s.router.inHand v = (if v = w then [r] else []) ++ router.inHand v) :
    Inv init cursor input { s with
        workerIns := update s.workerIns w ((s.workerIns w).withBuf ((s.workerIns w).buf ++ [r]))
        router := router }
      { h with given := update h.given w (h.given w ++ [r]) } := by
  refine { hinv with
    given_eq := ?_, router_ok := hok, closed_eq := ?_, done_eq := ?_, flushed := ?_ }
  · intro v
    rw [hinv.given_eq v, hhand v]
    by_cases hv : v = w
    · subst hv
      simp
    · simp [update_of_ne hv, if_neg hv]
  · intro v
    rw [hclosed v, ← hinv.closed_eq v]
    by_cases hv : v = w
    · subst hv
      simp
    · simp only [update_of_ne hv]
  · intro v
    by_cases hv : v = w
    · subst hv
      simp only [update_self, Chan.withBuf_buf]
      rw [hinv.done_eq v, append_assoc]
    · simp only [update_of_ne hv]
      exact hinv.done_eq v
  · intro v hv
    have hvw : v ≠ w := by
      rintro rfl
      exact absurd (hopen.symm.trans (hinv.flushed v hv).1) (by decide)
    simp only [update_of_ne hvw]
    exact hinv.flushed v hv

theorem inv_sendData (hpc : s.router = .sending w r) : Inv init cursor input { s with
        workerIns := update s.workerIns w ((s.workerIns w).withBuf ((s.workerIns w).buf ++ [r]))
        router := .receiving }
      { h with given := update h.given w (h.given w ++ [r]) } := by
  refine inv_send hinv trivial ?_ ?_ ?_
  · intro v
    rw [hpc]
    rfl
  · rw [hinv.closed_eq w, hpc]
    rfl
  · intro v
    rw [hpc]
    simp [inHand, eq_comm]

theorem inv_sendMarker (hpc : s.router = .broadcasting r k) (hk : k < n) :
    Inv init cursor input { s with
        workerIns := update s.workerIns ⟨k, hk⟩
          ((s.workerIns ⟨k, hk⟩).withBuf ((s.workerIns ⟨k, hk⟩).buf ++ [r]))
        router := if k + 1 < n then .broadcasting r (k + 1) else .receiving }
      { h with given := update h.given ⟨k, hk⟩ (h.given ⟨k, hk⟩ ++ [r]) } := by
  have hok := hinv.router_ok
  rw [hpc] at hok
  refine inv_send hinv ?_ ?_ ?_ ?_
  · split
    case isTrue hlt => exact ⟨hok.1, hlt⟩
    case isFalse => trivial
  · intro v
    rw [hpc]
    split <;> rfl
  · rw [hinv.closed_eq, hpc]
    rfl
  · intro v
    rw [hpc]
    exact inHand_broadcasting r hk v

theorem inv_close (hpc : s.router = .closing k) (hk : k < n) : Inv init cursor input { s with
        workerIns := update s.workerIns ⟨k, hk⟩ (s.workerIns ⟨k, hk⟩).close
        router := if k + 1 < n then .closing (k + 1) else .done } h := by
  have hok := hinv.router_ok
  rw [hpc] at hok
  have hbuf : ∀ v, (update s.workerIns ⟨k, hk⟩ (s.workerIns ⟨k, hk⟩).close v).buf =
      (s.workerIns v).buf := by
    intro v
    by_cases hv : v = ⟨k, hk⟩
    · subst hv
      rw [update_self, Chan.close_buf]
    · rw [update_of_ne hv]
  refine { hinv with given_eq := ?_, router_ok := ?_, closed_eq := ?_, done_eq := ?_, flushed := ?_ }
  · intro v
    have hgiven := hinv.given_eq v
    rw [hpc] at hgiven
    rw [hgiven]
    split <;> rfl
  · split
    case isTrue hlt => exact ⟨hlt, hok.2⟩
    case isFalse => exact hok.2
  · intro v
    have hclosed := hinv.closed_eq v
    rw [hpc] at hclosed
    rw [hasClosed_closing hk v, ← hclosed]
    by_cases hv : v = ⟨k, hk⟩
    · subst hv
      simp
    · simp only [update_of_ne hv, hv, decide_false, Bool.false_or]
  · intro v
    rw [hbuf v]
    exact hinv.done_eq v
  · intro v hv
    obtain ⟨hclosed, hempty, hmade⟩ := hinv.flushed v hv
    refine ⟨?_, (hbuf v).trans hempty, hmade⟩
    by_cases hvk : v = ⟨k, hk⟩
    · subst hvk
      simp
    · simp only [update_of_ne hvk]
      exact hclosed

theorem inv_take {order : KeyOrder} (htodo : s.outputs.todo w = []) (hended : s.ended w = false)
    (hbuf : (s.workerIns w).buf = r :: rest) :
    Inv init cursor input { s with
        workerIns := update s.workerIns w ((s.workerIns w).withBuf rest)
        states := update s.states w (M.toTransducer.step (s.states w) (order, r)).1
        outputs := s.outputs.refill w (M.toTransducer.step (s.states w) (order, r)).2 }
      { h with
        done := update h.done w (h.done w ++ [(order, r)])
        made := update h.made w
          (h.made w ++ (M.toTransducer.step (s.states w) (order, r)).2) } := by
  refine { hinv with
    closed_eq := ?_, done_eq := ?_, state_eq := ?_, made_eq := ?_, flushed := ?_,
    outputs := hinv.outputs.refill htodo (hinv.open_of_not_ended hended) _ }
  · intro v
    rw [← hinv.closed_eq v]
    by_cases hv : v = w
    · subst hv
      simp
    · simp only [update_of_ne hv]
  · intro v
    by_cases hv : v = w
    · subst hv
      simp only [update_self, Chan.withBuf_buf, map_append, map_cons,
        map_nil, append_assoc, singleton_append]
      rw [hinv.done_eq v, hbuf]
    · simp only [update_of_ne hv]
      exact hinv.done_eq v
  · intro v
    by_cases hv : v = w
    · subst hv
      simp only [update_self]
      rw [state_snoc, ← hinv.state_eq v]
    · simp only [update_of_ne hv]
      exact hinv.state_eq v
  · intro v hvended
    by_cases hv : v = w
    · subst hv
      simp only [update_self]
      rw [outs_snoc, ← hinv.state_eq v, hinv.made_eq v hended]
    · simp only [update_of_ne hv]
      exact hinv.made_eq v hvended
  · intro v hvended
    have hv : v ≠ w := by
      rintro rfl
      exact absurd (hended.symm.trans hvended) (by decide)
    simp only [update_of_ne hv]
    exact hinv.flushed v hvended

theorem inv_flush {order : KeyOrder} (htodo : s.outputs.todo w = []) (hended : s.ended w = false)
    (hbuf : (s.workerIns w).buf = []) (hclosed : (s.workerIns w).closed = true) :
    Inv init cursor input { s with
        ended := update s.ended w true
        outputs := s.outputs.refill w (M.flush order (s.states w)) }
      { h with made := update h.made w (h.made w ++ M.flush order (s.states w)) } := by
  refine { hinv with
    made_eq := ?_, flushed := ?_, ended := ?_,
    outputs := hinv.outputs.refill htodo (hinv.open_of_not_ended hended) _ }
  · intro v hvended
    have hv : v ≠ w := by
      rintro rfl
      simp at hvended
    simp only [update_of_ne hv] at hvended ⊢
    exact hinv.made_eq v hvended
  · intro v hvended
    by_cases hv : v = w
    · subst hv
      simp only [update_self]
      exact ⟨hclosed, hbuf, order, by rw [hinv.made_eq v hended]⟩
    · simp only [update_of_ne hv] at hvended ⊢
      exact hinv.flushed v hvended
  · intro v hvclosed
    by_cases hv : v = w
    · subst hv
      exact update_self ..
    · simp only [update_of_ne hv]
      exact hinv.ended v hvclosed

theorem inv_output {e : MergeRun.Event n} {outputs : MergeRun n}
    (hstep : s.outputs.step e = some outputs) (hfinish : ∀ w, e = .finish w → s.ended w = true) :
    ∃ sent, Inv init cursor input { s with outputs := outputs } { h with sent := sent } := by
  obtain ⟨sent, houtputs⟩ := MergeRun.inv_step hinv.outputs hinv.common e hstep
  refine ⟨sent, { hinv with outputs := houtputs, ended := ?_ }⟩
  intro w hclosed
  cases hopen : (s.outputs.merge.workerOuts w).closed with
  | true => exact hinv.ended w hopen
  | false => exact hfinish w (MergeRun.finish_of_closed hstep hopen hclosed)

end Steps

/-- Every move keeps the parts together. -/
theorem inv_move (pos : 0 < n) (hinv : Inv init cursor input s h) (hmove : Move s s') :
    ∃ h', Inv init cursor input s' h' := by
  cases hmove with
  | marker hpc hin hr => exact ⟨_, inv_marker hinv hpc hin hr pos⟩
  | data hpc hin hr => exact ⟨_, inv_data hinv hpc hin hr⟩
  | eof hpc hin => exact ⟨_, inv_eof hinv hpc hin pos⟩
  | sendData hpc => exact ⟨_, inv_sendData hinv hpc⟩
  | sendMarker hpc hk => exact ⟨_, inv_sendMarker hinv hpc hk⟩
  | close hpc hk => exact ⟨_, inv_close hinv hpc hk⟩
  | take htodo hended hbuf => exact ⟨_, inv_take hinv htodo hended hbuf⟩
  | flush htodo hended hbuf hclosed => exact ⟨_, inv_flush hinv htodo hended hbuf hclosed⟩
  | output hstep hfinish =>
    obtain ⟨sent, hinv'⟩ := inv_output hinv hstep hfinish
    exact ⟨_, hinv'⟩

theorem inv_reachable (pos : 0 < n) (caps : StageCaps n) {es : List (Event n)}
    (hs : Run.exec step (start caps init cursor input) es = some s) :
    ∃ h, Inv init cursor input s h := by
  refine Run.exec_invariant (I := fun s => ∃ h, Inv init cursor input s h) ?_
    ⟨_, inv_start pos caps⟩ hs
  rintro s e s' ⟨h, hinv⟩ hstep
  exact inv_move pos hinv (move_of_step hstep)

/-! ## Progress -/

theorem merge_stuck (hstuck : Run.Stuck step s) : Run.Stuck AlignedMerge.step s.outputs.merge := by
  intro e
  have he := hstuck (.output (.merge e))
  simp only [step, output, MergeRun.step, map_eq_none_iff] at he
  exact he

/-- A worker whose forwarder waits for it waits for the router. -/
theorem idle_of_starved (hstuck : Run.Stuck step s) (hw : s.outputs.merge.Starved w) :
    s.outputs.todo w = [] ∧ s.ended w = false ∧ (s.workerIns w).buf = [] ∧
      (s.workerIns w).closed = false := by
  obtain ⟨hpc, hbuf, hopen⟩ := hw
  have htodo : s.outputs.todo w = [] := by
    cases htodo : s.outputs.todo w with
    | nil => rfl
    | cons r rest =>
      have hsend := Chan.send_isSome_of_waiting hbuf r
      have hwork := hstuck.not_isSome (.output (.work w))
      simp only [step, output, MergeRun.step, htodo, AlignedMerge.put, hpc, beq_self_eq_true,
        isSome_map] at hwork
      exact absurd hsend hwork
  have hended : s.ended w = false := by
    cases hended : s.ended w with
    | false => rfl
    | true =>
      have hfinish := hstuck (.output (.finish w))
      simp only [step, output, hended, if_true, MergeRun.step, htodo, hopen, and_self,
        map_some] at hfinish
      simp at hfinish
  refine ⟨htodo, hended, Chan.recv_eq_none ?_⟩
  have htake := hstuck (.take w ⟨id, fun l => List.Perm.refl l⟩)
  simp only [step, take, waiting_of htodo hended, if_true] at htake
  cases hrecv : (s.workerIns w).recv with
  | none => rfl
  | some x =>
    obtain ⟨o, c⟩ := x
    rw [hrecv] at htake
    cases o <;> simp at htake

section Stuck

variable (hinv : Inv init cursor input s h)

include hinv

/-- A worker the router cannot get a record to is held up by the merge. -/
theorem parked_of_blocked (hstuck : Run.Stuck step s) (hloop : s.outputs.merge.loop = .receiving k)
    (hblocked : (s.workerIns v).send (s.waiting v) r = none)
    (hopen : (s.workerIns v).closed = false) : s.outputs.merge.lanes.parked v = true := by
  have hended : s.ended v = false := by
    cases hended : s.ended v with
    | false => rfl
    | true => exact absurd (hopen.symm.trans (hinv.flushed v hended).1) (by decide)
  rcases AlignedMerge.forwarder_of_stuck hloop (merge_stuck hstuck) v with hstarved | hparked | hdone
  · -- then it would wait at its input
    obtain ⟨htodo, -, hbuf, -⟩ := idle_of_starved hstuck hstarved
    have hsend := Chan.send_isSome_of_waiting hbuf r
    rw [waiting_of htodo hended] at hblocked
    exact absurd hsend (by rw [hblocked]; decide)
  · exact hparked
  · have hclosed := (hinv.outputs.sound.done v hdone).1
    exact absurd (hended.symm.trans (hinv.ended v hclosed)) (by decide)

/-- A worker that waits for the router has made all markers it was given. -/
theorem made_of_idle (htodo : s.outputs.todo w = []) (hbuf : (s.workerIns w).buf = []) :
    (h.sent w).filter isMarker = ((h.given w).filter isMarker).filter M.passes := by
  have hsent : h.made w = h.sent w := by
    rw [hinv.outputs.seqs_eq w, htodo, append_nil]
  rw [← hsent, hinv.made_markers w, hinv.done_eq w, hbuf, append_nil]

/-- A worker that is held up while the merge waits for `w` has got a marker that `w` has not got. -/
theorem given_behind (hloop : s.outputs.merge.loop = .receiving k)
    (hempty : s.outputs.merge.fanIn.buf = []) (hv : s.outputs.merge.lanes.parked v = true)
    (hw : s.outputs.merge.Starved w) (htodo : s.outputs.todo w = [])
    (hbuf : (s.workerIns w).buf = []) :
    ¬ (h.given v).filter isMarker <+: (h.given w).filter isMarker := by
  intro hpre
  apply hinv.outputs.sound.idle_behind hloop hempty hv (AlignedMerge.Sound.idle_of_starved hw)
  rw [made_of_idle hinv htodo hbuf]
  have hsent : (h.sent v).filter isMarker <+: (h.made v).filter isMarker := by
    rw [hinv.outputs.seqs_eq v, filter_append]
    exact prefix_append _ _
  exact (hsent.trans (hinv.made_prefix v)).trans (hpre.filter _)

/-- The markers a worker was given, and what the router has in hand of them, are those taken. -/
theorem Inv.given_markers (w : Fin n) :
    (h.given w).filter isMarker ++ (s.router.inHand w).filter isMarker =
      h.taken.filter isMarker := by
  rw [← filter_append, ← hinv.given_eq w, R.lane_filter]

/-- The worker that is served next has got no marker that another one has not got. -/
theorem given_le_of_sending (hpc : s.router = .sending v r) :
    (h.given v).filter isMarker <+: (h.given w).filter isMarker := by
  have hok := hinv.router_ok
  rw [hpc] at hok
  have hnone : ∀ u, (s.router.inHand u).filter isMarker = [] := by
    intro u
    rw [hpc, inHand]
    split
    · rw [filter_cons_of_neg (by rw [hok]; decide), filter_nil]
    · rfl
  have hv := hinv.given_markers v
  have hw := hinv.given_markers w
  rw [hnone, append_nil] at hv hw
  rw [hv, hw]

theorem given_le_of_broadcasting (hpc : s.router = .broadcasting r k) (hk : k < n) :
    (h.given ⟨k, hk⟩).filter isMarker <+: (h.given w).filter isMarker := by
  have hv := hinv.given_markers ⟨k, hk⟩
  have hw := hinv.given_markers w
  rw [hpc] at hv hw
  simp only [inHand, Nat.le_refl, if_true] at hv hw
  by_cases hle : k ≤ w.val
  · rw [if_pos hle] at hw
    rw [append_cancel_right (hv.trans hw.symm)]
  · rw [if_neg hle, filter_nil, append_nil] at hw
    rw [hw, ← hv]
    exact prefix_append _ _

/-- Once an input is closed, everything has been taken and given. -/
theorem Inv.given_of_closed (hclosed : (s.workerIns v).closed = true) :
    h.taken = input ∧ ∀ w, h.given w = (R.lane w).outs cursor input := by
  have hok := hinv.router_ok
  have hhas := (hinv.closed_eq v).symm.trans hclosed
  have hin : s.input = [] ∧ ∀ w, s.router.inHand w = [] := by
    cases hpc : s.router with
    | receiving => exact absurd hhas (by rw [hpc]; exact Bool.false_ne_true)
    | sending w r => exact absurd hhas (by rw [hpc]; exact Bool.false_ne_true)
    | broadcasting r k => exact absurd hhas (by rw [hpc]; exact Bool.false_ne_true)
    | closing k =>
      rw [hpc] at hok
      exact ⟨hok.2, fun _ => rfl⟩
    | done =>
      rw [hpc] at hok
      exact ⟨hok, fun _ => rfl⟩
  have htaken : h.taken = input := by rw [hinv.taken_eq, hin.1, append_nil]
  refine ⟨htaken, fun w => ?_⟩
  have hgiven := hinv.given_eq w
  rw [hin.2 w, append_nil, htaken] at hgiven
  exact hgiven.symm

/-- A worker that has closed its output has sent all markers. -/
theorem sent_of_closed (v w : Fin n) (hclosed : (s.outputs.merge.workerOuts v).closed = true) :
    (h.sent w).filter isMarker <+: (h.sent v).filter isMarker := by
  obtain ⟨hin, hbuf, -⟩ := hinv.flushed v (hinv.ended v hclosed)
  obtain ⟨htaken, hgiven⟩ := hinv.given_of_closed hin
  have hsent : (h.sent w).filter isMarker <+: (h.made w).filter isMarker := by
    rw [hinv.outputs.seqs_eq w, filter_append]
    exact prefix_append _ _
  rw [made_of_idle hinv (hinv.outputs.finished v hclosed) hbuf, hgiven v, R.lane_filter, ← htaken]
  exact hsent.trans (hinv.common w)

/-- A stage in which nothing can step has returned. -/
theorem returned_of_stuck (hstuck : Run.Stuck step s) :
    ∃ k, s.outputs.merge.loop = .returned k := by
  have hmerge := merge_stuck hstuck
  rcases hinv.outputs.sound.loop_of_stuck hmerge with ⟨k, hloop⟩ | hret
  · have hempty := (AlignedMerge.fanIn_of_receive_none hloop (hmerge .receive)).1
    rcases hinv.outputs.sound.returned_or_starved (sent_of_closed hinv) hmerge with
      hret | ⟨w, hw⟩
    · exact hret
    obtain ⟨htodo, -, hbuf, hopen⟩ := idle_of_starved hstuck hw
    -- nobody the router could be stuck at is behind `w`
    have hfree : ∀ v r, (s.workerIns v).send (s.waiting v) r = none →
        (s.workerIns v).closed = false →
        ¬ (h.given v).filter isMarker <+: (h.given w).filter isMarker :=
      fun v r hblocked hv => given_behind hinv hloop hempty
        (parked_of_blocked hinv hstuck hloop hblocked hv) hw htodo hbuf
    have hok := hinv.router_ok
    cases hpc : s.router with
    | receiving =>
      have hreceive := hstuck .receive
      simp only [step, receive, hpc] at hreceive
      cases hin : s.input with
      | nil =>
        rw [hin] at hreceive
        simp at hreceive
      | cons r rest =>
        rw [hin] at hreceive
        dsimp only at hreceive
        split at hreceive <;> simp at hreceive
    | sending v r =>
      have hsend := hstuck .send
      simp only [step, send, hpc, map_eq_none_iff] at hsend
      have hv : (s.workerIns v).closed = false := by rw [hinv.closed_eq v, hpc]; rfl
      exact absurd (given_le_of_sending hinv hpc) (hfree v r hsend hv)
    | broadcasting r k =>
      rw [hpc] at hok
      have hsend := hstuck .send
      simp only [step, send, hpc, hok.2, dite_true, map_eq_none_iff] at hsend
      have hv : (s.workerIns ⟨k, hok.2⟩).closed = false := by rw [hinv.closed_eq, hpc]; rfl
      exact absurd (given_le_of_broadcasting hinv hpc hok.2) (hfree _ r hsend hv)
    | closing k =>
      rw [hpc] at hok
      have hclose := hstuck .close
      simp only [step, close, hpc, hok.1, dite_true] at hclose
      simp at hclose
    | done =>
      have hclosed := hinv.closed_eq w
      rw [hpc] at hclosed
      exact absurd (hopen.symm.trans hclosed) Bool.false_ne_true
  · exact hret

end Stuck

/-! ## Termination -/

/-- An upper bound of the steps that are left to the router, and of the records it puts into the
    workers' inputs. -/
def routerWeight : RouterPc n → ℕ
  | .receiving => n + 1
  | .sending _ _ => n + 3
  | .broadcasting _ k => n + 1 + 2 * (n - k)
  | .closing k => n - k
  | .done => 0

/-- What a worker has still to take. -/
def inWeight (s : ParallelStage M R) (w : Fin n) : ℕ :=
  (s.workerIns w).buf.length + if s.ended w then 0 else 1

/-- What the router and the workers have still to take. -/
def takeWeight (s : ParallelStage M R) : ℕ :=
  (2 * n + 3) * s.input.length + routerWeight s.router + ∑ w, s.inWeight w

/-- Taking a record may give a worker any number of records to send, so what is to be taken comes
    first. -/
def weight (s : ParallelStage M R) : ℕ ×ₗ ℕ := toLex (s.takeWeight, s.outputs.weight)

theorem weight_lt_of_take (h : s'.takeWeight < s.takeWeight) : s'.weight < s.weight :=
  Prod.Lex.toLex_lt_toLex.mpr (.inl h)

/-- A record that moves from the router to a worker. -/
theorem takeWeight_send {router : RouterPc n}
    (hrouter : routerWeight router + 2 ≤ routerWeight s.router) :
    takeWeight { s with
        workerIns := update s.workerIns w ((s.workerIns w).withBuf ((s.workerIns w).buf ++ [r]))
        router := router } < s.takeWeight := by
  have hsum := Run.sum_part (f := s.inWeight) (g := inWeight { s with
      workerIns := update s.workerIns w ((s.workerIns w).withBuf ((s.workerIns w).buf ++ [r]))
      router := router }) w fun v hv => by simp only [inWeight, update_of_ne hv]
  simp only [inWeight, update_self, Chan.withBuf_buf, length_append,
    length_cons, length_nil] at hsum
  simp only [takeWeight, inWeight]
  omega

/-- A worker that takes a record or the end of its input. -/
theorem takeWeight_of_worker (w : Fin n) (hoff : ∀ v, v ≠ w → s'.inWeight v = s.inWeight v)
    (hw : s'.inWeight w < s.inWeight w) (hin : s'.input = s.input)
    (hrouter : s'.router = s.router) : s'.takeWeight < s.takeWeight := by
  have hsum := Run.sum_part w hoff
  simp only [takeWeight, hin, hrouter]
  omega

theorem weight_move (h : Move s s') : s'.weight < s.weight := by
  cases h with
  | @marker r rest hpc hin hr =>
    apply weight_lt_of_take
    simp only [takeWeight, hpc, hin, routerWeight, length_cons, Nat.mul_add, Nat.mul_one]
    change _ + ∑ w, s.inWeight w < _
    omega
  | @data r rest hpc hin hr =>
    apply weight_lt_of_take
    simp only [takeWeight, hpc, hin, routerWeight, length_cons, Nat.mul_add, Nat.mul_one]
    change _ + ∑ w, s.inWeight w < _
    omega
  | eof hpc hin =>
    apply weight_lt_of_take
    simp only [takeWeight, hpc, routerWeight]
    change _ + ∑ w, s.inWeight w < _
    omega
  | sendData hpc =>
    apply weight_lt_of_take
    apply takeWeight_send
    rw [hpc]
    exact Nat.le_refl _
  | @sendMarker r k hpc hk =>
    apply weight_lt_of_take
    apply takeWeight_send
    rw [hpc]
    split <;> simp only [routerWeight] <;> omega
  | @close k hpc hk =>
    apply weight_lt_of_take
    have hsame : inWeight { s with
        workerIns := update s.workerIns ⟨k, hk⟩ (s.workerIns ⟨k, hk⟩).close
        router := if k + 1 < n then .closing (k + 1) else .done } = s.inWeight := by
      funext v
      by_cases hv : v = ⟨k, hk⟩
      · subst hv
        simp [inWeight]
      · simp only [inWeight, update_of_ne hv]
    simp only [takeWeight, hsame, hpc]
    split <;> simp only [routerWeight] <;> omega
  | @take w order r rest htodo hended hbuf =>
    apply weight_lt_of_take
    refine takeWeight_of_worker w ?_ ?_ rfl rfl
    · intro v hv
      simp only [inWeight, update_of_ne hv]
    · simp only [inWeight, update_self, Chan.withBuf_buf, hbuf, length_cons]
      omega
  | @flush w order htodo hended hbuf hclosed =>
    apply weight_lt_of_take
    refine takeWeight_of_worker w ?_ ?_ rfl rfl
    · intro v hv
      simp only [inWeight, update_of_ne hv]
    · simp only [inWeight, update_self, hended, if_true, Bool.false_eq_true, if_false]
      omega
  | @output e outputs hstep hfinish =>
    exact Prod.Lex.toLex_lt_toLex.mpr (.inr ⟨rfl, MergeRun.weight_step e hstep⟩)

theorem terminates : Run.Terminates (step (M := M) (R := R)) :=
  Run.terminates_of_decreasing fun _ _ _ hs => weight_move (move_of_step hs)

/-! ## The end -/

/-- A stage that has returned has emitted an aligned merge of what its workers make of their lanes
    of the input. -/
theorem aligned_of_returned (hinv : Inv init cursor input s h)
    (hret : s.outputs.merge.loop = .returned k) :
    ∃ os, (∀ w, M.Completes (init w) ((R.lane w).outs cursor input) (os w)) ∧
      Aligned isMarker os s.outputs.merge.out := by
  obtain ⟨hclosed, haligned⟩ := hinv.outputs.sound.aligned_of_returned hret
  refine ⟨h.sent, fun w => ?_, haligned⟩
  obtain ⟨hin, hbuf, order, hmade⟩ := hinv.flushed w (hinv.ended w (hclosed w))
  have hsent : h.made w = h.sent w := by
    rw [hinv.outputs.seqs_eq w, hinv.outputs.finished w (hclosed w), append_nil]
  refine ⟨h.done w, order, ?_, ?_⟩
  · rw [← (hinv.given_of_closed hin).2 w, hinv.done_eq w, hbuf, append_nil]
  · rw [← hsent, hmade, hinv.state_eq w]

/-- A stage can always be brought to its end, and at its end it has returned and has emitted an
    aligned merge of what its workers make of their lanes. -/
theorem completes (pos : 0 < n) (caps : StageCaps n) (init : Fin n → M.State) (cursor : R.Cursor)
    (input : List Record) {es : List (Event n)}
    (hs : Run.exec step (start caps init cursor input) es = some s) :
    (∃ es' s', Run.exec step s es' = some s' ∧ Run.Stuck step s') ∧
      (Run.Stuck step s → (∃ k, s.outputs.merge.loop = .returned k) ∧
        ∃ os, (∀ w, M.Completes (init w) ((R.lane w).outs cursor input) (os w)) ∧
          Aligned isMarker os s.outputs.merge.out) := by
  obtain ⟨h, hinv⟩ := inv_reachable pos caps hs
  refine ⟨terminates.exists_stuck s, fun hstuck => ?_⟩
  obtain ⟨k, hret⟩ := returned_of_stuck hinv hstuck
  exact ⟨⟨k, hret⟩, aligned_of_returned hinv hret⟩

end ParallelStage

end Weibo
