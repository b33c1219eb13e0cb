import Weibo.ForStd.Shuffle
import Weibo.Spec.MergeFlow

/-!
# The merge emits everything, and nothing out of place

A merge in which no goroutine can step has returned, unless one of its workers
still has something to send: forwarders are never stuck at `fanIn`, tokens are
never missing, and a parked forwarder is waited for only as long as some worker
has not delivered its copy of the marker.  With the flow of
`Weibo.Spec.MergeFlow` it follows that workers that send the same markers get
everything through, each marker once and the data between two markers shuffled
among themselves.
-/

namespace Weibo

open Function List Option AlignedMerge Record Chan

namespace AlignedMerge

variable {n : ℕ} {m m m' : AlignedMerge n} {sent : Fin n → List Record}

/-- Forwarder `w` waits for a worker that is still running. -/
def Starved (m : AlignedMerge n) (w : Fin n) : Prop :=
  m.forwarders w = .receiving ∧ (m.workerOuts w).buf = [] ∧ (m.workerOuts w).closed = false

/-! ## Who can step -/

variable {w : Fin n} {k : ℕ}

theorem send_isSome {r : Record} (h : m.loop = .sending w r k) : m.send.isSome := by
  simp only [send, h, isSome_some]

theorem handToken_isSome (hpc : m.loop = .resuming k) (hk : k < n)
    (hparked : m.forwarders ⟨k, hk⟩ = .parked) (hempty : (m.resume ⟨k, hk⟩).buf = []) :
    m.handToken.isSome := by
  have hsend := send_isSome_of_waiting hempty ()
  simpa only [handToken, hpc, hk, dite_true, hparked, beq_self_eq_true, isSome_map] using hsend

theorem push_isSome {r : Record} (hpc : m.forwarders w = .sending r)
    (hloop : m.loop = .receiving k) (hempty : m.fanIn.buf = []) : (m.push w).isSome := by
  have hsend := send_isSome_of_waiting hempty (w, r)
  simpa only [push, hpc, hloop, MergeLoop.isReceiving, isSome_map] using hsend

theorem wake_isSome (hpc : m.forwarders w = .parked) (htoken : (m.resume w).buf ≠ []) :
    (m.wake w).isSome := by
  cases hbuf : (m.resume w).buf with
  | nil => exact absurd hbuf htoken
  | cons u rest => simp [wake, hpc, recv, hbuf]

/-- The loop blocks only at an open `fanIn` without records. -/
theorem fanIn_of_receive_none (hloop : m.loop = .receiving k) (h : m.receive = none) :
    m.fanIn.buf = [] ∧ m.fanIn.closed = false := by
  apply recv_eq_none
  cases hrecv : m.fanIn.recv with
  | none => rfl
  | some x =>
    obtain ⟨o, c⟩ := x
    simp only [receive, hloop, hrecv] at h
    cases o with
    | none => simp at h
    | some y =>
      obtain ⟨w, r⟩ := y
      dsimp only at h
      split at h
      · split at h <;> simp at h
      · simp at h

/-- A forwarder at its worker's output blocks only if that is open and empty. -/
theorem starved_of_forward_none (hpc : m.forwarders w = .receiving) (h : m.forward w = none) : m.Starved w := by
  refine ⟨hpc, recv_eq_none ?_⟩
  cases hrecv : (m.workerOuts w).recv with
  | none => rfl
  | some x =>
    obtain ⟨o, c⟩ := x
    simp only [forward, hpc, hrecv] at h
    cases o <;> simp at h

/-- If nothing in a merge can step, each forwarder waits for its worker, is parked without a token,
    or has returned. -/
theorem forwarder_of_stuck (hloop : m.loop = .receiving k) (hstuck : Run.Stuck step m) (w : Fin n) :
    m.Starved w ∨ m.lanes.parked w = true ∨ m.forwarders w = .done := by
  have hempty := (fanIn_of_receive_none hloop (hstuck .receive)).1
  cases hpc : m.forwarders w with
  | receiving => exact .inl (starved_of_forward_none hpc (hstuck (.forward w)))
  | sending r =>
    exact absurd (push_isSome hpc hloop hempty) (hstuck.not_isSome (.push w))
  | parked =>
    by_cases htoken : (m.resume w).buf = []
    · right; left
      simp [lanes, hpc, htoken, ForwarderPc.isParked]
    · exact absurd (wake_isSome hpc htoken) (hstuck.not_isSome (.wake w))
  | done => exact .inr (.inr rfl)

namespace Sound

/-- A loop that is not at `fanIn` can step. -/
theorem loop_of_stuck (h : Sound m sent) (hstuck : Run.Stuck step m) :
    (∃ k, m.loop = .receiving k) ∨ ∃ k, m.loop = .returned k := by
  cases hloop : m.loop with
  | receiving k => exact .inl ⟨k, rfl⟩
  | returned k => exact .inr ⟨k, rfl⟩
  | sending w r k =>
    exact absurd (send_isSome hloop) (hstuck.not_isSome .send)
  | resuming k =>
    obtain ⟨os, held, st, hflow⟩ := h.flow
    have hmerge := hflow.merge_ok
    simp only [lanes, hloop, MergeLoop.pc] at hmerge
    obtain ⟨hparked, hempty⟩ := h.waiting hloop hmerge.1
    exact absurd (handToken_isSome hloop hmerge.1 hparked hempty) (hstuck.not_isSome .resume)

/-- A forwarder that has nothing and is not parked: its worker's records are all in `fanIn` or have
    been emitted. -/
def Idle (m : AlignedMerge n) (w : Fin n) : Prop :=
  m.lanes.parked w = false ∧ m.lanes.ahead w = []

theorem idle_of_done (h : Sound m sent) (hw : m.forwarders w = .done) : Idle m w := by
  constructor
  · simp [lanes, hw, ForwarderPc.isParked]
  · simp [lanes, hw, (h.done w hw).2, ForwarderPc.inHand]

theorem idle_of_starved (hw : m.Starved w) : Idle m w := by
  obtain ⟨hpc, hbuf, -⟩ := hw
  constructor
  · simp [lanes, hpc, ForwarderPc.isParked]
  · simp [lanes, hpc, hbuf, ForwarderPc.inHand]

/-- Of an idle lane nothing is left anywhere once `fanIn` is empty. -/
theorem sent_eq_of_idle {os held : Fin n → List Record} {st : Fin n → LaneStatus}
    (hflow : m.lanes.Flow isMarker sent os held st m.out) (hfan : m.lanes.fanIn = [])
    (hw : Idle m w) : sent w = os w := by
  obtain ⟨hp, hahead⟩ := hw
  have hlane := hflow.lane w
  rw [hlane.eq_free hp] at hlane
  rw [hflow.sent_eq w, hlane.2.1, hahead, Lanes.fanInOf, hfan]
  simp

/-- With `fanIn` empty, the merge has counted every parked forwarder. -/
theorem counted_of_parked {os held : Fin n → List Record} {st : Fin n → LaneStatus}
    (hflow : m.lanes.Flow isMarker sent os held st m.out) (hfan : m.lanes.fanIn = [])
    (hpc : m.lanes.merge = .receiving k) (hw : m.lanes.parked w = true) :
    st w = .counted := by
  have hmerge := hflow.merge_ok
  rw [hpc] at hmerge
  have hlane := hflow.lane w
  rw [hw, Lanes.fanInOf, hfan, filterMap_nil] at hlane
  exact hlane.eq_counted (hmerge.2.2 w)

/-- While the loop waits at an empty `fanIn`, a parked forwarder has a marker with it that no worker
    of an idle lane has sent. -/
theorem idle_behind (h : Sound m sent) (hloop : m.loop = .receiving k)
    (hempty : m.fanIn.buf = []) {v : Fin n} (hw : m.lanes.parked w = true) (hv : Idle m v) :
    ¬ (sent w).filter isMarker <+: (sent v).filter isMarker := by
  have hfan : m.lanes.fanIn = [] := by
    simp [lanes, hloop, hempty, MergeLoop.inHand]
  have hpc : m.lanes.merge = .receiving k := by simp only [lanes, hloop, MergeLoop.pc]
  obtain ⟨os, held, st, hflow⟩ := h.flow
  have hlane := hflow.lane w
  rw [counted_of_parked hflow hfan hpc hw] at hlane
  obtain ⟨-, -, r, hheld, hr⟩ := hlane
  intro hpre
  rw [sent_eq_of_idle hflow hfan hv, hflow.sent_eq w, hheld, filter_append,
    filter_append, filter_append, hflow.aligned.filter_eq w, hflow.aligned.filter_eq v,
    filter_cons_of_pos hr] at hpre
  have hle := hpre.length_le
  simp only [length_append, length_cons, length_nil, filter_nil] at hle
  omega

/-- A merge in which nothing can step has returned or waits for a worker, if no worker sends more
    markers than one that has finished. -/
theorem returned_or_starved (h : Sound m sent) (hcomplete : ∀ v w, (m.workerOuts v).closed = true →
      (sent w).filter isMarker <+: (sent v).filter isMarker)
    (hstuck : Run.Stuck step m) : (∃ k, m.loop = .returned k) ∨ ∃ w, m.Starved w := by
  rcases h.loop_of_stuck hstuck with ⟨k, hloop⟩ | hret
  · right
    by_contra hnone
    obtain ⟨hempty, hopen⟩ := fanIn_of_receive_none hloop (hstuck .receive)
    have hfan : m.lanes.fanIn = [] := by
      simp [lanes, hloop, hempty, MergeLoop.inHand]
    have hpc : m.lanes.merge = .receiving k := by simp only [lanes, hloop, MergeLoop.pc]
    obtain ⟨os, held, st, hflow⟩ := h.flow
    have hcases : ∀ w, m.lanes.parked w = true ∨ m.forwarders w = .done := by
      intro w
      rcases forwarder_of_stuck hloop hstuck w with hstarved | hrest
      · exact absurd ⟨w, hstarved⟩ hnone
      · exact hrest
    by_cases hall : ∀ w, m.forwarders w = .done
    · -- then `fanIn` would be closed
      have hclose : m.closeFanIn = none := hstuck .closeFanIn
      rw [closeFanIn, if_pos ⟨hall, hopen⟩] at hclose
      simp at hclose
    · obtain ⟨w, hw⟩ := not_forall.mp hall
      have hparked : m.lanes.parked w = true := (hcases w).resolve_right hw
      -- the loop has not counted everybody, so somebody has returned
      have hsome : ∃ v, m.forwarders v = .done := by
        by_contra hnobody
        have hcounted : ∀ v, st v = .counted := fun v =>
          counted_of_parked hflow hfan hpc ((hcases v).resolve_right fun hd => hnobody ⟨v, hd⟩)
        have hmerge := hflow.merge_ok
        rw [hpc] at hmerge
        have hlt := hmerge.1
        rw [hmerge.2.1, Finset.filter_true_of_mem fun v _ => hcounted v, Finset.card_univ,
          Fintype.card_fin] at hlt
        exact absurd hlt (Nat.lt_irrefl n)
      obtain ⟨v, hv⟩ := hsome
      exact h.idle_behind hloop hempty hparked (h.idle_of_done hv) (hcomplete v w (h.done v hv).1)
  · exact .inl hret

/-- A merge that has returned has emitted everything its workers sent. -/
theorem aligned_of_returned (h : Sound m sent) (hret : m.loop = .returned k) :
    (∀ w, (m.workerOuts w).closed = true) ∧ Aligned isMarker sent m.out := by
  obtain ⟨hclosed, hempty⟩ := h.returned k hret
  have hdone := h.closed hclosed
  obtain ⟨os, held, st, hflow⟩ := h.flow
  have hfan : m.lanes.fanIn = [] := by
    simp [lanes, hret, hempty, MergeLoop.inHand]
  have hsent : sent = os := funext fun w =>
    sent_eq_of_idle hflow hfan (h.idle_of_done (hdone w))
  refine ⟨fun w => (h.done w (hdone w)).1, ?_⟩
  rw [hsent]
  exact hflow.aligned

end Sound

/-! ## How many steps are left -/

/-- An upper bound of the steps a forwarder takes before it is back at its worker's output or
    returns. -/
def forwarderWeight : ForwarderPc → ℕ
  | .receiving => 1
  | .sending _ => 6
  | .parked => 2
  | .done => 0

/-- The same for the loop; a copy of a marker that has arrived stands for a token. -/
def loopWeight : MergeLoop n → ℕ
  | .receiving k => k + 1
  | .sending _ r k => if r.isMarker then n + 2 else k + 3
  | .resuming k => n - k + 1
  | .returned _ => 0

/-- What a worker's output still costs. -/
def laneWeight (m : AlignedMerge n) (w : Fin n) : ℕ :=
  6 * (m.workerOuts w).buf.length + forwarderWeight (m.forwarders w)

/-- An upper bound of the steps a merge can take without its workers. -/
def weight (m : AlignedMerge n) : ℕ :=
  ∑ w, m.laneWeight w + 3 * m.fanIn.buf.length + loopWeight m.loop +
    if m.fanIn.closed then 0 else 1

/-- A step on one lane, which may end in `fanIn`. -/
theorem weight_lt_of_lane (w : Fin n) (hoff : ∀ v, v ≠ w → m'.laneWeight v = m.laneWeight v)
    (hlt : m'.laneWeight w + 3 * m'.fanIn.buf.length < m.laneWeight w + 3 * m.fanIn.buf.length)
    (hloop : m'.loop = m.loop) (hclosed : m'.fanIn.closed = m.fanIn.closed) :
    m'.weight < m.weight := by
  have hsum := Run.sum_part w hoff
  simp only [weight, hloop, hclosed]
  omega

/-- A step of the loop. -/
theorem weight_lt_of_loop (hlanes : m'.laneWeight = m.laneWeight)
    (hlt : 3 * m'.fanIn.buf.length + loopWeight m'.loop <
      3 * m.fanIn.buf.length + loopWeight m.loop)
    (hclosed : m'.fanIn.closed = m.fanIn.closed) : m'.weight < m.weight := by
  simp only [weight, hlanes, hclosed]
  omega

/-- Every move makes a merge lighter. -/
theorem weight_move (h : Move m m') : m'.weight < m.weight := by
  cases h with
  | @take w r rest hpc hbuf =>
    refine weight_lt_of_lane w ?_ ?_ rfl rfl
    · intro v hv
      simp only [laneWeight, update_of_ne hv]
    · simp only [laneWeight, update_self, withBuf_buf, hpc, hbuf, forwarderWeight, length_cons]
      omega
  | @finish w hpc hbuf hclosed =>
    refine weight_lt_of_lane w ?_ ?_ rfl rfl
    · intro v hv
      simp only [laneWeight, update_of_ne hv]
    · simp only [laneWeight, update_self, hpc, forwarderWeight]
      omega
  | @push w r hpc =>
    refine weight_lt_of_lane w ?_ ?_ rfl rfl
    · intro v hv
      simp only [laneWeight, update_of_ne hv]
    · have hle : forwarderWeight (if r.isMarker then .parked else .receiving) ≤ 2 := by
        split <;> decide
      have hpcw : forwarderWeight (m.forwarders w) = 6 := by rw [hpc]; rfl
      simp only [laneWeight, update_self, withBuf_buf, length_append, length_cons, length_nil]
      omega
  | @wake w rest hpc hbuf =>
    refine weight_lt_of_lane w ?_ ?_ rfl rfl
    · intro v hv
      simp only [laneWeight, update_of_ne hv]
    · simp only [laneWeight, update_self, hpc, forwarderWeight]
      omega
  | close hdone hopen =>
    simp only [weight, close_buf, close_closed, hopen, if_true, Bool.false_eq_true, if_false]
    exact Nat.lt_succ_self _
  | hold hpc hbuf hr hk =>
    refine weight_lt_of_loop rfl ?_ rfl
    simp only [withBuf_buf, hpc, hbuf, loopWeight, length_cons]
    omega
  | last hpc hbuf hr hk =>
    refine weight_lt_of_loop rfl ?_ rfl
    simp only [withBuf_buf, hpc, hbuf, loopWeight, hr, if_true, length_cons]
    omega
  | data hpc hbuf hr =>
    refine weight_lt_of_loop rfl ?_ rfl
    simp only [withBuf_buf, hpc, hbuf, loopWeight, hr, Bool.false_eq_true, if_false, length_cons]
    omega
  | stop hpc hbuf hclosed =>
    refine weight_lt_of_loop rfl ?_ rfl
    simp only [hpc, loopWeight]
    omega
  | sendMarker hpc hr =>
    refine weight_lt_of_loop rfl ?_ rfl
    simp only [hpc, loopWeight, hr, if_true]
    omega
  | sendData hpc hr =>
    refine weight_lt_of_loop rfl ?_ rfl
    simp only [hpc, loopWeight, hr, Bool.false_eq_true, if_false]
    omega
  | token hpc hk =>
    refine weight_lt_of_loop rfl ?_ rfl
    simp only [hpc]
    split <;> simp only [loopWeight] <;> omega

/-- A worker puts something on its lane. -/
theorem weight_eq_of_lane (w : Fin n) (c : ℕ) (hoff : ∀ v, v ≠ w → m'.laneWeight v = m.laneWeight v)
    (hw : m'.laneWeight w = m.laneWeight w + c) (hfanIn : m'.fanIn = m.fanIn)
    (hloop : m'.loop = m.loop) : m'.weight = m.weight + c := by
  have hsum := Run.sum_part w hoff
  simp only [weight, hloop, hfanIn]
  omega

theorem weight_put {r : Record} (h : m.put w r = some m') : m'.weight = m.weight + 6 := by
  obtain ⟨c, hsend, rfl⟩ := map_eq_some_iff.mp h
  rw [send_eq_some hsend]
  refine weight_eq_of_lane w 6 ?_ ?_ rfl rfl
  · intro v hv
    simp only [laneWeight, update_of_ne hv]
  · simp only [laneWeight, update_self, withBuf_buf, length_append, length_cons, length_nil]
    omega

theorem weight_closeOut (m : AlignedMerge n) (w : Fin n) : (m.closeOut w).weight = m.weight := by
  refine weight_eq_of_lane w 0 ?_ ?_ rfl rfl
  · intro v hv
    simp only [laneWeight, closeOut, update_of_ne hv]
  · simp [laneWeight, closeOut]

end AlignedMerge

/-! ## A merge of given sequences -/

/-- What `out` has to be if the workers have sent `seqs`: every marker once and in order, and
    between two markers the workers' data in an order that keeps that of each worker. -/
structure Merged {n : ℕ} (seqs : Fin n → List Record) (out : List Record) : Prop where
  markers : ∀ w, out.filter Record.isMarker = (seqs w).filter Record.isMarker
  segments : ∀ j, Shuffle (fun w => (seqs w).segment Record.isMarker j)
    (out.segment Record.isMarker j)

theorem merged_of_aligned {n : ℕ} {seqs : Fin n → List Record} {out : List Record}
    (h : Aligned isMarker seqs out) : Merged seqs out :=
  ⟨fun w => (h.filter_eq w).symm, h.shuffle_segment⟩

namespace MergeRun

variable {n : ℕ} {s s' : MergeRun n} {seqs sent : Fin n → List Record}

/-- What a worker has sent and what it has still to send are its sequence, and only a worker that
    has sent everything closes its output. -/
structure Inv (seqs : Fin n → List Record) (s : MergeRun n) (sent : Fin n → List Record) :
    Prop where
  sound : s.merge.Sound sent
  seqs_eq : ∀ w, seqs w = sent w ++ s.todo w
  finished : ∀ w, (s.merge.workerOuts w).closed = true → s.todo w = []

theorem inv_start (pos : 0 < n) (caps : MergeCaps n) : Inv seqs (start caps seqs) fun _ => [] :=
  ⟨.start pos caps, fun _ => rfl, fun _ h =>
    absurd h (by simp [start, AlignedMerge.start, make])⟩

/-- Workers that send their markers from a common sequence agree on them. -/
theorem Inv.agree {ms : List Record} (h : Inv seqs s sent)
    (hms : ∀ w, (seqs w).filter isMarker <+: ms) : Lanes.Agree isMarker sent := by
  refine Lanes.agree_of_isPrefix fun w => List.IsPrefix.trans ?_ (hms w)
  rw [h.seqs_eq w, filter_append]
  exact prefix_append _ _

/-- A worker with an open output that has sent everything goes on with more. -/
theorem Inv.refill (h : Inv seqs s sent)
    (htodo : s.todo w = []) (hopen : (s.merge.workerOuts w).closed = false) (rs : List Record) :
    Inv (update seqs w (seqs w ++ rs)) (s.refill w rs) sent := by
  refine ⟨h.sound, ?_, ?_⟩
  · intro v
    by_cases hv : v = w
    · subst hv
      simp only [MergeRun.refill, update_self]
      rw [h.seqs_eq v, htodo, append_nil]
    · simp only [MergeRun.refill, update_of_ne hv]
      exact h.seqs_eq v
  · intro v hclosed
    have hv : v ≠ w := by
      rintro rfl
      exact absurd (hopen.symm.trans hclosed) (by decide)
    simp only [MergeRun.refill, update_of_ne hv]
    exact h.finished v hclosed

/-- Only its own last step closes a worker's output. -/
theorem finish_of_closed {e : Event n} (hs : step s e = some s')
    (hopen : (s.merge.workerOuts w).closed = false)
    (hclosed : (s'.merge.workerOuts w).closed = true) : e = .finish w := by
  cases e with
  | work v =>
    simp only [step] at hs
    split at hs
    case h_1 r rest htodo =>
      obtain ⟨m, hput, rfl⟩ := map_eq_some_iff.mp hs
      rw [closed_put hput, hopen] at hclosed
      simp at hclosed
    case h_2 => simp at hs
  | finish v =>
    obtain ⟨-, heq⟩ := ite_none_right_eq_some.mp hs
    cases heq
    by_cases hv : w = v
    · rw [hv]
    · simp only [closeOut, update_of_ne hv] at hclosed
      exact absurd hclosed (by rw [hopen]; decide)
  | merge e =>
    obtain ⟨m, hm, rfl⟩ := map_eq_some_iff.mp hs
    rw [(move_of_step hm).closed_eq, hopen] at hclosed
    simp at hclosed

theorem inv_step {ms : List Record} (h : Inv seqs s sent)
    (hms : ∀ w, (seqs w).filter isMarker <+: ms) (e : Event n) (hs : step s e = some s') :
    ∃ sent', Inv seqs s' sent' := by
  cases e with
  | work w =>
    simp only [step] at hs
    split at hs
    case h_1 r rest htodo =>
      obtain ⟨m, hput, rfl⟩ := map_eq_some_iff.mp hs
      have hopen : (s.merge.workerOuts w).closed = false := by
        by_contra hne
        have hnil := h.finished w (by simpa using hne)
        rw [htodo] at hnil
        simp at hnil
      refine ⟨_, h.sound.put hopen hput, ?_, ?_⟩
      · intro v
        by_cases hv : v = w
        · subst hv
          simp only [update_self, append_assoc, singleton_append]
          rw [← htodo]
          exact h.seqs_eq v
        · simp only [update_of_ne hv]
          exact h.seqs_eq v
      · intro v hv
        rw [closed_put hput v] at hv
        by_cases hvw : v = w
        · subst hvw
          exact absurd hv (by rw [hopen]; decide)
        · simp only [update_of_ne hvw]
          exact h.finished v hv
    case h_2 => simp at hs
  | finish w =>
    obtain ⟨⟨htodo, -⟩, heq⟩ := ite_none_right_eq_some.mp hs
    cases heq
    refine ⟨sent, h.sound.closeOut w, h.seqs_eq, ?_⟩
    intro v hv
    by_cases hvw : v = w
    · subst hvw
      exact htodo
    · simp only [closeOut, update_of_ne hvw] at hv
      exact h.finished v hv
  | merge e =>
    obtain ⟨m, hm, rfl⟩ := map_eq_some_iff.mp hs
    have hmove := move_of_step hm
    refine ⟨sent, h.sound.move (h.agree hms) hmove, h.seqs_eq, ?_⟩
    intro v hv
    rw [hmove.closed_eq v] at hv
    exact h.finished v hv

theorem inv_reachable (pos : 0 < n) (caps : MergeCaps n)
    (hmarkers : ∀ w v, (seqs w).filter isMarker = (seqs v).filter isMarker)
    {es : List (Event n)} (h : Run.exec step (start caps seqs) es = some s) :
    ∃ sent, Inv seqs s sent := by
  have hms : ∀ w, (seqs w).filter isMarker <+: (seqs ⟨0, pos⟩).filter isMarker := by
    intro w
    rw [hmarkers w ⟨0, pos⟩]
  refine Run.exec_invariant (I := fun s => ∃ sent, Inv seqs s sent) ?_ ⟨_, inv_start pos caps⟩ h
  rintro s e s' ⟨sent, hinv⟩ hs
  exact inv_step hinv hms e hs

/-- A worker whose forwarder waits for it can go on. -/
theorem not_starved (hstuck : Run.Stuck step s) (w : Fin n) : ¬ s.merge.Starved w := by
  rintro ⟨hpc, hbuf, hopen⟩
  cases htodo : s.todo w with
  | nil =>
    have hfinish := hstuck (.finish w)
    rw [step, if_pos ⟨htodo, hopen⟩] at hfinish
    simp at hfinish
  | cons r rest =>
    have hsend := send_isSome_of_waiting hbuf r
    have hwork := hstuck.not_isSome (.work w)
    simp only [step, htodo, put, hpc, beq_self_eq_true, isSome_map] at hwork
    exact hwork hsend

/-- A run in which nothing can step is over. -/
theorem returned_of_stuck (h : Inv seqs s sent)
    (hmarkers : ∀ w v, (seqs w).filter isMarker = (seqs v).filter isMarker)
    (hstuck : Run.Stuck step s) : ∃ k, s.merge.loop = .returned k := by
  have hcomplete : ∀ v w, (s.merge.workerOuts v).closed = true →
      (sent w).filter isMarker <+: (sent v).filter isMarker := by
    intro v w hv
    have hsent : sent v = seqs v := by rw [h.seqs_eq v, h.finished v hv, append_nil]
    rw [hsent, hmarkers v w, h.seqs_eq w, filter_append]
    exact prefix_append _ _
  have hmerge : Run.Stuck AlignedMerge.step s.merge := by
    intro e
    exact map_eq_none_iff.mp (hstuck (.merge e))
  rcases h.sound.returned_or_starved hcomplete hmerge with hret | ⟨w, hw⟩
  · exact hret
  · exact absurd hw (not_starved hstuck w)

/-- An upper bound of the steps that are left. -/
def weight (s : MergeRun n) : ℕ :=
  s.merge.weight +
    ∑ w, (7 * (s.todo w).length + if (s.merge.workerOuts w).closed then 0 else 1)

theorem weight_step (e : Event n) (hs : step s e = some s') : s'.weight < s.weight := by
  cases e with
  | work w =>
    simp only [step] at hs
    split at hs
    case h_1 r rest htodo =>
      obtain ⟨m, hput, rfl⟩ := map_eq_some_iff.mp hs
      have hweight := weight_put hput
      have hsum := Run.sum_part
        (f := fun v => 7 * (s.todo v).length + if (s.merge.workerOuts v).closed then 0 else 1)
        (g := fun v => 7 * (update s.todo w rest v).length +
          if (m.workerOuts v).closed then 0 else 1) w fun v hv => by
            simp only [update_of_ne hv, closed_put hput]
      simp only [update_self, closed_put hput, htodo, length_cons] at hsum
      simp only [weight, closed_put hput]
      omega
    case h_2 => simp at hs
  | finish w =>
    obtain ⟨⟨htodo, hopen⟩, heq⟩ := ite_none_right_eq_some.mp hs
    cases heq
    have hsum := Run.sum_part
      (f := fun v => 7 * (s.todo v).length + if (s.merge.workerOuts v).closed then 0 else 1)
      (g := fun v => 7 * (s.todo v).length +
        if ((s.merge.closeOut w).workerOuts v).closed then 0 else 1) w fun v hv => by
          simp only [closeOut, update_of_ne hv]
    have hw : ((s.merge.closeOut w).workerOuts w).closed = true := by
      simp [closeOut]
    simp only [hw, hopen, if_true, Bool.false_eq_true, if_false] at hsum
    simp only [weight, weight_closeOut]
    omega
  | merge e =>
    obtain ⟨m, hm, rfl⟩ := map_eq_some_iff.mp hs
    have hmove := move_of_step hm
    have hlt := weight_move hmove
    simp only [weight, hmove.closed_eq]
    omega

theorem terminates : Run.Terminates (step (n := n)) :=
  Run.terminates_of_decreasing fun _ e _ hs => weight_step e hs

/-- At any time `out` holds a merge of what has come through of the workers' sequences, the run can
    be brought to an end, and where it ends `out` is a merge of the whole sequences. -/
theorem merges_all (pos : 0 < n) (caps : MergeCaps n) (seqs : Fin n → List Record)
    (hmarkers : ∀ w v, (seqs w).filter Record.isMarker = (seqs v).filter Record.isMarker)
    (es : List (Event n)) (s : MergeRun n) (h : Run.exec step (start caps seqs) es = some s) :
    (∃ os, (∀ w, os w <+: seqs w) ∧ Merged os s.merge.out) ∧
      (∃ es' s', Run.exec step s es' = some s' ∧ Run.Stuck step s') ∧
      (Run.Stuck step s → (∃ k, s.merge.loop = .returned k) ∧ Merged seqs s.merge.out) := by
  obtain ⟨sent, hinv⟩ := inv_reachable pos caps hmarkers h
  refine ⟨?_, terminates.exists_stuck s, ?_⟩
  · obtain ⟨os, held, st, hflow⟩ := hinv.sound.flow
    refine ⟨os, fun w => ?_, merged_of_aligned hflow.aligned⟩
    rw [hinv.seqs_eq w, hflow.sent_eq w, append_assoc, append_assoc, append_assoc]
    exact prefix_append _ _
  · intro hstuck
    obtain ⟨k, hret⟩ := returned_of_stuck hinv hmarkers hstuck
    obtain ⟨hclosed, haligned⟩ := hinv.sound.aligned_of_returned hret
    have hsent : sent = seqs := by
      funext w
      rw [hinv.seqs_eq w, hinv.finished w (hclosed w), append_nil]
    rw [hsent] at haligned
    exact ⟨⟨k, hret⟩, merged_of_aligned haligned⟩

/-- Worker 1 reaches the watermark before worker 0 has sent anything. -/
def uneven : Fin 2 → List Record
  | 0 => [{ key := [0] }, .newWatermark 5]
  | 1 => [.newWatermark 5, { key := [1] }]

/-- Through channels without any buffer both come to their end. -/
theorem merges_all_uneven :
    ∃ es s, Run.exec step (start ⟨fun _ => 0, 0, 1⟩ uneven) es = some s ∧ Run.Stuck step s ∧
      Merged uneven s.merge.out := by
  have hmarkers : ∀ w v, (uneven w).filter Record.isMarker = (uneven v).filter Record.isMarker := by
    rw [Fin.forall_fin_two, Fin.forall_fin_two, Fin.forall_fin_two]
    exact ⟨⟨rfl, rfl⟩, rfl, rfl⟩
  obtain ⟨-, ⟨es, s, hs, hstuck⟩, -⟩ := merges_all (by decide) _ uneven hmarkers [] _ rfl
  obtain ⟨-, -, hend⟩ := merges_all (by decide) ⟨fun _ => 0, 0, 1⟩ uneven hmarkers es s hs
  exact ⟨es, s, hs, hstuck, (hend hstuck).2⟩

end MergeRun

end Weibo
