import Weibo.ForStd.Lanes
import Weibo.Model.AlignedMerge

/-!
# The merge refines its lanes

The goroutines of `alignedMerge` with their bounded channels take steps of the
unbounded merge of `Weibo.ForStd.Lanes`, or steps that are invisible there: a
forwarder that picks up a record or a token, and the loop that picks up a
record it is going to send.  `Sound` is what holds in every state of a merge
whose workers have sent `sent` so far.
-/

namespace Weibo

open Function List MergeLoop

/-- Whether a forwarder waits for its token. -/
def ForwarderPc.isParked : ForwarderPc → Bool
  | .parked => true
  | _ => false

theorem ForwarderPc.eq_parked {pc : ForwarderPc} (h : pc.isParked = true) : pc = .parked := by
  cases pc with
  | parked => rfl
  | receiving => exact absurd h (by decide)
  | sending r => simp [isParked] at h
  | done => exact absurd h (by decide)

/-- The record the loop is going to send. -/
def MergeLoop.inHand {n : ℕ} : MergeLoop n → List (Fin n × Record)
  | .sending w r _ => [(w, r)]
  | _ => []

/-- The place of the loop in the unbounded merge, where a record is taken from the queue only when
    it is sent. -/
def MergeLoop.pc {n : ℕ} : MergeLoop n → MergePc
  | .receiving k => .receiving k
  | .sending _ r k => .receiving (if r.isMarker then n - 1 else k)
  | .resuming k => .resuming k
  | .returned k => .receiving k

namespace AlignedMerge

variable {n k : ℕ} {w : Fin n} {r : Record} {m m' : AlignedMerge n}

/-! ## What a step does -/

/-- What one step can do to the merge, with its guard. -/
inductive Move (m : AlignedMerge n) : AlignedMerge n → Prop
  | take {w : Fin n} {r : Record} {rest : List Record} (hpc : m.forwarders w = .receiving)
      (hbuf : (m.workerOuts w).buf = r :: rest) :
      Move m { m with
        workerOuts := Function.update m.workerOuts w ((m.workerOuts w).withBuf rest)
        forwarders := Function.update m.forwarders w (.sending r) }
  | finish {w : Fin n} (hpc : m.forwarders w = .receiving) (hbuf : (m.workerOuts w).buf = [])
      (hclosed : (m.workerOuts w).closed = true) :
      Move m { m with forwarders := Function.update m.forwarders w .done }
  | push {w : Fin n} {r : Record} (hpc : m.forwarders w = .sending r) :
      Move m { m with
        fanIn := m.fanIn.withBuf (m.fanIn.buf ++ [(w, r)])
        forwarders := Function.update m.forwarders w (if r.isMarker then .parked else .receiving) }
  | wake {w : Fin n} {rest : List Unit} (hpc : m.forwarders w = .parked)
      (hbuf : (m.resume w).buf = () :: rest) :
      Move m { m with
        resume := Function.update m.resume w ((m.resume w).withBuf rest)
        forwarders := Function.update m.forwarders w .receiving }
  | close (hdone : ∀ w, m.forwarders w = .done) (hopen : m.fanIn.closed = false) :
      Move m { m with fanIn := m.fanIn.close }
  | hold {k : ℕ} {w : Fin n} {r : Record} {rest : List (Fin n × Record)}
      (hpc : m.loop = .receiving k) (hbuf : m.fanIn.buf = (w, r) :: rest)
      (hr : r.isMarker = true) (hk : k + 1 < n) :
      Move m { m with fanIn := m.fanIn.withBuf rest, loop := .receiving (k + 1) }
  | last {k : ℕ} {w : Fin n} {r : Record} {rest : List (Fin n × Record)}
      (hpc : m.loop = .receiving k) (hbuf : m.fanIn.buf = (w, r) :: rest)
      (hr : r.isMarker = true) (hk : ¬ k + 1 < n) :
      Move m { m with fanIn := m.fanIn.withBuf rest, loop := .sending w r 0 }
  | data {k : ℕ} {w : Fin n} {r : Record} {rest : List (Fin n × Record)}
      (hpc : m.loop = .receiving k) (hbuf : m.fanIn.buf = (w, r) :: rest)
      (hr : r.isMarker = false) :
      Move m { m with fanIn := m.fanIn.withBuf rest, loop := .sending w r k }
  | stop {k : ℕ} (hpc : m.loop = .receiving k) (hbuf : m.fanIn.buf = [])
      (hclosed : m.fanIn.closed = true) : Move m { m with loop := .returned k }
  | sendMarker {k : ℕ} {w : Fin n} {r : Record} (hpc : m.loop = .sending w r k)
      (hr : r.isMarker = true) : Move m { m with out := m.out ++ [r], loop := .resuming 0 }
  | sendData {k : ℕ} {w : Fin n} {r : Record} (hpc : m.loop = .sending w r k)
      (hr : r.isMarker = false) : Move m { m with out := m.out ++ [r], loop := .receiving k }
  | token {k : ℕ} (hpc : m.loop = .resuming k) (hk : k < n) :
      Move m { m with
        resume := Function.update m.resume ⟨k, hk⟩
          ((m.resume ⟨k, hk⟩).withBuf ((m.resume ⟨k, hk⟩).buf ++ [()]))
        loop := if k + 1 < n then .resuming (k + 1) else .receiving 0 }

theorem move_of_forward (h : m.forward w = some m') : Move m m' := by
  revert h
  fun_cases forward m w <;> intro h <;> cases h
  case case1.refl hrecv hpc =>
    obtain ⟨hbuf, hc⟩ := Chan.recv_eq_some hrecv
    rw [hc]
    exact .take hpc hbuf
  case case2.refl hrecv hpc =>
    obtain ⟨hbuf, hclosed, -⟩ := Chan.recv_eq_none_some hrecv
    exact .finish hpc hbuf hclosed

theorem move_of_push (h : m.push w = some m') : Move m m' := by
  unfold push at h
  split at h
  case h_1 r hpc =>
    obtain ⟨c, hsend, rfl⟩ := Option.map_eq_some_iff.mp h
    rw [Chan.send_eq_some hsend]
    exact .push hpc
  case h_2 => simp at h

theorem move_of_wake (h : m.wake w = some m') : Move m m' := by
  revert h
  fun_cases wake m w <;> intro h <;> cases h
  case case1.refl hrecv hpc =>
    obtain ⟨hbuf, hc⟩ := Chan.recv_eq_some hrecv
    rw [hc]
    exact .wake hpc hbuf

theorem move_of_closeFanIn (h : m.closeFanIn = some m') : Move m m' := by
  obtain ⟨⟨hdone, hopen⟩, heq⟩ := Option.ite_none_right_eq_some.mp h
  cases heq
  exact .close hdone hopen

theorem move_of_receive (h : m.receive = some m') : Move m m' := by
  revert h
  fun_cases receive m <;> intro h <;> cases h
  case case4.refl hrecv hpc =>
    obtain ⟨hbuf, hclosed, -⟩ := Chan.recv_eq_none_some hrecv
    exact .stop hpc hbuf hclosed
  all_goals
    obtain ⟨hbuf, hc⟩ := Chan.recv_eq_some ‹_›
    rw [hc]
  · exact .hold ‹_› hbuf ‹_› ‹_›
  · exact .last ‹_› hbuf ‹_› ‹_›
  · exact .data ‹_› hbuf (by simpa using ‹¬Record.isMarker _ = true›)

theorem move_of_send (h : m.send = some m') : Move m m' := by
  unfold send at h
  split at h
  case h_1 w r k hpc =>
    cases h
    cases hr : r.isMarker with
    | true => exact .sendMarker hpc hr
    | false => exact .sendData hpc hr
  case h_2 => simp at h

theorem move_of_handToken (h : m.handToken = some m') : Move m m' := by
  revert h
  fun_cases handToken m <;> intro h <;> try cases h
  case case1 hpc hk =>
    obtain ⟨c, hsend, rfl⟩ := Option.map_eq_some_iff.mp h
    rw [Chan.send_eq_some hsend]
    exact .token hpc hk

/-- A step is one of these moves. -/
theorem move_of_step {e : MergeEvent n} (h : m.step e = some m') : Move m m' := by
  cases e with
  | forward w => exact move_of_forward h
  | push w => exact move_of_push h
  | wake w => exact move_of_wake h
  | closeFanIn => exact move_of_closeFanIn h
  | receive => exact move_of_receive h
  | send => exact move_of_send h
  | resume => exact move_of_handToken h

/-- No move of the merge closes a worker's output. -/
theorem Move.closed_eq (h : Move m m') (v : Fin n) :
    (m'.workerOuts v).closed = (m.workerOuts v).closed := by
  cases h with
  | @take w r rest hpc hbuf =>
    by_cases hv : v = w
    · subst hv
      simp
    · simp only [update_of_ne hv]
  | _ => rfl

/-- Nor does a worker by sending. -/
theorem closed_put (h : m.put w r = some m') (v : Fin n) : (m'.workerOuts v).closed = (m.workerOuts v).closed := by
  obtain ⟨c, hsend, rfl⟩ := Option.map_eq_some_iff.mp h
  rw [Chan.send_eq_some hsend]
  by_cases hv : v = w
  · subst hv
    simp
  · simp only [update_of_ne hv]

/-! ## Seen as lanes -/

/-- The merge without its bounds: what a forwarder holds is still ahead of the common queue, what
    the loop is going to send is still in it, and a forwarder whose token is there is not parked any
    more. -/
def lanes (m : AlignedMerge n) : Lanes Record n where
  ahead w := (m.forwarders w).inHand ++ (m.workerOuts w).buf
  parked w := (m.forwarders w).isParked && (m.resume w).buf.isEmpty
  fanIn := m.loop.inHand ++ m.fanIn.buf
  merge := m.loop.pc

/-- What holds in every state of a merge whose workers have sent `sent`. -/
structure Sound (m : AlignedMerge n) (sent : Fin n → List Record) : Prop where
  flow : ∃ os held st, m.lanes.Flow Record.isMarker sent os held st m.out
  /-- There is at most one token, and only for a parked forwarder. -/
  token : ∀ w, (m.resume w).buf = [] ∨ m.forwarders w = .parked ∧ (m.resume w).buf = [()]
  done : ∀ w, m.forwarders w = .done → (m.workerOuts w).closed = true ∧ (m.workerOuts w).buf = []
  closed : m.fanIn.closed = true → ∀ w, m.forwarders w = .done
  returned : ∀ k, m.loop = .returned k → m.fanIn.closed = true ∧ m.fanIn.buf = []

namespace Sound

variable {m m' : AlignedMerge n} {sent : Fin n → List Record}

theorem start (pos : 0 < n) (caps : MergeCaps n) : Sound (start caps) fun _ => [] where
  flow := ⟨_, _, _, Lanes.Flow.start pos⟩
  token _ := .inl rfl
  done w h := absurd h (by simp [AlignedMerge.start])
  closed h := absurd h (by simp [AlignedMerge.start, Chan.make])
  returned k h := absurd h (by simp [AlignedMerge.start])

/-- The flow through a merge whose lanes are known. -/
theorem flow_of_lanes {l : Lanes Record n} {os held : Fin n → List Record} {st : Fin n → LaneStatus}
    {dst : List Record} (hflow : l.Flow Record.isMarker sent os held st dst) (hlanes : m.lanes = l)
    (hout : m.out = dst) : ∃ os held st, m.lanes.Flow Record.isMarker sent os held st m.out := by
  rw [hlanes, hout]
  exact ⟨os, held, st, hflow⟩

variable (h : Sound m sent)

include h

/-- A worker has sent one more record. -/
theorem put (hopen : (m.workerOuts w).closed = false) (hput : m.put w r = some m') : Sound m' (update sent w (sent w ++ [r])) := by
  obtain ⟨c, hsend, rfl⟩ := Option.map_eq_some_iff.mp hput
  rw [Chan.send_eq_some hsend]
  obtain ⟨os, held, st, hflow⟩ := h.flow
  refine ⟨flow_of_lanes (hflow.feed w [r]) ?_ rfl, h.token, ?_, h.closed, h.returned⟩
  · refine Lanes.ext_at w (fun v hv => ?_) ?_ rfl rfl rfl
    · simp only [lanes, update_of_ne hv, and_self]
    · simp [lanes]
  · intro v hdone
    obtain ⟨hclosed, hbuf⟩ := h.done v hdone
    have hv : v ≠ w := by
      rintro rfl
      exact absurd hclosed (by rw [hopen]; decide)
    simp only [update_of_ne hv]
    exact ⟨hclosed, hbuf⟩

/-- A worker has closed its output. -/
theorem closeOut (w : Fin n) : Sound (m.closeOut w) sent := by
  have hbuf : ∀ v, ((m.closeOut w).workerOuts v).buf = (m.workerOuts v).buf := by
    intro v
    by_cases hv : v = w
    · subst hv
      simp [AlignedMerge.closeOut]
    · simp only [AlignedMerge.closeOut, update_of_ne hv]
  have hlanes : (m.closeOut w).lanes = m.lanes := by
    simp only [lanes, hbuf]
    rfl
  refine ⟨?_, h.token, ?_, h.closed, h.returned⟩
  · rw [hlanes]
    exact h.flow
  · intro v hdone
    refine ⟨?_, (hbuf v).trans (h.done v hdone).2⟩
    by_cases hv : v = w
    · subst hv
      simp [AlignedMerge.closeOut]
    · simp only [AlignedMerge.closeOut, update_of_ne hv]
      exact (h.done v hdone).1

/-- In the loop the count of a marker under way is that of the lanes. -/
theorem arrived_lt (hpc : m.loop = .receiving k) : k < n := by
  obtain ⟨os, held, st, hflow⟩ := h.flow
  have hmerge := hflow.merge_ok
  simp only [lanes, hpc, pc] at hmerge
  exact hmerge.1

/-- The forwarder that gets the next token waits for it and has none. -/
theorem waiting (hpc : m.loop = .resuming k) (hk : k < n) :
    m.forwarders ⟨k, hk⟩ = .parked ∧ (m.resume ⟨k, hk⟩).buf = [] := by
  obtain ⟨os, held, st, hflow⟩ := h.flow
  have hmerge := hflow.merge_ok
  simp only [lanes, hpc, pc] at hmerge
  have hlane := hflow.lane ⟨k, hk⟩
  rw [hmerge.waking] at hlane
  have hparked := hlane.1
  simp only [lanes, Bool.and_eq_true, List.isEmpty_iff] at hparked
  exact ⟨ForwarderPc.eq_parked hparked.1, hparked.2⟩

/-- The flow through a merge that looks the same as before. -/
theorem flow_of_eq (hlanes : m'.lanes = m.lanes) (hout : m'.out = m.out) :
    ∃ os held st, m'.lanes.Flow Record.isMarker sent os held st m'.out := by
  rw [hlanes, hout]
  exact h.flow

/-- A forwarder that is not parked has no token. -/
theorem no_token (hpc : m.forwarders w ≠ .parked) : (m.resume w).buf = [] := by
  rcases h.token w with htoken | ⟨hparked, -⟩
  · exact htoken
  · exact absurd hparked hpc

/-- Tokens when a forwarder without one moves. -/
theorem token_update (hw : (m.resume w).buf = []) (pc : ForwarderPc) (v : Fin n) : (m.resume v).buf = [] ∨
      update m.forwarders w pc v = .parked ∧ (m.resume v).buf = [()] := by
  by_cases hv : v = w
  · subst hv
    exact .inl hw
  · rw [update_of_ne hv]
    exact h.token v

/-- Outputs of returned forwarders when a forwarder moves that stays. -/
theorem done_update {pc : ForwarderPc} (hpc : pc ≠ .done)
    (c : Chan Record) (v : Fin n) (hdone : update m.forwarders w pc v = .done) :
    (update m.workerOuts w c v).closed = true ∧ (update m.workerOuts w c v).buf = [] := by
  by_cases hv : v = w
  · subst hv
    rw [update_self] at hdone
    exact absurd hdone hpc
  · rw [update_of_ne hv] at hdone ⊢
    exact h.done v hdone

/-- While a forwarder is there, `fanIn` is open. -/
theorem fanIn_open (hpc : m.forwarders w ≠ .done) : m.fanIn.closed ≠ true :=
  fun hclosed => hpc (h.closed hclosed w)

theorem take {rest : List Record}
    (hpc : m.forwarders w = .receiving) (hbuf : (m.workerOuts w).buf = r :: rest) :
    Sound { m with
      workerOuts := update m.workerOuts w ((m.workerOuts w).withBuf rest)
      forwarders := update m.forwarders w (.sending r) } sent := by
  have hopen := h.fanIn_open (w := w) (by rw [hpc]; decide)
  refine ⟨h.flow_of_eq ?_ rfl, h.token_update (h.no_token (by rw [hpc]; decide)) _,
    h.done_update (by simp) _, fun hclosed => absurd hclosed hopen, h.returned⟩
  -- the record is still ahead of the common queue
  refine Lanes.ext_at w (fun v hv => ?_) ?_ ?_ rfl rfl
  · simp only [lanes, update_of_ne hv, and_self]
  · simp [lanes, hpc, hbuf, ForwarderPc.inHand]
  · simp [lanes, hpc, ForwarderPc.isParked]

theorem finish (hpc : m.forwarders w = .receiving)
    (hbuf : (m.workerOuts w).buf = []) (hclosed : (m.workerOuts w).closed = true) :
    Sound { m with forwarders := update m.forwarders w .done } sent := by
  have hopen := h.fanIn_open (w := w) (by rw [hpc]; decide)
  refine ⟨h.flow_of_eq ?_ rfl, h.token_update (h.no_token (by rw [hpc]; decide)) _, ?_,
    fun hclosed => absurd hclosed hopen, h.returned⟩
  · refine Lanes.ext_at w (fun v hv => ?_) ?_ ?_ rfl rfl
    · simp only [lanes, update_of_ne hv, and_self]
    · simp [lanes, hpc, ForwarderPc.inHand]
    · simp [lanes, hpc, ForwarderPc.isParked]
  · intro v hdone
    by_cases hv : v = w
    · subst hv
      exact ⟨hclosed, hbuf⟩
    · simp only [update_of_ne hv] at hdone
      exact h.done v hdone

theorem push (hpc : m.forwarders w = .sending r) : Sound { m with
      fanIn := m.fanIn.withBuf (m.fanIn.buf ++ [(w, r)])
      forwarders := update m.forwarders w (if r.isMarker then .parked else .receiving) } sent := by
  obtain ⟨os, held, st, hflow⟩ := h.flow
  have hopen := h.fanIn_open (w := w) (by rw [hpc]; simp)
  have htoken := h.no_token (w := w) (by rw [hpc]; simp)
  have hp : m.lanes.parked w = false := by
    simp [lanes, hpc, ForwarderPc.isParked]
  have hahead : m.lanes.ahead w = r :: (m.workerOuts w).buf := by
    simp [lanes, hpc, ForwarderPc.inHand]
  refine ⟨flow_of_lanes (hflow.collect hp hahead) ?_ rfl, h.token_update htoken _, ?_,
    fun hclosed => absurd hclosed hopen, ?_⟩
  · refine Lanes.ext_at w (fun v hv => ?_) ?_ ?_ (by simp [lanes]) rfl
    · simp only [lanes, update_of_ne hv, and_self]
    · cases r.isMarker <;> simp [lanes, ForwarderPc.inHand]
    · cases r.isMarker <;> simp [lanes, ForwarderPc.isParked, htoken]
  · intro v hdone
    have hstays : (if r.isMarker then ForwarderPc.parked else .receiving) ≠ .done := by
      split <;> decide
    have hboth := h.done_update hstays (m.workerOuts w) v hdone
    rwa [update_eq_self] at hboth
  · intro k hret
    exact absurd (h.returned k hret).1 hopen

theorem wake {rest : List Unit} (hpc : m.forwarders w = .parked)
    (hbuf : (m.resume w).buf = () :: rest) :
    Sound { m with
      resume := update m.resume w ((m.resume w).withBuf rest)
      forwarders := update m.forwarders w .receiving } sent := by
  have hopen := h.fanIn_open (w := w) (by rw [hpc]; decide)
  have hrest : rest = [] := by
    rcases h.token w with htoken | ⟨-, htoken⟩
    · exact absurd htoken (by rw [hbuf]; simp)
    · rw [hbuf] at htoken
      exact (cons.inj htoken).2
  refine ⟨h.flow_of_eq ?_ rfl, ?_, ?_, fun hclosed => absurd hclosed hopen, h.returned⟩
  · -- the forwarder was not parked any more when its token was there
    refine Lanes.ext_at w (fun v hv => ?_) ?_ ?_ rfl rfl
    · simp only [lanes, update_of_ne hv, and_self]
    · simp [lanes, hpc, ForwarderPc.inHand]
    · simp [lanes, hbuf, ForwarderPc.isParked]
  · intro v
    by_cases hv : v = w
    · subst hv
      simp [hrest]
    · simp only [update_of_ne hv]
      exact h.token v
  · intro v hdone
    have hboth := h.done_update (by decide) (m.workerOuts w) v hdone
    rwa [update_eq_self] at hboth

theorem token_handed (hpc : m.loop = .resuming k) (hk : k < n) : Sound { m with
      resume := update m.resume ⟨k, hk⟩
        ((m.resume ⟨k, hk⟩).withBuf ((m.resume ⟨k, hk⟩).buf ++ [()]))
      loop := if k + 1 < n then .resuming (k + 1) else .receiving 0 } sent := by
  obtain ⟨os, held, st, hflow⟩ := h.flow
  obtain ⟨hparked, hempty⟩ := h.waiting hpc hk
  have hmerge : m.lanes.merge = .resuming k := by simp only [lanes, hpc, pc]
  refine ⟨flow_of_lanes (hflow.resume hmerge hk) ?_ rfl, ?_, h.done, h.closed, ?_⟩
  · refine Lanes.ext_at ⟨k, hk⟩ (fun v hv => ?_) rfl ?_ ?_ ?_
    · simp only [lanes, update_of_ne hv, and_self]
    · simp [lanes]
    · simp only [lanes, hpc]
      split <;> rfl
    · split <;> rfl
  · intro v
    by_cases hv : v = ⟨k, hk⟩
    · subst hv
      simp only [update_self, Chan.withBuf_buf, hempty, nil_append]
      exact .inr ⟨hparked, trivial⟩
    · simp only [update_of_ne hv]
      exact h.token v
  · intro j hret
    split at hret <;> simp at hret

/-- The loop picks up a record or counts a copy of a marker. -/
theorem receive {rest : List (Fin n × Record)} {loop : MergeLoop n} (hpc : m.loop = .receiving k)
    (hbuf : m.fanIn.buf = (w, r) :: rest) (hloop : loop = .sending w r 0 ∧ r.isMarker = true ∧
      ¬ k + 1 < n ∨ loop = .sending w r k ∧ r.isMarker = false) :
    Sound { m with fanIn := m.fanIn.withBuf rest, loop := loop } sent := by
  have hlt := h.arrived_lt hpc
  refine ⟨h.flow_of_eq ?_ rfl, h.token, h.done, h.closed, ?_⟩
  · -- the record stays in the queue of the lanes until it is sent
    rcases hloop with ⟨rfl, hr, hk⟩ | ⟨rfl, hr⟩
    · have hlast : k = n - 1 := by omega
      simp [lanes, hpc, hbuf, inHand, pc, hr, hlast]
    · simp [lanes, hpc, hbuf, inHand, pc, hr]
  · intro j hret
    rcases hloop with ⟨rfl, -⟩ | ⟨rfl, -⟩ <;> simp at hret

theorem hold {rest : List (Fin n × Record)} (hpc : m.loop = .receiving k)
    (hbuf : m.fanIn.buf = (w, r) :: rest) (hr : r.isMarker = true) (hk : k + 1 < n) :
    Sound { m with fanIn := m.fanIn.withBuf rest, loop := .receiving (k + 1) } sent := by
  obtain ⟨os, held, st, hflow⟩ := h.flow
  have hmerge : m.lanes.merge = .receiving k := by simp only [lanes, hpc, pc]
  have hfan : m.lanes.fanIn = (w, r) :: rest := by
    simp [lanes, hpc, hbuf, inHand]
  exact ⟨flow_of_lanes (hflow.merge_hold hmerge hfan hr hk) rfl rfl, h.token, h.done, h.closed,
    fun j hret => absurd hret (by simp)⟩

theorem stop (hpc : m.loop = .receiving k) (hbuf : m.fanIn.buf = [])
    (hclosed : m.fanIn.closed = true) : Sound { m with loop := .returned k } sent := by
  refine ⟨h.flow_of_eq ?_ rfl, h.token, h.done, h.closed, fun _ _ => ⟨hclosed, hbuf⟩⟩
  simp only [lanes, hpc, inHand, pc]

theorem send_marker (hagree : Lanes.Agree Record.isMarker sent)
    (hpc : m.loop = .sending w r k) (hr : r.isMarker = true) :
    Sound { m with out := m.out ++ [r], loop := .resuming 0 } sent := by
  obtain ⟨os, held, st, hflow⟩ := h.flow
  have hmerge : m.lanes.merge = .receiving (n - 1) := by
    simp [lanes, hpc, pc, hr]
  have hfan : m.lanes.fanIn = (w, r) :: m.fanIn.buf := by
    simp [lanes, hpc, inHand]
  exact ⟨flow_of_lanes (hflow.merge_emit hagree hmerge hfan hr (by omega)) rfl rfl, h.token,
    h.done, h.closed, fun j hret => absurd hret (by simp)⟩

theorem send_data (hpc : m.loop = .sending w r k) (hr : r.isMarker = false) :
    Sound { m with out := m.out ++ [r], loop := .receiving k } sent := by
  obtain ⟨os, held, st, hflow⟩ := h.flow
  have hfan : m.lanes.fanIn = (w, r) :: m.fanIn.buf := by
    simp [lanes, hpc, inHand]
  refine ⟨flow_of_lanes (hflow.merge_data hfan hr) ?_ rfl, h.token, h.done, h.closed,
    fun j hret => absurd hret (by simp)⟩
  simp [lanes, hpc, inHand, pc, hr]

/-- Every move of the merge keeps it sound, if the workers agree on the markers. -/
theorem move (hagree : Lanes.Agree Record.isMarker sent) (hmove : Move m m') : Sound m' sent := by
  cases hmove with
  | take hpc hbuf => exact h.take hpc hbuf
  | finish hpc hbuf hclosed => exact h.finish hpc hbuf hclosed
  | push hpc => exact h.push hpc
  | wake hpc hbuf => exact h.wake hpc hbuf
  | close hdone _ => exact ⟨h.flow, h.token, h.done, fun _ => hdone, fun k hret =>
      ⟨rfl, (h.returned k hret).2⟩⟩
  | hold hpc hbuf hr hk => exact h.hold hpc hbuf hr hk
  | last hpc hbuf hr hk => exact h.receive hpc hbuf (.inl ⟨rfl, hr, hk⟩)
  | data hpc hbuf hr => exact h.receive hpc hbuf (.inr ⟨rfl, hr⟩)
  | stop hpc hbuf hclosed => exact h.stop hpc hbuf hclosed
  | sendMarker hpc hr => exact h.send_marker hagree hpc hr
  | sendData hpc hr => exact h.send_data hpc hr
  | token hpc hk => exact h.token_handed hpc hk

end Sound

end AlignedMerge

end Weibo
