import Weibo.ForStd.Provenance
import Weibo.ForStd.Run
import Weibo.Model.WatermarkSource

/-!
# The stream of a watermark source

Whatever the schedule, a watermark source emits the records of the wrapped source in their order, up
to one that it may lose when the run is cancelled, and each of its watermarks is due to the records
emitted ahead of it. The last watermark is an exception, and it is the last thing the source emits.

The injector only adds barriers to that stream.

## Key results

- `SourceOk`: what the source has emitted of what it has received
- `watermark_ahead`: a watermark ahead of a record lies below an earlier
  timestamp by the allowed lateness
- `watermarks_ascend`: the watermarks are ascending, up to the last one
-/

namespace Weibo

open List Record BoundedOutOfOrderness

/-! ## The highest timestamp -/

/-- The highest timestamp of some records, if that is above `t`. -/
def highest (t : Int) (rs : List Record) : Int := rs.foldl (fun m r => max m r.timestamp) t

theorem highest_append (t : Int) (rs rs' : List Record) :
    highest t (rs ++ rs') = highest (highest t rs) rs' := foldl_append

theorem le_highest (t : Int) (rs : List Record) : t ≤ highest t rs := by
  induction rs generalizing t with
  | nil => exact Int.le_refl t
  | cons r rs ih => exact (le_max_left t r.timestamp).trans (ih _)

variable {r m : Record} {phase : SourcePhase}

theorem le_highest_of_mem (t : Int) {rs : List Record} (hr : r ∈ rs) :
    r.timestamp ≤ highest t rs := by
  obtain ⟨a, b, rfl⟩ := append_of_mem hr
  rw [highest_append]
  exact (le_max_right _ r.timestamp).trans (le_highest _ b)

/-- It is `t` or the timestamp of a record. -/
theorem highest_eq (t : Int) (rs : List Record) :
    highest t rs = t ∨ ∃ r ∈ rs, r.timestamp = highest t rs := by
  induction rs using reverseRecOn with
  | nil => exact .inl rfl
  | append_singleton rs r ih =>
    have hmax : highest t (rs ++ [r]) = max (highest t rs) r.timestamp := highest_append t rs [r]
    rw [hmax]
    by_cases hle : highest t rs ≤ r.timestamp
    · exact .inr ⟨r, by simp, (max_eq_right hle).symm⟩
    · rw [max_eq_left (by omega)]
      rcases ih with hinit | ⟨r', hr', hts⟩
      · exact .inl hinit
      · exact .inr ⟨r', mem_append_left _ hr', hts⟩

/-- The highest timestamp of some records, or the zero time if none is later. -/
abbrev maxTimestamp (rs : List Record) : Int := highest zeroTime rs

theorem maxTimestamp_concat (rs : List Record) (r : Record) :
    maxTimestamp (rs ++ [r]) = max (maxTimestamp rs) r.timestamp := highest_append ..

theorem maxTimestamp_le_append (rs rs' : List Record) :
    maxTimestamp rs ≤ maxTimestamp (rs ++ rs') := by
  rw [maxTimestamp, maxTimestamp, highest_append]
  exact le_highest _ rs'

/-- Unless it is the zero time, it is the timestamp of a record. -/
theorem exists_of_maxTimestamp_ne {rs : List Record} (h : maxTimestamp rs ≠ zeroTime) :
    ∃ r ∈ rs, r.timestamp = maxTimestamp rs := (highest_eq zeroTime rs).resolve_left h

/-! ## The source -/

/-- What the source has emitted of the records it has received. -/
def SourcePhase.Holds (received sent : List Record) : SourcePhase → Prop
  | .selecting => received = sent
  | .ticking _ => received = sent
  | .forwarding r => received = sent ++ [r]
  -- a record that could not be sent any more is lost
  | .finishing => sent <+: received
  | .returned => sent <+: received

theorem SourcePhase.Holds.prefix {received sent : List Record} (h : phase.Holds received sent) : sent <+: received := by
  cases phase with
  | selecting => exact (show received = sent from h) ▸ prefix_refl _
  | ticking wm => exact (show received = sent from h) ▸ prefix_refl _
  | forwarding r => exact (show received = sent ++ [r] from h) ▸ prefix_append _ _
  | finishing => exact h
  | returned => exact h

/-- What has been emitted is due to what has been received. -/
structure SourceOk (allowedLateness : Int) (received emitted : List Record)
    (source : WatermarkSource) : Prop where
  lateness : source.generator.allowedLateness = allowedLateness
  highest : source.generator.maxTimestamp = maxTimestamp received
  data : ∀ r ∈ received, r.isData = true
  held : source.phase.Holds received (emitted.filter Record.isData)
  ticking : ∀ wm, source.phase = .ticking wm →
    maxTimestamp received ≠ zeroTime ∧ wm = maxTimestamp received - allowedLateness
  /-- A watermark is below the records ahead of it by the allowed lateness, unless it is the last
      one. -/
  marks : ∀ a m b, emitted = a ++ m :: b → m.isWatermark = true →
    (maxTimestamp (a.filter Record.isData) ≠ zeroTime ∧
      m.timestamp = maxTimestamp (a.filter Record.isData) - allowedLateness) ∨
    (m = Record.newWatermark maxWatermark ∧ b = [] ∧ source.phase = .returned)

namespace SourceOk

variable {L : Int} {received emitted : List Record} {source : WatermarkSource}

theorem initial (L : Int) : SourceOk L [] [] ⟨.new L, .selecting⟩ where
  lateness := rfl
  highest := rfl
  data r hr := absurd hr (by simp)
  held := rfl
  ticking wm h := absurd h (by simp)
  marks a m b h := absurd h (by simp)

variable (h : SourceOk L received emitted source)

include h

/-- Before the source returns, all its watermarks are the generator's. -/
theorem marks_of_running (hphase : source.phase ≠ .returned) {a b : List Record}
    (hsplit : emitted = a ++ m :: b) (hm : m.isWatermark = true) :
    maxTimestamp (a.filter isData) ≠ zeroTime ∧ m.timestamp = maxTimestamp (a.filter isData) - L :=
  (h.marks a m b hsplit hm).resolve_right fun hlast => hphase hlast.2.2

/-- A record arrives. -/
theorem record (hphase : source.phase = .selecting) (hr : r.isData = true) :
    SourceOk L (received ++ [r]) emitted ⟨source.generator.onRecord r.timestamp, .forwarding r⟩ where
  lateness := by
    rw [← h.lateness, onRecord]
    split <;> rfl
  highest := by
    rw [maxTimestamp_concat, ← h.highest, onRecord]
    split
    · rw [max_eq_right (by omega)]
    · rw [max_eq_left (by omega)]
  data := by
    intro x hx
    rcases mem_append.mp hx with hx | hx
    · exact h.data x hx
    · rw [mem_singleton.mp hx, hr]
  held := by
    have hheld := h.held
    rw [hphase] at hheld
    rw [show received = emitted.filter isData from hheld]
    rfl
  ticking wm heq := absurd heq (by simp)
  marks _ _ _ hsplit hm := .inl (h.marks_of_running (by rw [hphase]; simp) hsplit hm)

/-- The source moves on without sending. -/
theorem goto (hphase : source.phase ≠ .returned)
    (hheld : phase.Holds received (emitted.filter isData))
    (hticking : ∀ wm, phase = .ticking wm →
      maxTimestamp received ≠ zeroTime ∧ wm = maxTimestamp received - L) :
    SourceOk L received emitted { source with phase := phase } where
  lateness := h.lateness
  highest := h.highest
  data := h.data
  held := hheld
  ticking := hticking
  marks _ _ _ hsplit hm := .inl (h.marks_of_running hphase hsplit hm)

/-- The generator has a watermark to send. -/
theorem tick (hphase : source.phase = .selecting) (hne : source.generator.getWatermark ≠ zeroTime) :
    SourceOk L received emitted
      { source with phase := .ticking source.generator.getWatermark } := by
  have hheld := h.held
  rw [hphase] at hheld
  have hholds : (SourcePhase.ticking source.generator.getWatermark).Holds received
      (emitted.filter isData) := hheld
  apply h.goto (by rw [hphase]; simp) hholds
  intro wm heq
  cases heq
  rw [getWatermark, h.highest, h.lateness] at hne ⊢
  split at hne
  · exact absurd rfl hne
  · rename_i hmax
    rw [if_neg hmax]
    exact ⟨hmax, rfl⟩

/-- Something is sent that is not the last watermark. -/
theorem emit (hphase : source.phase ≠ .returned) {x : Record}
    (hheld : received = (emitted ++ [x]).filter isData)
    (hx : x.isWatermark = true → maxTimestamp (emitted.filter isData) ≠ zeroTime ∧
        x.timestamp = maxTimestamp (emitted.filter isData) - L) :
    SourceOk L received (emitted ++ [x]) { source with phase := .selecting } where
  lateness := h.lateness
  highest := h.highest
  data := h.data
  held := hheld
  ticking wm heq := absurd heq (by simp)
  marks a m b hsplit hm := by
    rcases concat_eq_append_cons hsplit with ⟨rfl, rfl, rfl⟩ | ⟨b', -, hsplit⟩
    · exact .inl (hx hm)
    · exact .inl (h.marks_of_running hphase hsplit hm)

theorem send_record (hphase : source.phase = .forwarding r) :
    SourceOk L received (emitted ++ [r]) { source with phase := .selecting } := by
  have hheld := h.held
  rw [hphase] at hheld
  have hrec : received = emitted.filter isData ++ [r] := hheld
  have hr : r.isData = true := h.data r (by rw [hrec]; simp)
  apply h.emit (by rw [hphase]; simp)
  · rw [filter_append, filter_cons_of_pos hr]
    exact hrec
  · intro hw
    rw [isData, hw] at hr
    simp at hr

theorem send_watermark {wm : Int} (hphase : source.phase = .ticking wm) :
    SourceOk L received (emitted ++ [newWatermark wm]) { source with phase := .selecting } := by
  have hheld := h.held
  rw [hphase] at hheld
  have hrec : received = emitted.filter isData := hheld
  apply h.emit (by rw [hphase]; simp)
  · rw [filter_append, ← hrec]
    exact (append_nil _).symm
  · intro _
    rw [← hrec]
    exact h.ticking wm hphase

/-- The last watermark. -/
theorem send_max (hphase : source.phase = .finishing) :
    SourceOk L received (emitted ++ [newWatermark maxWatermark])
      { source with phase := .returned } where
  lateness := h.lateness
  highest := h.highest
  data := h.data
  held := by
    have hheld := h.held.prefix
    rw [filter_append]
    exact (append_nil (emitted.filter isData)).symm ▸ hheld
  ticking wm heq := absurd heq (by simp)
  marks a m b hsplit hm := by
    rcases concat_eq_append_cons hsplit with ⟨-, rfl, rfl⟩ | ⟨b', -, hsplit⟩
    · exact .inr ⟨rfl, rfl, rfl⟩
    · exact .inl (h.marks_of_running (by rw [hphase]; simp) hsplit hm)

end SourceOk

/-! ## The stream that the injector forwards -/

namespace EventTimeRun

/-- What the source has emitted: the injector has forwarded part of it. -/
def emitted (s : EventTimeRun) : List Record :=
  s.run.forwarded.filter (fun r => !r.isBarrier) ++ s.sourceCh

variable {s s' : EventTimeRun}

/-- The injector forwards the next record of the source. -/
theorem forward_spec (hs : step s .forward = some s') :
    ∃ r rest run, s.sourceCh = r :: rest ∧ r.isBarrier = false ∧
      s.run.step (.forward r) = some run ∧ run.forwarded = s.run.forwarded ++ [r] ∧
      s' = { s with sourceCh := rest, run := run } := by
  simp only [step] at hs
  split at hs
  · rename_i r rest hch
    obtain ⟨run, hrun, rfl⟩ := Option.map_eq_some_iff.mp hs
    have hstep := hrun
    simp only [CutRun.step] at hrun
    split at hrun
    · rename_i hguard
      cases hrun
      exact ⟨r, rest, _, hch, hguard.2, hstep, rfl, rfl⟩
    · simp at hrun
  · simp at hs

/-- The injector injects a barrier. -/
theorem barrier_spec {kind : BarrierKind} (hs : step s (.barrier kind) = some s') :
    ∃ run, s.Injects kind ∧ s.run.step (.barrier kind) = some run ∧
      run.forwarded = s.run.forwarded ++ [newBarrier (s.run.injector.nextID kind)] ∧
      s' = { s with run := run } := by
  simp only [step] at hs
  split at hs
  · rename_i hinjects
    obtain ⟨run, hrun, rfl⟩ := Option.map_eq_some_iff.mp hs
    have hstep := hrun
    simp only [CutRun.step] at hrun
    split at hrun <;> cases hrun
    exact ⟨_, hinjects, hstep, rfl, rfl⟩
  · simp at hs

/-- A stage takes a step. -/
theorem stage_spec {i : ℕ} {e : StageEvent} (hs : step s (.stage i e) = some s') :
    ∃ run, s.run.step (.stage i e) = some run ∧ run.forwarded = s.run.forwarded ∧
      s' = { s with run := run, log := s.log ++ taken s.run.stages i e } := by
  obtain ⟨run, hrun, rfl⟩ := Option.map_eq_some_iff.mp hs
  have hstep := hrun
  obtain ⟨⟨stages, out, obs⟩, -, rfl⟩ := Option.map_eq_some_iff.mp hrun
  exact ⟨_, hstep, rfl, rfl⟩

/-- What a step does to the injector and the stages. -/
theorem run_step {e : Event} (hs : step s e = some s') : (s'.run = s.run ∧ s'.log = s.log) ∨
    (∃ r, s.run.step (.forward r) = some s'.run ∧ s'.log = s.log) ∨
    (∃ kind, s.run.step (.barrier kind) = some s'.run ∧ s'.log = s.log ∧ e = .barrier kind ∧
      s.Injects kind) ∨ (∃ i ev, s.run.step (.stage i ev) = some s'.run ∧
      s'.log = s.log ++ taken s.run.stages i ev) := by
  have hs' := hs
  revert hs
  fun_cases step s e <;> intro hs <;> try cases hs
  case case4.refl => split <;> exact .inl ⟨rfl, rfl⟩
  case case20 =>
    obtain ⟨r, rest, run, -, -, hrun, -, rfl⟩ := forward_spec hs'
    exact .inr (.inl ⟨r, hrun, rfl⟩)
  case case22 kind _ =>
    obtain ⟨run, hinjects, hrun, -, rfl⟩ := barrier_spec hs'
    exact .inr (.inr (.inl ⟨kind, hrun, rfl, rfl, hinjects⟩))
  case case24 i ev =>
    obtain ⟨run, hrun, -, rfl⟩ := stage_spec hs'
    exact .inr (.inr (.inr ⟨i, ev, hrun, rfl⟩))
  all_goals exact .inl ⟨rfl, rfl⟩

/-- What a step does to the stream: nothing, or one more record or barrier. -/
theorem forwarded_step {e : Event} (hs : step s e = some s') : s'.run.forwarded = s.run.forwarded ∨
    (∃ r, r.isBarrier = false ∧ s'.run.forwarded = s.run.forwarded ++ [r]) ∨
    (∃ kind, e = .barrier kind ∧ s.Injects kind ∧
      s'.run.forwarded = s.run.forwarded ++ [newBarrier (s.run.injector.nextID kind)]) := by
  obtain ⟨hrun, -⟩ | ⟨r, hrun, -⟩ | ⟨kind, hrun, -, he, hinjects⟩ | ⟨i, ev, hrun, -⟩ := run_step hs
  · exact .inl (by rw [hrun])
  · simp only [CutRun.step] at hrun
    split at hrun
    · rename_i hguard
      exact .inr (.inl ⟨r, hguard.2, by rw [← Option.some.inj hrun]; rfl⟩)
    · simp at hrun
  · simp only [CutRun.step] at hrun
    split at hrun
    · exact .inr (.inr ⟨kind, he, hinjects, by rw [← Option.some.inj hrun]; rfl⟩)
    · simp at hrun
  · obtain ⟨⟨stages, out, obs⟩, -, heq⟩ := Option.map_eq_some_iff.mp hrun
    exact .inl (by rw [← heq])

/-- The input and the stream that the source makes of it. -/
structure StreamInv (L : Int) (input : List Record) (s : EventTimeRun) : Prop where
  input_eq : input = s.received ++ s.pending
  source : SourceOk L s.received s.emitted s.source
  /-- Barriers are no watermarks. -/
  barriers : ∀ r ∈ s.run.forwarded, r.isBarrier = true → r.isWatermark = false

variable {L : Int} {input : List Record} {s s' : EventTimeRun}

theorem streamInv_initial {tf : TimeFormat} (L : Int) (runNonce : ℕ) (plan : List (StageSpec tf))
    (input : List Record) : StreamInv L input (initial L runNonce plan input) where
  input_eq := rfl
  source := SourceOk.initial L
  barriers r hr := absurd hr (by simp [initial, CutRun.initial])

/-- The source moves on without sending. -/
theorem StreamInv.goto (h : StreamInv L input s) (hphase : s.source.phase ≠ .returned)
    (hheld : phase.Holds s.received (s.emitted.filter isData))
    (hticking : ∀ wm, phase ≠ .ticking wm) : StreamInv L input (s.goto phase) :=
  ⟨h.input_eq, h.source.goto hphase hheld fun wm heq => absurd heq (hticking wm), h.barriers⟩

theorem emitted_emit (s : EventTimeRun) (r : Record) (phase : SourcePhase) :
    (s.emit r phase).emitted = s.emitted ++ [r] := by
  show _ ++ (s.sourceCh ++ [r]) = _
  rw [← append_assoc]
  rfl

/-- The source sends something. -/
theorem StreamInv.emit (h : StreamInv L input s)
    (hsource : SourceOk L s.received (s.emitted ++ [r]) { s.source with phase := phase }) :
    StreamInv L input (s.emit r phase) := by
  refine ⟨h.input_eq, ?_, h.barriers⟩
  rw [emitted_emit]
  exact hsource

/-- A step of the injector or a stage leaves the source's stream. -/
theorem StreamInv.run (h : StreamInv L input s) {sourceCh : List Record} {run : CutRun}
    (log : List Taken)
    (hemitted : run.forwarded.filter (fun r => !r.isBarrier) ++ sourceCh = s.emitted)
    (hbarriers : ∀ r ∈ run.forwarded, r.isBarrier = true → r.isWatermark = false) :
    StreamInv L input { s with sourceCh := sourceCh, run := run, log := log } where
  input_eq := h.input_eq
  source := by
    show SourceOk L s.received (_ ++ _) s.source
    rw [hemitted]
    exact h.source
  barriers := hbarriers

/-- What the injector forwards was emitted already. -/
theorem emitted_forward {rest : List Record} {run : CutRun} (hch : s.sourceCh = r :: rest)
    (hr : r.isBarrier = false) (hforwarded : run.forwarded = s.run.forwarded ++ [r]) :
    run.forwarded.filter (fun r => !r.isBarrier) ++ rest = s.emitted := by
  rw [hforwarded, filter_append, filter_cons_of_pos (by rw [hr]; rfl), append_assoc, emitted, hch]
  rfl

/-- A barrier is not the source's. -/
theorem emitted_barrier {id : String} {run : CutRun}
    (hforwarded : run.forwarded = s.run.forwarded ++ [newBarrier id]) :
    run.forwarded.filter (fun r => !r.isBarrier) ++ s.sourceCh = s.emitted := by
  rw [hforwarded, filter_append, emitted]
  exact congrArg (· ++ s.sourceCh) (append_nil _)

theorem streamInv_step (hinput : ∀ r ∈ input, r.isData = true) {e : Event}
    (h : StreamInv L input s) (hs : step s e = some s') : StreamInv L input s' := by
  have hs' := hs
  revert hs
  fun_cases step s e <;> intro hs <;> try cases hs
  case case1.refl => exact ⟨h.input_eq, h.source, h.barriers⟩
  case case2.refl r rest hpending hphase =>
    have heq : input = (s.received ++ [r]) ++ rest := by
      rw [h.input_eq, hpending, append_assoc]
      rfl
    exact ⟨heq, h.source.record hphase (hinput r (by rw [heq]; simp)), h.barriers⟩
  case case4.refl hphase _ =>
    split
    · exact h
    · rename_i hne
      exact ⟨h.input_eq, h.source.tick hphase hne, h.barriers⟩
  case case6.refl hphase _ | case9.refl hphase | case10.refl hphase | case18.refl hphase =>
    exact h.goto (by rw [hphase]; simp) h.source.held.prefix (by simp)
  case case11.refl hphase =>
    have hheld := h.source.held
    rw [hphase] at hheld
    exact h.goto (by rw [hphase]; simp) hheld (by simp)
  case case14.refl hphase => exact h.emit (h.source.send_record hphase)
  case case15.refl hphase => exact h.emit (h.source.send_watermark hphase)
  case case16.refl hphase => exact h.emit (h.source.send_max hphase)
  case case20 =>
    obtain ⟨r, rest, run, hch, hbar, -, hforwarded, rfl⟩ := forward_spec hs'
    refine h.run s.log (emitted_forward hch hbar hforwarded) ?_
    intro x hx hbarrier
    rw [hforwarded] at hx
    rcases mem_append.mp hx with hx | hx
    · exact h.barriers x hx hbarrier
    · rw [mem_singleton.mp hx, hbar] at hbarrier
      simp at hbarrier
  case case22 =>
    obtain ⟨run, -, -, hforwarded, rfl⟩ := barrier_spec hs'
    refine h.run s.log (emitted_barrier hforwarded) ?_
    intro x hx hbarrier
    rw [hforwarded] at hx
    rcases mem_append.mp hx with hx | hx
    · exact h.barriers x hx hbarrier
    · rw [mem_singleton.mp hx]
      rfl
  case case24 =>
    obtain ⟨run, -, hforwarded, rfl⟩ := stage_spec hs'
    refine h.run _ (by rw [hforwarded]; rfl) ?_
    rw [hforwarded]
    exact h.barriers

/-! ## What the stream says -/

/-- What is ahead of a record in the forwarded stream is ahead of it in what the source emitted. -/
theorem emitted_split {f₁ f₂ : List Record} (hf : s.run.forwarded = f₁ ++ r :: f₂)
    (hr : r.isBarrier = false) :
    ∃ rest, s.emitted = f₁.filter (fun r => !r.isBarrier) ++ r :: rest := by
  refine ⟨f₂.filter (fun r => !r.isBarrier) ++ s.sourceCh, ?_⟩
  rw [emitted, hf, filter_append, filter_cons_of_pos (by rw [hr]; rfl), append_assoc]
  rfl

section Order

variable (h : StreamInv L input s)

include h

/-- What the stream says of its barriers, said of its watermarks. -/
theorem StreamInv.isBarrier_eq_false (hm : m ∈ s.run.forwarded) (hw : m.isWatermark = true) : m.isBarrier = false := by
  cases hbar : m.isBarrier with
  | false => rfl
  | true =>
    rw [h.barriers m hm hbar] at hw
    simp at hw

/-- All watermarks are the source's. -/
theorem StreamInv.filter_watermark :
    (s.run.forwarded.filter fun r => !r.isBarrier).filter isWatermark =
      s.run.forwarded.filter isWatermark := by
  rw [filter_filter]
  apply filter_congr
  intro r hr
  cases hb : r.isBarrier with
  | false => rw [Bool.not_false, Bool.and_true]
  | true => rw [h.barriers r hr hb, Bool.false_and]

/-- What has been emitted stands at the start of the input. -/
theorem StreamInv.sent_prefix : s.emitted.filter isData <+: input := by
  rw [h.input_eq]
  exact h.source.held.prefix.trans (prefix_append _ _)

/-- A watermark that is forwarded ahead of a record is below an earlier record by the allowed
    lateness. -/
theorem StreamInv.watermark_ahead {f₁ f₂ : List Record} (hf : s.run.forwarded = f₁ ++ r :: f₂)
    (hr : r.isMarker = false) (hm : m ∈ f₁) (hw : m.isWatermark = true) :
    ∃ before after, input = before ++ r :: after ∧
      ∃ r' ∈ before, m.timestamp = r'.timestamp - L := by
  obtain ⟨hb, -⟩ := Bool.or_eq_false_iff.mp hr
  obtain ⟨rest, hsplit⟩ := emitted_split hf hb
  have hdata := isMarker_eq_false.mp hr
  -- the watermark stands ahead of the record in what the source emitted
  have hmb : m.isBarrier = false :=
    h.isBarrier_eq_false (by rw [hf]; exact mem_append_left _ hm) hw
  have hmem : m ∈ f₁.filter (fun r => !r.isBarrier) :=
    mem_filter.mpr ⟨hm, by rw [hmb]; rfl⟩
  obtain ⟨a, b, hab⟩ := append_of_mem hmem
  have hfirst : s.emitted = a ++ m :: (b ++ r :: rest) := by
    rw [hsplit, hab, append_assoc]
    rfl
  -- and the record behind it shows that it is not the last one
  rcases h.source.marks a m _ hfirst hw with ⟨hne, hts⟩ | ⟨-, hnil, -⟩
  · obtain ⟨r', hr', hmax⟩ := exists_of_maxTimestamp_ne hne
    obtain ⟨after, hafter⟩ := h.sent_prefix
    refine ⟨(f₁.filter fun r => !r.isBarrier).filter isData,
      rest.filter isData ++ after, ?_, r', ?_, ?_⟩
    · rw [← hafter, hsplit, filter_append, filter_cons_of_pos hdata, append_assoc]
      rfl
    · rw [hab, filter_append]
      exact mem_append_left _ hr'
    · rw [hts, hmax]
  · simp at hnil

omit h in
/-- Barriers are no data. -/
theorem filter_isData_of_not_barrier (rs : List Record) :
    (rs.filter fun r => !r.isBarrier).filter isData = rs.filter isData := by
  rw [filter_filter]
  apply filter_congr
  intro r _
  rw [isData, Bool.and_assoc, Bool.and_self]

/-- What has been forwarded stands at the start of the input. -/
theorem StreamInv.data_prefix {f : List Record} (hf : f <+: s.run.forwarded) : f.filter isData <+: input := by
  have hsent := h.sent_prefix
  rw [emitted, filter_append, filter_isData_of_not_barrier] at hsent
  exact (hf.filter _).trans ((prefix_append _ _).trans hsent)

/-- A watermark lies below a record ahead of it by the allowed lateness, or it is the last one. -/
theorem StreamInv.watermark_cases {f : List Record}
    (hf : f <+: s.run.forwarded) (hm : m ∈ f) (hw : m.isWatermark = true) :
    (∃ r ∈ f.filter isData, m.timestamp = r.timestamp - L) ∨ m.timestamp = maxWatermark := by
  have hmb := h.isBarrier_eq_false (hf.subset hm) hw
  obtain ⟨a, b, rfl⟩ := append_of_mem hm
  obtain ⟨rest, hrest⟩ := hf
  rw [append_assoc, cons_append] at hrest
  obtain ⟨rest', hsplit⟩ := emitted_split hrest.symm hmb
  rcases h.source.marks _ m _ hsplit hw with ⟨hne, hts⟩ | ⟨hlast, -, -⟩
  · obtain ⟨r, hr, hmax⟩ := exists_of_maxTimestamp_ne hne
    obtain ⟨hr, hd⟩ := mem_filter.mp hr
    have hra : r ∈ a := (mem_filter.mp hr).1
    exact .inl ⟨r, mem_filter.mpr ⟨mem_append_left _ hra, hd⟩, by rw [hts, hmax]⟩
  · exact .inr (by rw [hlast]; rfl)

/-- The watermarks ascend, up to the last one if a record is later than that by more than the
    allowed lateness. -/
theorem StreamInv.watermarks_ascend :
    s.emitted.Pairwise fun m m' => m.isWatermark = true → m'.isWatermark = true →
      m.timestamp ≤ m'.timestamp ∨
        m'.timestamp = maxWatermark ∧ ∃ r ∈ input, maxWatermark + L < r.timestamp := by
  rw [pairwise_iff_getElem]
  intro i j hi hj hij hm hm'
  have hsplit : ∀ k (hk : k < s.emitted.length),
      s.emitted = s.emitted.take k ++ s.emitted[k] :: s.emitted.drop (k + 1) := by
    intro k hk
    rw [getElem_cons_drop, take_append_drop]
  -- the first of the two is not the last element of the stream
  have hfirst : maxTimestamp ((s.emitted.take i).filter isData) ≠ zeroTime ∧
      s.emitted[i].timestamp = maxTimestamp ((s.emitted.take i).filter isData) - L := by
    rcases h.source.marks _ _ _ (hsplit i hi) hm with hgen | ⟨-, hnil, -⟩
    · exact hgen
    · have hlen := congrArg length hnil
      rw [length_drop, length_nil] at hlen
      omega
  obtain ⟨hne, hts⟩ := hfirst
  rcases h.source.marks _ _ _ (hsplit j hj) hm' with ⟨-, hts'⟩ | ⟨hlast, -, -⟩
  · left
    obtain ⟨more, hmore⟩ := (take_prefix_take_left (Nat.le_of_lt hij) :
      s.emitted.take i <+: s.emitted.take j)
    have hle := maxTimestamp_le_append ((s.emitted.take i).filter isData) (more.filter isData)
    rw [← filter_append, hmore] at hle
    omega
  · obtain ⟨r, hr, hmax⟩ := exists_of_maxTimestamp_ne hne
    by_cases hle : s.emitted[i].timestamp ≤ maxWatermark
    · left
      rw [hlast]
      exact hle
    · right
      refine ⟨by rw [hlast]; rfl, r, ?_, by omega⟩
      apply h.sent_prefix.subset
      exact ((take_sublist i s.emitted).filter isData).subset hr

end Order

end EventTimeRun

end Weibo
