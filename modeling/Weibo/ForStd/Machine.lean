import Weibo.ForStd.Component
import Weibo.ForStd.Transducer

/-!
# Machines behind a queue

A `Machine` consumes the elements of a stream one at a time. Cut elements pass through it unchanged
and leave its state alone; its state is observed as they pass. Each step takes a choice, which
stands for what the environment decides (an iteration order, say), so a machine may be
nondeterministic and is still executable. A machine may also stop, emitting what it holds.

`Machine.component` is a machine behind its input queue as a `Component`.
-/

open List Option

variable {κ α C : Type} {cut align : α → Bool}

/-- A stream processor with choices in `κ` and observations in `C`. Other than passing aligned
    elements on, or dropping them, it emits none of them. -/
structure Machine (κ α C : Type) (cut align : α → Bool) : Type 1 where
  State : Type
  step : κ → State → α → State × List α
  flush : κ → State → List α
  observe : State → C
  passes : α → Bool
  passes_cut : ∀ a, cut a = true → passes a = true
  step_align : ∀ c s a, cut a = false →
    (step c s a).2.filter align = if align a && passes a then [a] else []
  flush_align : ∀ c s, (flush c s).filter align = []

namespace Machine

variable (M : Machine κ α C cut align)

/-- The machine on all elements: cut elements pass through. -/
def toTransducer : Transducer M.State (κ × α) α :=
  ⟨fun s x => if cut x.2 then (s, [x.2]) else M.step x.1 s x.2⟩

theorem toTransducer_step_cut {s : M.State} {x : κ × α} (h : cut x.2 = true) :
    M.toTransducer.step s x = (s, [x.2]) := if_pos h

theorem toTransducer_step_of_not_cut {s : M.State} {x : κ × α} (h : cut x.2 = false) :
    M.toTransducer.step s x = M.step x.1 s x.2 := if_neg (by rw [h]; decide)

variable (hca : ∀ a, cut a = true → align a = true)

include hca

theorem step_outs_align (s : M.State) (x : κ × α) :
    (M.toTransducer.step s x).2.filter align = if align x.2 && M.passes x.2 then [x.2] else [] := by
  cases hc : cut x.2 with
  | true =>
    rw [M.toTransducer_step_cut hc, hca x.2 hc, M.passes_cut x.2 hc]
    simp [hca x.2 hc]
  | false =>
    rw [M.toTransducer_step_of_not_cut hc]
    exact M.step_align x.1 s x.2 hc

/-- The aligned elements of the output are those of the input that pass. -/
theorem outs_align (s : M.State) (xs : List (κ × α)) :
    (M.toTransducer.outs s xs).filter align = ((xs.map Prod.snd).filter align).filter M.passes := by
  have hstep : ∀ s x, (M.toTransducer.step s x).2.filter align =
      [x.2].filter fun a => M.passes a && align a := by
    intro s x
    rw [M.step_outs_align hca, filter_cons, filter_nil, Bool.and_comm]
  rw [M.toTransducer.outs_filter hstep, List.filter_filter]

/-- A step emits a cut element only when it takes it from the input. -/
theorem step_of_mem_cut {m : α} (hm : cut m = true)
    (s : M.State) (x : κ × α) (hmem : m ∈ (M.toTransducer.step s x).2) :
    (M.toTransducer.step s x).2 = [m] ∧ x.2 = m := by
  have hfilter : m ∈ (M.toTransducer.step s x).2.filter align :=
    mem_filter.mpr ⟨hmem, hca m hm⟩
  rw [M.step_outs_align hca] at hfilter
  split at hfilter
  · obtain rfl := mem_singleton.mp hfilter
    rw [M.toTransducer_step_cut hm]
    exact ⟨rfl, rfl⟩
  · simp at hfilter

/-- Output ahead of a cut element is due to the input ahead of it. -/
theorem outs_split {s : M.State} {xs : List (κ × α)}
    {g₁ g₂ : List α} {m : α} (hm : cut m = true) (h : M.toTransducer.outs s xs = g₁ ++ m :: g₂) :
    ∃ d₁ x d₂, xs = d₁ ++ x :: d₂ ∧ x.2 = m ∧ M.toTransducer.outs s d₁ = g₁ :=
  M.toTransducer.outs_split (M.step_of_mem_cut hca hm) h

end Machine

/-- A machine with its input queue. `init` is the state it started from. -/
structure Cell (κ α C : Type) (cut align : α → Bool) : Type 1 where
  machine : Machine κ α C cut align
  init : machine.State
  state : machine.State
  inbox : List α
  closed : Bool

namespace Cell

/-- A machine before its first element. -/
def fresh (M : Machine κ α C cut align) (init : M.State) : Cell κ α C cut align :=
  ⟨M, init, init, [], false⟩

/-- What a cell is configured with: the machine and its initial state. -/
abbrev Config (κ α C : Type) (cut align : α → Bool) := (M : Machine κ α C cut align) × M.State

/-- A cell takes the next element, or stops. -/
inductive Event (κ : Type) where
  | take (c : κ)
  | finish (c : κ)

/-- Take the next element of the queue; a cut element is observed and passed. -/
def step (s : Cell κ α C cut align) :
    Event κ → Option (Cell κ α C cut align × List α × List (α × C))
  | .take c =>
    match s.closed, s.inbox with
    | false, a :: rest =>
      if cut a then some ({ s with inbox := rest }, [a], [(a, s.machine.observe s.state)])
      else
        let r := s.machine.step c s.state a
        some ({ s with inbox := rest, state := r.1 }, r.2, [])
    | _, _ => none
  | .finish c =>
    if s.closed then none else some ({ s with closed := true }, s.machine.flush c s.state, [])

/-- The elements consumed so far lead to the state and to what was emitted; a stopped machine may
    have emitted more. -/
def Ok (s : Cell κ α C cut align) (src dst : List α) : Prop :=
  ∃ (done : List (κ × α)) (extra : List α), src = done.map Prod.snd ++ s.inbox ∧
    s.state = s.machine.toTransducer.state s.init done ∧
    dst = s.machine.toTransducer.outs s.init done ++ extra ∧
    extra.filter align = [] ∧ (s.closed = false → extra = [])

theorem ok_fresh (M : Machine κ α C cut align) (init : M.State) :
    Ok (fresh M init) ([] : List α) [] :=
  ⟨[], [], rfl, rfl, rfl, rfl, fun _ => rfl⟩

/-- A complete input, with some choices, leads to an output. -/
def Emits (k : Config κ α C cut align) (src dst : List α) : Prop :=
  ∃ done : List (κ × α), done.map Prod.snd = src ∧ dst = k.1.toTransducer.outs k.2 done

/-- A complete input, with some choices, leads to a state that is observed. -/
def Observes (k : Config κ α C cut align) (src : List α) (c : C) : Prop :=
  ∃ done : List (κ × α), done.map Prod.snd = src ∧
    c = k.1.observe (k.1.toTransducer.state k.2 done)

variable {s s' : Cell κ α C cut align} {src dst out : List α} {obs : List (α × C)} {e : Event κ}

/-- Taking an element is a step of the machine, also if it only passes it. -/
theorem step_take {c : κ} (h : s.step (.take c) = some (s', out, obs)) :
    ∃ a rest, s.closed = false ∧ s.inbox = a :: rest ∧
      s' = { s with inbox := rest, state := (s.machine.toTransducer.step s.state (c, a)).1 } ∧
      out = (s.machine.toTransducer.step s.state (c, a)).2 := by
  simp only [step] at h
  split at h
  swap
  · simp at h
  rename_i a rest hcl hin
  cases hcut : cut a with
  | true =>
    rw [if_pos hcut] at h
    cases h
    have hstep := s.machine.toTransducer_step_cut (s := s.state) (x := (c, a)) hcut
    exact ⟨a, rest, hcl, hin, by rw [hstep], by rw [hstep]⟩
  | false =>
    rw [if_neg (by rw [hcut]; decide)] at h
    cases h
    have hstep := s.machine.toTransducer_step_of_not_cut (s := s.state) (x := (c, a)) hcut
    exact ⟨a, rest, hcl, hin, by rw [hstep], by rw [hstep]⟩

theorem step_finish {c : κ} (h : s.step (.finish c) = some (s', out, obs)) :
    s.closed = false ∧ s' = { s with closed := true } ∧ out = s.machine.flush c s.state := by
  simp only [step] at h
  split at h
  · simp at h
  · rename_i hcl
    simp only [some.injEq, Prod.mk.injEq] at h
    exact ⟨by simpa using hcl, h.1.symm, h.2.1.symm⟩

/-- An element moves from the queue to what was consumed. -/
theorem done_snoc {rest : List α} {done : List (κ × α)} {a : α}
    (hsrc : src = done.map Prod.snd ++ s.inbox) (hin : s.inbox = a :: rest) (c : κ) :
    src = (done ++ [(c, a)]).map Prod.snd ++ rest := by
  rw [hsrc, hin, map_append, append_assoc]
  rfl

theorem ok_step (hok : s.Ok src dst) (h : s.step e = some (s', out, obs)) : s'.Ok src (dst ++ out) := by
  obtain ⟨done, extra, hsrc, hstate, hdst, hextra, hclosed⟩ := hok
  cases e with
  | take c =>
    obtain ⟨a, rest, hcl, hin, rfl, rfl⟩ := step_take h
    rw [hclosed hcl, append_nil] at hdst
    refine ⟨done ++ [(c, a)], [], done_snoc hsrc hin c, ?_, ?_, rfl, fun _ => rfl⟩
    · rw [Transducer.state_snoc, ← hstate]
    · rw [Transducer.outs_snoc, ← hstate, hdst, append_nil]
  | finish c =>
    obtain ⟨hcl, rfl, rfl⟩ := step_finish h
    rw [hclosed hcl, append_nil] at hdst
    refine ⟨done, _, hsrc, hstate, ?_, s.machine.flush_align c s.state, ?_⟩
    · rw [hdst]
    · intro hfalse
      simp at hfalse

/-- What a cell emitted ahead of a cut is due to what it consumed ahead of it. -/
theorem ok_cut (hca : ∀ a, cut a = true → align a = true)
    {g₁ g₂ : List α} {m : α} (hok : s.Ok src dst) (hm : cut m = true) (h : dst = g₁ ++ m :: g₂) :
    ∃ f₁ f₂, src = f₁ ++ m :: f₂ ∧ Emits ⟨s.machine, s.init⟩ f₁ g₁ := by
  obtain ⟨done, extra, hsrc, -, hdst, hextra, -⟩ := hok
  have hnot : m ∉ extra := by
    intro hmem
    have : m ∈ extra.filter align := mem_filter.mpr ⟨hmem, hca m hm⟩
    rw [hextra] at this
    simp at this
  have houts : ∃ g₃, s.machine.toTransducer.outs s.init done = g₁ ++ m :: g₃ := by
    rcases append_eq_append_iff.mp (hdst.symm.trans h) with ⟨g', -, hrest⟩ | ⟨g', hrest, hcons⟩
    · rw [hrest] at hnot
      exact absurd (by simp) hnot
    · cases g' with
      | nil =>
        rw [nil_append] at hcons
        rw [← hcons] at hnot
        exact absurd (by simp) hnot
      | cons y g' =>
        cases hcons
        exact ⟨g', hrest⟩
  obtain ⟨g₃, houts⟩ := houts
  obtain ⟨d₁, x, d₂, rfl, rfl, hd₁⟩ := s.machine.outs_split hca hm houts
  refine ⟨d₁.map Prod.snd, d₂.map Prod.snd ++ s.inbox, ?_, d₁, rfl, hd₁.symm⟩
  rw [hsrc, map_append, append_assoc]
  rfl

/-- What is observed at a cut is the state after what was consumed ahead of it. -/
theorem ok_observes {m : α} {c : C} (hok : s.Ok src dst)
    (h : s.step e = some (s', out, obs)) (hmem : (m, c) ∈ obs) :
    cut m = true ∧ ∃ f₁ f₂, src = f₁ ++ m :: f₂ ∧ Observes ⟨s.machine, s.init⟩ f₁ c := by
  obtain ⟨done, extra, hsrc, hstate, -⟩ := hok
  revert h
  fun_cases step s e <;> intro h <;> cases h
  case case1.refl a rest hin hcl hcut =>
    obtain ⟨rfl, rfl⟩ := Prod.mk.inj (mem_singleton.mp hmem)
    refine ⟨hcut, done.map Prod.snd, rest, ?_, done, rfl, ?_⟩
    · rw [hsrc, hin]
    · rw [hstate]
  all_goals simp at hmem

theorem ok_align (hca : ∀ a, cut a = true → align a = true) (hok : s.Ok src dst) :
    dst.filter align <+: (src.filter align).filter s.machine.passes := by
  obtain ⟨done, extra, hsrc, -, hdst, hextra, -⟩ := hok
  rw [hdst, filter_append, hextra, append_nil, s.machine.outs_align hca, hsrc,
    filter_append, filter_append]
  exact prefix_append _ _

theorem config_step (h : s.step e = some (s', out, obs)) :
    (⟨s'.machine, s'.init⟩ : Config κ α C cut align) = ⟨s.machine, s.init⟩ := by
  revert h
  fun_cases step s e <;> intro h <;> cases h <;> rfl

/-- A machine behind its queue as a component. -/
def component (hca : ∀ a, cut a = true → align a = true) :
    Component (Cell κ α C cut align) (Config κ α C cut align) (Event κ) C cut align where
  config s := ⟨s.machine, s.init⟩
  push s xs := ({ s with inbox := s.inbox ++ xs }, [])
  step := step
  Ok := Ok
  Emits := Emits
  Observes := Observes
  passes k := k.1.passes
  config_push _ _ := rfl
  config_step _ _ _ _ _ h := config_step h
  ok_push s src dst xs := by
    rintro ⟨done, extra, hsrc, hstate, hdst, hextra, hclosed⟩
    refine ⟨done, extra, ?_, hstate, ?_, hextra, hclosed⟩
    · rw [hsrc, List.append_assoc]
    · rw [List.append_nil]
      exact hdst
  ok_step _ _ _ _ _ _ _ hok h := ok_step hok h
  cut_align := hca
  passes_cut k a ha := k.1.passes_cut a ha
  ok_align _ _ _ h := ok_align hca h
  ok_cut _ _ _ _ _ _ h _ hm hdst := ok_cut hca h hm hdst
  ok_observes _ _ _ _ _ _ _ _ _ h _ hstep hmem := ok_observes h hstep hmem

/-! ## What a stopped machine emitted -/

/-- As `Ok`, but what a stopped machine has emitted last is what it held. -/
def ExactOk (s : Cell κ α C cut align) (src dst : List α) : Prop :=
  ∃ (done : List (κ × α)) (extra : List α), src = done.map Prod.snd ++ s.inbox ∧
    s.state = s.machine.toTransducer.state s.init done ∧
    dst = s.machine.toTransducer.outs s.init done ++ extra ∧
    (s.closed = false → extra = []) ∧ (s.closed = true → ∃ c, extra = s.machine.flush c s.state)

theorem ExactOk.ok (h : s.ExactOk src dst) : s.Ok src dst := by
  obtain ⟨done, extra, hsrc, hstate, hdst, hopen, hclosed⟩ := h
  refine ⟨done, extra, hsrc, hstate, hdst, ?_, hopen⟩
  cases hc : s.closed with
  | false => rw [hopen hc, filter_nil]
  | true =>
    obtain ⟨c, rfl⟩ := hclosed hc
    exact s.machine.flush_align c s.state

theorem exactOk_fresh (M : Machine κ α C cut align) (init : M.State) :
    ExactOk (fresh M init) ([] : List α) [] :=
  ⟨[], [], rfl, rfl, rfl, fun _ => rfl, fun h => absurd h (by simp [fresh])⟩

theorem exactOk_step (hok : s.ExactOk src dst) (h : s.step e = some (s', out, obs)) : s'.ExactOk src (dst ++ out) := by
  obtain ⟨done, extra, hsrc, hstate, hdst, hopen, -⟩ := hok
  cases e with
  | take c =>
    obtain ⟨a, rest, hcl, hin, rfl, rfl⟩ := step_take h
    rw [hopen hcl, append_nil] at hdst
    refine ⟨done ++ [(c, a)], [], done_snoc hsrc hin c, ?_, ?_, fun _ => rfl, fun hc => ?_⟩
    · rw [Transducer.state_snoc, ← hstate]
    · rw [Transducer.outs_snoc, ← hstate, hdst, append_nil]
    · exact absurd (hcl.symm.trans hc) (by decide)
  | finish c =>
    obtain ⟨hcl, rfl, rfl⟩ := step_finish h
    rw [hopen hcl, append_nil] at hdst
    refine ⟨done, _, hsrc, hstate, ?_, fun hc => absurd hc (by simp), fun _ => ⟨c, rfl⟩⟩
    rw [hdst]

/-- The same component, with the sharper account of its streams. -/
def exactComponent (hca : ∀ a, cut a = true → align a = true) :
    Component (Cell κ α C cut align) (Config κ α C cut align) (Event κ) C cut align :=
  { component hca with
    Ok := ExactOk
    ok_push := by
      rintro s src dst xs ⟨done, extra, hsrc, hstate, hdst, hopen, hclosed⟩
      refine ⟨done, extra, ?_, hstate, ?_, hopen, hclosed⟩
      · rw [hsrc, List.append_assoc]
        rfl
      · rw [hdst]
        exact List.append_nil _
    ok_step := fun _ _ _ _ _ _ _ hok h => exactOk_step hok h
    ok_align := fun _ _ _ h => ok_align hca h.ok
    ok_cut := fun _ _ _ _ _ _ h _ hm hdst => ok_cut hca h.ok hm hdst
    ok_observes := fun _ _ _ _ _ _ _ _ _ h _ hstep hmem => ok_observes h.ok hstep hmem }

end Cell
