import Mathlib.Data.List.Nodup
import Mathlib.Data.List.Infix
import Mathlib.Logic.Function.Basic

/-!
# Components of a dataflow with in-band cuts

A `Component` is a process with an input stream and an output stream that keeps the elements it has
not consumed yet in its own queues. `push` hands it new input, `step` lets it do something internal;
both may emit output, and a step may report observations, each at a cut element of the stream.

What a component means is said against whole streams: `Ok s src dst` relates a state to everything
handed to it so far and everything it emitted so far, `Emits` and `Observes` say which outputs and
observations a complete input may lead to. The two laws that matter are `ok_cut` and `ok_observes`:
what was emitted ahead of a cut element, and what is observed at it, is due to exactly the input
ahead of it.

Components are put in sequence by `chain` and in alternative by `either`.
-/

universe u v

variable {α : Type}

/-- Of an element that occurs once, the part of the list ahead of it is determined. -/
theorem List.append_cons_inj_of_nodup {p : α → Bool} {a a' b b' : List α} {m : α}
    (hnodup : ((a ++ m :: b).filter p).Nodup) (hm : p m = true) (h : a ++ m :: b = a' ++ m :: b') : a = a' := by
  induction a generalizing a' with
  | nil =>
    cases a' with
    | nil => rfl
    | cons x a' =>
      cases h
      rw [nil_append, filter_cons_of_pos hm, nodup_cons] at hnodup
      exact absurd (mem_filter.mpr ⟨by simp, hm⟩) hnodup.1
  | cons x a ih =>
    cases a' with
    | nil =>
      cases h
      rw [cons_append, filter_cons_of_pos hm, nodup_cons] at hnodup
      exact absurd (mem_filter.mpr ⟨by simp, hm⟩) hnodup.1
    | cons y a' =>
      obtain ⟨rfl, hrest⟩ := cons.inj h
      have htail : ((a ++ m :: b).filter p).Nodup :=
        hnodup.sublist ((sublist_cons_self x _).filter p)
      rw [ih htail hrest]

/-- A process between two streams of `α`. `S` are its states, `K` what it is configured with, `E`
    its internal events and `C` its observations. `cut` picks the elements that mark a cut, `align`
    those that components keep in order across parallel branches. -/
structure Component (S : Type u) (K : Type v) (E : Type) (C : Type) (cut align : α → Bool) where
  config : S → K
  push : S → List α → S × List α
  step : S → E → Option (S × List α × List (α × C))
  Ok : S → List α → List α → Prop
  /-- Complete inputs and the outputs they may lead to. -/
  Emits : K → List α → List α → Prop
  /-- What may be observed right after a complete input. -/
  Observes : K → List α → C → Prop
  /-- Which of the aligned elements are passed on. -/
  passes : K → α → Bool
  config_push : ∀ s xs, config (push s xs).1 = config s
  config_step : ∀ s e s' out obs, step s e = some (s', out, obs) → config s' = config s
  ok_push : ∀ s src dst xs, Ok s src dst → Ok (push s xs).1 (src ++ xs) (dst ++ (push s xs).2)
  ok_step : ∀ s src dst e s' out obs, Ok s src dst → step s e = some (s', out, obs) →
    Ok s' src (dst ++ out)
  cut_align : ∀ a, cut a = true → align a = true
  passes_cut : ∀ k a, cut a = true → passes k a = true
  ok_align : ∀ s src dst, Ok s src dst →
    dst.filter align <+: (src.filter align).filter (passes (config s))
  ok_cut : ∀ s src dst g₁ m g₂, Ok s src dst → (src.filter cut).Nodup → cut m = true →
    dst = g₁ ++ m :: g₂ → ∃ f₁ f₂, src = f₁ ++ m :: f₂ ∧ Emits (config s) f₁ g₁
  ok_observes : ∀ s src dst e s' out obs m c, Ok s src dst → (src.filter cut).Nodup →
    step s e = some (s', out, obs) → (m, c) ∈ obs →
    cut m = true ∧ ∃ f₁ f₂, src = f₁ ++ m :: f₂ ∧ Observes (config s) f₁ c

namespace Component

open List Option

variable {S S' : Type u} {K K' : Type v} {E E' C C' : Type} {cut align : α → Bool}
  {src dst out : List α} {ss ss' : List S} {obs : List (α × (ℕ × C))}

/-- Among the aligned elements are all the cut elements. -/
theorem filter_align_cut (comp : Component S K E C cut align) (l : List α) :
    (l.filter align).filter cut = l.filter cut := by
  rw [List.filter_filter]
  apply filter_congr
  intro a _
  cases hc : cut a with
  | false => rfl
  | true => rw [comp.cut_align a hc]; rfl

/-- The cut elements of the output are those of the input, up to some point. -/
theorem ok_filter_cut (comp : Component S K E C cut align) {s : S} (h : comp.Ok s src dst) : dst.filter cut <+: src.filter cut := by
  have hpass : ∀ l : List α, (l.filter (comp.passes (comp.config s))).filter cut = l.filter cut := by
    intro l
    rw [List.filter_filter]
    apply filter_congr
    intro a _
    cases hc : cut a with
    | false => rfl
    | true => rw [comp.passes_cut _ a hc]; rfl
  have hpre := (comp.ok_align s src dst h).filter cut
  rwa [comp.filter_align_cut, hpass, comp.filter_align_cut] at hpre

/-! ## Sequence -/

section Chain

variable (comp : Component S K E C cut align)

/-- Hand input to the first component and pass on what comes out. -/
def chainPush : List S → List α → List S × List α
  | [], xs => ([], xs)
  | s :: ss, xs =>
    let r := comp.push s xs
    let rest := chainPush ss r.2
    (r.1 :: rest.1, rest.2)

/-- Component number `i` takes a step; its output is handed to the next one. -/
def chainStep : List S → ℕ → E → Option (List S × List α × List (α × (ℕ × C)))
  | [], _, _ => none
  | s :: ss, 0, e => (comp.step s e).map fun (s', out, obs) =>
      let rest := comp.chainPush ss out
      (s' :: rest.1, rest.2, obs.map fun x => (x.1, (0, x.2)))
  | s :: ss, i + 1, e => (chainStep ss i e).map fun (ss', out, obs) =>
      (s :: ss', out, obs.map fun x => (x.1, (x.2.1 + 1, x.2.2)))

/-- The streams between the components. -/
def ChainOk : List S → List α → List α → Prop
  | [], src, dst => src = dst
  | s :: ss, src, dst => ∃ mid, comp.Ok s src mid ∧ ChainOk ss mid dst

/-- The streams on both sides of a component in a chain. -/
theorem chainOk_split {n : ℕ} {s : S} (h : comp.ChainOk ss src dst) (hget : ss[n]? = some s) :
    ∃ mid mid', comp.ChainOk (ss.take n) src mid ∧ comp.Ok s mid mid' ∧
      comp.ChainOk (ss.drop (n + 1)) mid' dst := by
  induction ss generalizing n src with
  | nil => simp at hget
  | cons s' ss ih =>
    obtain ⟨mid, hs, hss⟩ := h
    cases n with
    | zero =>
      obtain rfl : s' = s := some.inj hget
      exact ⟨src, mid, rfl, hs, hss⟩
    | succ n =>
      obtain ⟨mid', mid'', hfront, hok, hrest⟩ := ih hss hget
      exact ⟨mid', mid'', ⟨mid, hs, hfront⟩, hok, hrest⟩

/-- Each component emits what the next one consumes. -/
def ChainEmits : List K → List α → List α → Prop
  | [], src, dst => src = dst
  | k :: ks, src, dst => ∃ mid, comp.Emits k src mid ∧ ChainEmits ks mid dst

/-- Component number `i` observes what the ones ahead of it emitted. -/
def ChainObserves : List K → List α → ℕ × C → Prop
  | [], _, _ => False
  | k :: _, src, (0, c) => comp.Observes k src c
  | k :: ks, src, (i + 1, c) => ∃ mid, comp.Emits k src mid ∧ ChainObserves ks mid (i, c)

/-- A chain passes on what all its components pass on. -/
def chainPasses (ks : List K) (a : α) : Bool := ks.all fun k => comp.passes k a

theorem config_chainPush (ss : List S) (xs : List α) :
    (comp.chainPush ss xs).1.map comp.config = ss.map comp.config := by
  induction ss generalizing xs with
  | nil => rfl
  | cons s ss ih => simp [chainPush, comp.config_push, ih]

theorem chainOk_push (xs : List α) (h : comp.ChainOk ss src dst) :
    comp.ChainOk (comp.chainPush ss xs).1 (src ++ xs) (dst ++ (comp.chainPush ss xs).2) := by
  induction ss generalizing src xs with
  | nil =>
    have heq : src = dst := h
    rw [heq]
    rfl
  | cons s ss ih =>
    obtain ⟨mid, hs, hss⟩ := h
    exact ⟨_, comp.ok_push s src mid xs hs, ih _ hss⟩

theorem config_chainStep {i : ℕ} {e : E} (h : comp.chainStep ss i e = some (ss', out, obs)) :
    ss'.map comp.config = ss.map comp.config := by
  induction ss generalizing ss' i out obs with
  | nil => simp [chainStep] at h
  | cons s ss ih =>
    cases i with
    | zero =>
      obtain ⟨⟨s', o, ob⟩, hs, heq⟩ := map_eq_some_iff.mp h
      cases heq
      rw [map_cons, comp.config_step s e s' o ob hs, comp.config_chainPush, map_cons]
    | succ i =>
      obtain ⟨⟨ss₁, o, ob⟩, hs, heq⟩ := map_eq_some_iff.mp h
      cases heq
      rw [map_cons, ih hs, map_cons]

theorem chainOk_step {i : ℕ} {e : E} (hok : comp.ChainOk ss src dst)
    (h : comp.chainStep ss i e = some (ss', out, obs)) : comp.ChainOk ss' src (dst ++ out) := by
  induction ss generalizing ss' src i out obs with
  | nil => simp [chainStep] at h
  | cons s ss ih =>
    obtain ⟨mid, hs, hss⟩ := hok
    cases i with
    | zero =>
      obtain ⟨⟨s', o, ob⟩, hstep, heq⟩ := map_eq_some_iff.mp h
      cases heq
      exact ⟨_, comp.ok_step s src mid e s' o ob hs hstep, comp.chainOk_push o hss⟩
    | succ i =>
      obtain ⟨⟨ss₁, o, ob⟩, hstep, heq⟩ := map_eq_some_iff.mp h
      cases heq
      exact ⟨mid, hs, ih hss hstep⟩

theorem chainOk_align (h : comp.ChainOk ss src dst) :
    dst.filter align <+: (src.filter align).filter (comp.chainPasses (ss.map comp.config)) := by
  induction ss generalizing src with
  | nil =>
    have heq : src = dst := h
    have hall : (src.filter align).filter (comp.chainPasses []) = src.filter align :=
      filter_eq_self.mpr fun _ _ => rfl
    rw [map_nil, hall, heq]
  | cons s ss ih =>
    obtain ⟨mid, hs, hss⟩ := h
    have hfirst := (comp.ok_align s src mid hs).filter (comp.chainPasses (ss.map comp.config))
    have hboth : ((src.filter align).filter (comp.passes (comp.config s))).filter
          (comp.chainPasses (ss.map comp.config)) =
        (src.filter align).filter (comp.chainPasses ((s :: ss).map comp.config)) := by
      rw [List.filter_filter]
      apply filter_congr
      intro a _
      simp only [chainPasses, map_cons, all_cons]
      exact Bool.and_comm _ _
    rw [hboth] at hfirst
    exact (ih hss).trans hfirst

theorem chainOk_cut {g₁ g₂ : List α} {m : α} (h : comp.ChainOk ss src dst)
    (hnodup : (src.filter cut).Nodup) (hm : cut m = true) (hdst : dst = g₁ ++ m :: g₂) :
    ∃ f₁ f₂, src = f₁ ++ m :: f₂ ∧ comp.ChainEmits (ss.map comp.config) f₁ g₁ := by
  induction ss generalizing src with
  | nil => exact ⟨g₁, g₂, Eq.trans h hdst, rfl⟩
  | cons s ss ih =>
    obtain ⟨mid, hs, hss⟩ := h
    have hnodup' : (mid.filter cut).Nodup := hnodup.sublist (comp.ok_filter_cut hs).sublist
    obtain ⟨h₁, h₂, hmid, hemits⟩ := ih hss hnodup'
    obtain ⟨f₁, f₂, hsrc, hfirst⟩ := comp.ok_cut s src mid h₁ m h₂ hs hnodup hm hmid
    exact ⟨f₁, f₂, hsrc, h₁, hfirst, hemits⟩

theorem chainOk_observes {i : ℕ} {e : E} {m : α} {c : ℕ × C} (h : comp.ChainOk ss src dst)
    (hnodup : (src.filter cut).Nodup) (hstep : comp.chainStep ss i e = some (ss', out, obs))
    (hmem : (m, c) ∈ obs) :
    cut m = true ∧ ∃ f₁ f₂, src = f₁ ++ m :: f₂ ∧ comp.ChainObserves (ss.map comp.config) f₁ c := by
  induction ss generalizing ss' src i out obs c with
  | nil => simp [chainStep] at hstep
  | cons s ss ih =>
    obtain ⟨mid, hs, hss⟩ := h
    cases i with
    | zero =>
      obtain ⟨⟨s', o, ob⟩, hone, heq⟩ := map_eq_some_iff.mp hstep
      cases heq
      obtain ⟨⟨m', c'⟩, hmem', heq⟩ := mem_map.mp hmem
      cases heq
      exact comp.ok_observes s src mid e s' o ob m' c' hs hnodup hone hmem'
    | succ i =>
      obtain ⟨⟨ss₁, o, ob⟩, hone, heq⟩ := map_eq_some_iff.mp hstep
      cases heq
      obtain ⟨⟨m', j, c'⟩, hmem', heq⟩ := mem_map.mp hmem
      cases heq
      have hnodup' : (mid.filter cut).Nodup := hnodup.sublist (comp.ok_filter_cut hs).sublist
      obtain ⟨hm, h₁, h₂, hmid, hobs⟩ := ih hss hnodup' hone hmem'
      obtain ⟨f₁, f₂, hsrc, hfirst⟩ := comp.ok_cut s src mid h₁ m' h₂ hs hnodup hm hmid
      exact ⟨hm, f₁, f₂, hsrc, h₁, hfirst, hobs⟩

/-- Components in sequence, each feeding the next. An event names the component that takes it, an
    observation the component that made it. -/
def chain : Component (List S) (List K) (ℕ × E) (ℕ × C) cut align where
  config := List.map comp.config
  push := comp.chainPush
  step ss e := comp.chainStep ss e.1 e.2
  Ok := comp.ChainOk
  Emits := comp.ChainEmits
  Observes := comp.ChainObserves
  passes := comp.chainPasses
  config_push := comp.config_chainPush
  config_step _ _ _ _ _ h := comp.config_chainStep h
  ok_push _ _ _ xs h := comp.chainOk_push xs h
  ok_step _ _ _ _ _ _ _ hok h := comp.chainOk_step hok h
  cut_align := comp.cut_align
  passes_cut _ a ha := List.all_eq_true.mpr fun k _ => comp.passes_cut k a ha
  ok_align _ _ _ h := comp.chainOk_align h
  ok_cut _ _ _ _ _ _ h hnodup hm hdst := comp.chainOk_cut h hnodup hm hdst
  ok_observes _ _ _ _ _ _ _ _ _ h hnodup hstep hmem := comp.chainOk_observes h hnodup hstep hmem

/-- A sequence runs as its components do, whatever is said about their streams. -/
theorem chainPush_congr {comp' : Component S K E C cut align} (hpush : comp.push = comp'.push)
    (ss : List S) (xs : List α) : comp.chainPush ss xs = comp'.chainPush ss xs := by
  induction ss generalizing xs with
  | nil => rfl
  | cons s ss ih => simp only [chainPush, hpush, ih]

theorem chainStep_congr {comp' : Component S K E C cut align} (hpush : comp.push = comp'.push)
    (hstep : comp.step = comp'.step) (ss : List S) (i : ℕ) (e : E) :
    comp.chainStep ss i e = comp'.chainStep ss i e := by
  induction ss generalizing i with
  | nil => rfl
  | cons s ss ih =>
    cases i with
    | zero => simp only [chainStep, hstep, comp.chainPush_congr hpush]
    | succ i => simp only [chainStep, ih]

/-! ### One component of a sequence in focus -/

/-- The streams between the components, of which number `n` keeps to `P`. -/
def ChainOkAt (P : S → List α → List α → Prop) : ℕ → List S → List α → List α → Prop
  | _, [], _, _ => False
  | 0, s :: ss, src, dst => ∃ mid, P s src mid ∧ comp.ChainOk ss mid dst
  | n + 1, s :: ss, src, dst => ∃ mid, comp.Ok s src mid ∧ ChainOkAt P n ss mid dst

variable {P P' : S → List α → List α → Prop}

/-- The component in focus, and the streams on both sides of it. -/
theorem ChainOkAt.focus {n : ℕ} (h : comp.ChainOkAt P n ss src dst) :
    ∃ s mid mid', ss[n]? = some s ∧ comp.ChainOk (ss.take n) src mid ∧ P s mid mid' := by
  induction ss generalizing n src with
  | nil => simp [ChainOkAt] at h
  | cons s ss ih =>
    cases n with
    | zero =>
      obtain ⟨mid, hs, -⟩ := h
      exact ⟨s, src, mid, rfl, rfl, hs⟩
    | succ n =>
      obtain ⟨mid, hs, hss⟩ := h
      obtain ⟨s', mid', mid'', hget, hok, hP⟩ := ih hss
      exact ⟨s', mid', mid'', hget, ⟨mid, hs, hok⟩, hP⟩

variable (hP : ∀ s src dst xs, P s src dst → P (comp.push s xs).1 (src ++ xs) (dst ++ (comp.push s xs).2))

include hP

theorem chainOkAt_push {n : ℕ} (xs : List α) (h : comp.ChainOkAt P n ss src dst) :
    comp.ChainOkAt P n (comp.chainPush ss xs).1 (src ++ xs) (dst ++ (comp.chainPush ss xs).2) := by
  induction ss generalizing n src xs with
  | nil => simp [ChainOkAt] at h
  | cons s ss ih =>
    cases n with
    | zero =>
      obtain ⟨mid, hs, hss⟩ := h
      exact ⟨_, hP s src mid xs hs, comp.chainOk_push _ hss⟩
    | succ n =>
      obtain ⟨mid, hs, hss⟩ := h
      exact ⟨_, comp.ok_push s src mid xs hs, ih _ hss⟩

/-- A step of any component: `P` becomes `P'` by a step of the one in focus, and holds on
    otherwise. -/
theorem chainOkAt_step
    {n i : ℕ} {e : E} (hother : i ≠ n → P = P')
    (hfocus : ∀ s s' src dst out obs, i = n → ss[n]? = some s → P s src dst →
      comp.step s e = some (s', out, obs) → P' s' src (dst ++ out))
    (h : comp.ChainOkAt P n ss src dst) (hstep : comp.chainStep ss i e = some (ss', out, obs)) :
    comp.ChainOkAt P' n ss' src (dst ++ out) := by
  induction ss generalizing n i ss' src out obs with
  | nil => simp [ChainOkAt] at h
  | cons s ss ih =>
    cases i with
    | zero =>
      obtain ⟨⟨s', o, ob⟩, hs, heq⟩ := map_eq_some_iff.mp hstep
      cases heq
      cases n with
      | zero =>
        obtain ⟨mid, hmid, hss⟩ := h
        exact ⟨_, hfocus s s' src mid o ob rfl rfl hmid hs, comp.chainOk_push o hss⟩
      | succ n =>
        obtain ⟨mid, hmid, hss⟩ := h
        rw [← hother (by omega)]
        exact ⟨_, comp.ok_step s src mid e s' o ob hmid hs, comp.chainOkAt_push hP o hss⟩
    | succ i =>
      obtain ⟨⟨ss₁, o, ob⟩, hs, heq⟩ := map_eq_some_iff.mp hstep
      cases heq
      cases n with
      | zero =>
        obtain ⟨mid, hmid, hss⟩ := h
        rw [← hother (by omega)]
        exact ⟨mid, hmid, comp.chainOk_step hss hs⟩
      | succ n =>
        obtain ⟨mid, hmid, hss⟩ := h
        refine ⟨mid, hmid, ih (fun hne => hother (by omega)) ?_ hss hs⟩
        intro s₁ s₁' src dst out obs hin
        exact hfocus s₁ s₁' src dst out obs (by omega)

end Chain

/-! ## Alternative -/

section Either

variable (l : Component S K E C cut align) (r : Component S' K' E' C' cut align)

/-- A step of whichever kind the state is. -/
def eitherStep : S ⊕ S' → E ⊕ E' → Option ((S ⊕ S') × List α × List (α × (C ⊕ C')))
  | .inl s, .inl e => (l.step s e).map fun x => (.inl x.1, x.2.1, x.2.2.map (Prod.map id .inl))
  | .inr s, .inr e => (r.step s e).map fun x => (.inr x.1, x.2.1, x.2.2.map (Prod.map id .inr))
  | _, _ => none

theorem eitherStep_some {s s' : S ⊕ S'} {e : E ⊕ E'} {obs : List (α × (C ⊕ C'))}
    (h : eitherStep l r s e = some (s', out, obs)) :
    (∃ s₀ e₀ s₁ ob, s = .inl s₀ ∧ l.step s₀ e₀ = some (s₁, out, ob) ∧ s' = .inl s₁ ∧
      obs = ob.map (Prod.map id .inl)) ∨
    (∃ s₀ e₀ s₁ ob, s = .inr s₀ ∧ r.step s₀ e₀ = some (s₁, out, ob) ∧ s' = .inr s₁ ∧
      obs = ob.map (Prod.map id .inr)) := by
  unfold eitherStep at h
  split at h
  · rename_i s₀ e₀
    obtain ⟨⟨s₁, o, ob⟩, hstep, heq⟩ := map_eq_some_iff.mp h
    cases heq
    exact .inl ⟨s₀, e₀, s₁, ob, rfl, hstep, rfl, rfl⟩
  · rename_i s₀ e₀
    obtain ⟨⟨s₁, o, ob⟩, hstep, heq⟩ := map_eq_some_iff.mp h
    cases heq
    exact .inr ⟨s₀, e₀, s₁, ob, rfl, hstep, rfl, rfl⟩
  · simp at h

/-- Either of two kinds of component; a state never changes its kind. -/
def either : Component (S ⊕ S') (K ⊕ K') (E ⊕ E') (C ⊕ C') cut align where
  config := Sum.map l.config r.config
  push
    | .inl s, xs => (.inl (l.push s xs).1, (l.push s xs).2)
    | .inr s, xs => (.inr (r.push s xs).1, (r.push s xs).2)
  step := eitherStep l r
  Ok
    | .inl s => l.Ok s
    | .inr s => r.Ok s
  Emits
    | .inl k => l.Emits k
    | .inr k => r.Emits k
  Observes
    | .inl k, src, .inl c => l.Observes k src c
    | .inr k, src, .inr c => r.Observes k src c
    | _, _, _ => False
  passes
    | .inl k => l.passes k
    | .inr k => r.passes k
  config_push s xs := by
    cases s with
    | inl s => exact congrArg Sum.inl (l.config_push s xs)
    | inr s => exact congrArg Sum.inr (r.config_push s xs)
  config_step s e s' out obs h := by
    obtain ⟨s₀, e₀, s₁, ob, rfl, hstep, rfl, -⟩ | ⟨s₀, e₀, s₁, ob, rfl, hstep, rfl, -⟩ :=
      eitherStep_some l r h
    · exact congrArg Sum.inl (l.config_step s₀ e₀ s₁ out ob hstep)
    · exact congrArg Sum.inr (r.config_step s₀ e₀ s₁ out ob hstep)
  ok_push s src dst xs h := by
    cases s with
    | inl s => exact l.ok_push s src dst xs h
    | inr s => exact r.ok_push s src dst xs h
  ok_step s src dst e s' out obs hok h := by
    obtain ⟨s₀, e₀, s₁, ob, rfl, hstep, rfl, -⟩ | ⟨s₀, e₀, s₁, ob, rfl, hstep, rfl, -⟩ :=
      eitherStep_some l r h
    · exact l.ok_step s₀ src dst e₀ s₁ out ob hok hstep
    · exact r.ok_step s₀ src dst e₀ s₁ out ob hok hstep
  cut_align := l.cut_align
  passes_cut k a ha := by
    cases k with
    | inl k => exact l.passes_cut k a ha
    | inr k => exact r.passes_cut k a ha
  ok_align s src dst h := by
    cases s with
    | inl s => exact l.ok_align s src dst h
    | inr s => exact r.ok_align s src dst h
  ok_cut s src dst g₁ m g₂ h hnodup hm hdst := by
    cases s with
    | inl s => exact l.ok_cut s src dst g₁ m g₂ h hnodup hm hdst
    | inr s => exact r.ok_cut s src dst g₁ m g₂ h hnodup hm hdst
  ok_observes s src dst e s' out obs m c h hnodup hstep hmem := by
    obtain ⟨s₀, e₀, s₁, ob, rfl, hone, -, rfl⟩ | ⟨s₀, e₀, s₁, ob, rfl, hone, -, rfl⟩ :=
      eitherStep_some l r hstep
    · obtain ⟨⟨m', c'⟩, hmem', heq⟩ := List.mem_map.mp hmem
      simp only [Prod.map_apply, id_eq, Prod.mk.injEq] at heq
      obtain ⟨rfl, rfl⟩ := heq
      exact l.ok_observes s₀ src dst e₀ s₁ out ob m' c' h hnodup hone hmem'
    · obtain ⟨⟨m', c'⟩, hmem', heq⟩ := List.mem_map.mp hmem
      simp only [Prod.map_apply, id_eq, Prod.mk.injEq] at heq
      obtain ⟨rfl, rfl⟩ := heq
      exact r.ok_observes s₀ src dst e₀ s₁ out ob m' c' h hnodup hone hmem'

end Either

end Component
