import Mathlib.Logic.Relation
import Weibo.ForStd.Fork
import Weibo.ForStd.Machine

/-!
# Where the elements of a stream come from

A dataflow may reorder elements that are not aligned, drop them and replace each by others, but it
lets none of them overtake an aligned element of its input. `Traced align R src dst` is that
property: every element of `dst` descends through `R` from an element of `src`, and the aligned
elements ahead of it are ahead of its origin as well.

Transducers, machines, routers, forks and sequences of components keep to it if
their steps do.  `Fork.ReadOk` keeps book of what each branch of a fork has read
of its part of the input.
-/

open Function List

universe u v

variable {α : Type} {cut align : α → Bool} {R R' : α → α → Prop} {src mid dst : List α}

/-- A list split at one of its elements stays split when it grows. -/
theorem concat_eq_append_cons {l a b : List α} {x m : α} (h : l ++ [x] = a ++ m :: b) :
    (a = l ∧ m = x ∧ b = []) ∨ ∃ b', b = b' ++ [x] ∧ l = a ++ m :: b' := by
  rcases eq_nil_or_concat b with rfl | ⟨b', y, rfl⟩
  · obtain ⟨hl, hx⟩ := append_inj' h rfl
    exact .inl ⟨hl.symm, (cons.inj hx).1.symm, rfl⟩
  · rw [concat_eq_append, ← cons_append, ← append_assoc] at h
    obtain ⟨hl, hx⟩ := append_inj' h rfl
    obtain rfl := (cons.inj hx).1
    exact .inr ⟨b', concat_eq_append, hl⟩

/-- Each element of `dst` that is not aligned comes from one of `src` that stands behind at least
    the same aligned elements. -/
def Traced (align : α → Bool) (R : α → α → Prop) (src dst : List α) : Prop :=
  ∀ g₁ x g₂, dst = g₁ ++ x :: g₂ → align x = false →
    ∃ f₁ r f₂, src = f₁ ++ r :: f₂ ∧ align r = false ∧ R r x ∧
      ∀ m ∈ g₁, align m = true → m ∈ f₁

namespace Traced

theorem refl (l : List α) : Traced align Eq l l :=
  fun g₁ x g₂ hl hx => ⟨g₁, x, g₂, hl, hx, rfl, fun _ hm _ => hm⟩

theorem trans (h₁ : Traced align R src mid) (h₂ : Traced align R' mid dst) :
    Traced align (Relation.Comp R R') src dst := by
  intro g₁ x g₂ hdst hx
  obtain ⟨f₁, y, f₂, hmid, hy, hyx, hg⟩ := h₂ g₁ x g₂ hdst hx
  obtain ⟨e₁, r, e₂, hsrc, hr, hry, hf⟩ := h₁ f₁ y f₂ hmid hy
  exact ⟨e₁, r, e₂, hsrc, hr, ⟨y, hry, hyx⟩, fun m hm ha => hf m (hg m hm ha) ha⟩

theorem mono (h : Traced align R src dst) (hR : ∀ a b, R a b → R' a b) :
    Traced align R' src dst := by
  intro g₁ x g₂ hdst hx
  obtain ⟨f₁, r, f₂, hsrc, hr, hrx, hg⟩ := h g₁ x g₂ hdst hx
  exact ⟨f₁, r, f₂, hsrc, hr, hR r x hrx, hg⟩

/-- What is not read yet does not matter. -/
theorem append_src (h : Traced align R src dst) (rest : List α) :
    Traced align R (src ++ rest) dst := by
  intro g₁ x g₂ hdst hx
  obtain ⟨f₁, r, f₂, rfl, hr, hrx, hg⟩ := h g₁ x g₂ hdst hx
  exact ⟨f₁, r, f₂ ++ rest, by rw [append_assoc, cons_append], hr, hrx, hg⟩

theorem of_isPrefix {dst' : List α} (h : Traced align R src dst) (hpre : dst' <+: dst) :
    Traced align R src dst' := by
  obtain ⟨rest, rfl⟩ := hpre
  intro g₁ x g₂ hdst hx
  exact h g₁ x (g₂ ++ rest) (by rw [hdst, append_assoc, cons_append]) hx

end Traced

/-! ## Transducers -/

/-- What a branch gets comes from the stream. -/
theorem Router.traced_lane {n : ℕ} (r : Router α align n)
    (hroute : ∀ c a, R a (r.route c a).2.1) (w : Fin n) (c : r.Cursor) (xs : List α) :
    Traced align R xs ((r.lane w).outs c xs) := by
  intro g₁ x g₂ hout hx
  obtain ⟨xs₁, a, xs₂, p, q, rfl, hstep, rfl⟩ := (r.lane w).outs_eq_append_cons hout
  cases ha : align a with
  | true =>
    rw [r.lane_step_of_align w _ ha] at hstep
    have hmem : x ∈ [a] := by
      rw [show [a] = p ++ x :: q from hstep]
      simp
    rw [mem_singleton.mp hmem, ha] at hx
    simp at hx
  | false =>
    rw [r.lane_step_of_not_align w _ ha] at hstep
    dsimp only at hstep
    split at hstep
    swap
    · simp at hstep
    -- the one element that the branch gets now
    have hlen := congrArg length hstep
    rw [length_append, length_singleton, length_cons] at hlen
    obtain rfl : p = [] := eq_nil_of_length_eq_zero (by omega)
    cases hstep
    refine ⟨xs₁, a, xs₂, rfl, ha, hroute _ a, ?_⟩
    intro m hm hma
    rw [append_nil] at hm
    have hfilter := mem_filter.mpr ⟨hm, hma⟩
    rw [r.lane_filter w c xs₁] at hfilter
    exact (mem_filter.mp hfilter).1

variable {κ C : Type}

/-- If aligned elements lead to aligned elements only, what a machine emits comes from what it
    consumed. -/
theorem Machine.traced_outs (M : Machine κ α C cut align) (hca : ∀ a, cut a = true → align a = true)
    (halign : ∀ c s a, align a = true → ∀ b ∈ (M.step c s a).2, align b = true)
    (hstep : ∀ c s a, align a = false → ∀ b ∈ (M.step c s a).2, R a b)
    (s : M.State) (done : List (κ × α)) :
    Traced align R (done.map Prod.snd) (M.toTransducer.outs s done) := by
  intro g₁ x g₂ hout hx
  obtain ⟨d₁, ⟨c, a⟩, d₂, p, q, rfl, hone, rfl⟩ := M.toTransducer.outs_eq_append_cons hout
  have hx' : x ∈ (M.toTransducer.step (M.toTransducer.state s d₁) (c, a)).2 := by
    rw [hone]
    simp
  have ha : align a = false := by
    by_contra hne
    have ha : align a = true := by simpa using hne
    cases hc : cut a with
    | true =>
      rw [M.toTransducer_step_cut hc, mem_singleton] at hx'
      rw [hx', ha] at hx
      simp at hx
    | false =>
      rw [M.toTransducer_step_of_not_cut hc] at hx'
      rw [halign c _ a ha x hx'] at hx
      simp at hx
  have hc : cut a = false := by
    by_contra hne
    rw [hca a (by simpa using hne)] at ha
    simp at ha
  have hnone : (M.toTransducer.step (M.toTransducer.state s d₁) (c, a)).2.filter align = [] := by
    rw [M.step_outs_align hca, ha]
    rfl
  rw [M.toTransducer_step_of_not_cut hc] at hx'
  refine ⟨d₁.map Prod.snd, a, d₂.map Prod.snd, by rw [map_append, map_cons], ha,
    hstep c _ a ha x hx', ?_⟩
  intro m hm hma
  rcases mem_append.mp hm with hm | hm
  · have hfilter := mem_filter.mpr ⟨hm, hma⟩
    rw [M.outs_align hca] at hfilter
    exact (mem_filter.mp (mem_filter.mp hfilter).1).1
  · -- this step emits no aligned element
    rw [hone, filter_append] at hnone
    have hp := (append_eq_nil_iff.mp hnone).1
    rw [filter_eq_nil_iff] at hp
    exact absurd hma (hp m hm)

/-- And so does what a machine emits behind its queue, if it holds nothing back when it stops. -/
theorem Cell.ExactOk.traced {s : Cell κ α C cut align} (hca : ∀ a, cut a = true → align a = true)
    (halign : ∀ c st a, align a = true → ∀ b ∈ (s.machine.step c st a).2, align b = true)
    (hstep : ∀ c st a, align a = false → ∀ b ∈ (s.machine.step c st a).2, R a b)
    (hflush : ∀ c st, s.machine.flush c st = []) (h : s.ExactOk src dst) :
    Traced align R src dst := by
  obtain ⟨done, extra, rfl, -, rfl, hopen, hclosed⟩ := h
  have hextra : extra = [] := by
    cases hc : s.closed with
    | false => exact hopen hc
    | true =>
      obtain ⟨c, hc⟩ := hclosed hc
      rw [hc, hflush]
  rw [hextra, append_nil]
  exact (s.machine.traced_outs hca halign hstep s.init done).append_src s.inbox

/-! ## Forks -/

/-- An element of an aligned merge comes from one of the lists, where the same aligned elements
    stand ahead of it. -/
theorem Aligned.exists_branch {ι : Type} [DecidableEq ι] {os : ι → List α} {g g₁ g₂ : List α}
    {x : α} (h : Aligned align os g) (hx : align x = false) (hg : g = g₁ ++ x :: g₂) :
    ∃ w o₁ o₂, os w = o₁ ++ x :: o₂ ∧ o₁.filter align = g₁.filter align := by
  induction h generalizing g₂ with
  | nil => simp at hg
  | @data os g a v hal ha ih =>
    rcases concat_eq_append_cons hg with ⟨rfl, rfl, -⟩ | ⟨g₃, -, hsplit⟩
    · -- the element merged last
      refine ⟨v, os v, [], update_self .., ?_⟩
      rw [hal.filter_eq v]
    · obtain ⟨w, o₁, o₂, hw, hfilter⟩ := ih hsplit
      by_cases hwv : w = v
      · subst hwv
        refine ⟨w, o₁, o₂ ++ [a], ?_, hfilter⟩
        rw [update_self, hw, append_assoc, cons_append]
      · exact ⟨w, o₁, o₂, by rw [update_of_ne hwv, hw], hfilter⟩
  | @marker os g m hal hm ih =>
    rcases concat_eq_append_cons hg with ⟨-, rfl, -⟩ | ⟨g₃, -, hsplit⟩
    · rw [hx] at hm
      simp at hm
    · obtain ⟨w, o₁, o₂, hw, hfilter⟩ := ih hsplit
      refine ⟨w, o₁, o₂ ++ [m], ?_, hfilter⟩
      show os w ++ [m] = _
      rw [hw, append_assoc, cons_append]

/-- So does the merge as a whole, if the lists do. -/
theorem Aligned.traced {ι : Type} [DecidableEq ι] {os : ι → List α} (h : Aligned align os dst)
    (hos : ∀ w, Traced align R src (os w)) : Traced align R src dst := by
  intro g₁ x g₂ hdst hx
  obtain ⟨w, o₁, o₂, hw, hfilter⟩ := h.exists_branch hx hdst
  obtain ⟨f₁, r, f₂, hsrc, hr, hrx, hf⟩ := hos w o₁ x o₂ hw hx
  refine ⟨f₁, r, f₂, hsrc, hr, hrx, ?_⟩
  intro m hm hma
  have hmem := mem_filter.mpr ⟨hm, hma⟩
  rw [← hfilter] at hmem
  exact hf m (mem_filter.mp hmem).1 hma

namespace Fork

variable {S : Type u} {K : Type v} {E : Type} {comp : Component S K E C cut align}
  {s s' : Fork S α align} {taken : List α} {srcs os held : Fin s.n → List α}
  {st : Fin s.n → LaneStatus}

/-- What a branch has got comes from the input. -/
theorem Flow.traced_srcs (h : Flow comp s src dst taken srcs os held st)
    (hroute : ∀ c a, R a (s.router.route c a).2.1) (w : Fin s.n) :
    Traced align R src (srcs w) := by
  have hlane := s.router.traced_lane hroute w s.start taken
  rw [h.routed w] at hlane
  rw [h.src_eq]
  exact (hlane.of_isPrefix (prefix_append _ _)).append_src s.input

/-- The aligned elements that a branch has got are those of the input, up to some point. -/
theorem Flow.filter_srcs (h : Flow comp s src dst taken srcs os held st) (w : Fin s.n) :
    (srcs w).filter align <+: src.filter align := by
  have hlane := s.router.lane_filter w s.start taken
  rw [h.routed w, filter_append] at hlane
  rw [h.src_eq, filter_append, ← hlane]
  exact (prefix_append _ _).trans (prefix_append _ _)

/-- What a fork emits comes from its input, if that is so for the branches. -/
theorem Ok.traced (h : Ok comp s src dst) (hroute : ∀ c a, R a (s.router.route c a).2.1)
    (hbranch : ∀ w src dst, comp.Ok (s.branch w) src dst → Traced align R' src dst) :
    Traced align (Relation.Comp R R') src dst := by
  obtain ⟨taken, srcs, os, held, st, hflow⟩ := h
  apply hflow.aligned.traced
  intro w
  have hout := hbranch w _ _ (hflow.branch_ok w)
  rw [append_assoc, append_assoc] at hout
  exact (hflow.traced_srcs hroute w).trans (hout.of_isPrefix (prefix_append _ _))

/-! ## What the branches have read -/

/-- The flow of a fork of which branch `w` has read `seen w` of its part of the input. `Waiting`
    tells what a branch has got and not read yet. -/
def ReadOk (comp : Component S K E C cut align) (Waiting : S → List α → Prop)
    (seen : ℕ → List α) (s : Fork S α align) (src dst : List α) : Prop :=
  ∃ taken srcs os held st, Flow comp s src dst taken srcs os held st ∧
    ∀ w : Fin s.n, ∃ queue, Waiting (s.branch w) queue ∧ srcs w = seen w ++ queue

variable {Waiting : S → List α → Prop} {seen seen' : ℕ → List α}

theorem ReadOk.push (h : ReadOk comp Waiting seen s src dst) (xs : List α) :
    ReadOk comp Waiting seen { s with input := s.input ++ xs } (src ++ xs) dst := by
  obtain ⟨taken, srcs, os, held, st, h, hread⟩ := h
  refine ⟨taken, srcs, os, held, st, ⟨?_, h.cursor_eq, h.routed, h.branch_ok, h.same_passes,
    h.aligned, h.lane, h.merge_ok⟩, hread⟩
  rw [h.src_eq, append_assoc]

/-- Handing an element to a branch leaves what the branches have read. -/
theorem waiting_fed
    (hpush : ∀ b queue xs, Waiting b queue → Waiting (comp.push b xs).1 (queue ++ xs))
    (hread : ∀ w : Fin s.n, ∃ queue, Waiting (s.branch w) queue ∧ srcs w = seen w ++ queue)
    (v : Fin s.n) (a : α) (w : Fin s.n) :
    ∃ queue, Waiting (s.fed comp v a w) queue ∧
      update srcs v (srcs v ++ [a]) w = seen w ++ queue := by
  obtain ⟨queue, hqueue, hsrcs⟩ := hread w
  by_cases hw : w = v
  · subst hw
    simp only [fed, update_self]
    exact ⟨queue ++ [a], hpush _ _ _ hqueue, by rw [hsrcs, append_assoc]⟩
  · simp only [fed, update_of_ne hw]
    exact ⟨queue, hqueue, hsrcs⟩

variable (comp) in
/-- A component that takes no step of its own. -/
def frozen : Component S K E C cut align :=
  { comp with
    step := fun _ _ => none
    config_step := fun _ _ _ _ _ h => absurd h (by simp)
    ok_step := fun _ _ _ _ _ _ _ _ h => absurd h (by simp)
    ok_observes := fun _ _ _ _ _ _ _ _ _ _ _ h => absurd h (by simp) }

/-- The router, the collectors and the merge take no step of a branch. -/
theorem step_frozen {e : ForkEvent E} (he : ∀ w e', e ≠ .branch w e') :
    s.step (frozen comp) e = s.step comp e := by
  cases e with
  | branch w e' => exact absurd rfl (he w e')
  | _ => rfl

/-- A step of a fork: only a step of a branch reads something. -/
theorem ReadOk.step (h : ReadOk comp Waiting seen s src dst)
    (hpush : ∀ b queue xs, Waiting b queue → Waiting (comp.push b xs).1 (queue ++ xs))
    {e : ForkEvent E} {out : List α} {obs : List (α × (ℕ × C))}
    (hother : (∀ w e', e ≠ .branch w e') → seen' = seen)
    (hbranch : ∀ (w : Fin s.n) e' b o ob queue, e = .branch w e' → Waiting (s.branch w) queue →
      comp.step (s.branch w) e' = some (b, o, ob) →
      (∀ v, v ≠ w.val → seen' v = seen v) ∧
        ∃ queue', Waiting b queue' ∧ seen w ++ queue = seen' w ++ queue')
    (hstep : s.step comp e = some (s', out, obs)) :
    ReadOk comp Waiting seen' s' src (dst ++ out) := by
  obtain ⟨taken, srcs, os, held, st, hflow, hread⟩ := h
  by_cases he : ∃ w e', e = .branch w e'
  · obtain ⟨w, e', rfl⟩ := he
    simp only [Fork.step] at hstep
    split at hstep
    swap
    · simp at hstep
    rename_i hw
    obtain ⟨⟨s₁, ob⟩, hs₁, heq⟩ := Option.map_eq_some_iff.mp hstep
    cases heq
    obtain ⟨⟨b, o, ob'⟩, hb, heq⟩ := Option.map_eq_some_iff.mp hs₁
    obtain ⟨rfl, -⟩ := Prod.mk.inj heq
    rw [append_nil]
    refine ⟨taken, srcs, os, held, st, hflow.branch hb, ?_⟩
    intro (v : Fin s.n)
    obtain ⟨queue, hqueue, hsrcs⟩ := hread v
    by_cases hv : v = ⟨w, hw⟩
    · subst hv
      obtain ⟨-, queue', hqueue', heq⟩ := hbranch ⟨w, hw⟩ e' b o ob' queue rfl hqueue hb
      exact ⟨queue', by simpa only [update_self] using hqueue', hsrcs.trans heq⟩
    · obtain ⟨queue₀, hqueue₀, -⟩ := hread ⟨w, hw⟩
      obtain ⟨hsame, -⟩ := hbranch ⟨w, hw⟩ e' b o ob' queue₀ rfl hqueue₀ hb
      refine ⟨queue, by simpa only [update_of_ne hv] using hqueue, ?_⟩
      rw [hsame v fun heq => hv (Fin.ext heq), hsrcs]
  · have hne : ∀ w e', e ≠ .branch w e' := fun w e' heq => he ⟨w, e', heq⟩
    rw [hother hne]
    rw [← step_frozen hne] at hstep
    cases move_of_step hstep with
    | routeMarker hb hin ha =>
      rw [append_nil]
      exact ⟨_, _, _, _, _, hflow.route_marker hb hin ha, hread⟩
    | routeData hb hin ha =>
      rw [append_nil]
      exact ⟨_, _, _, _, _, hflow.route_data hb hin ha, waiting_fed hpush hread _ _⟩
    | send hb hk =>
      rw [append_nil]
      exact ⟨_, _, _, _, _, hflow.send hb hk, waiting_fed hpush hread _ _⟩
    | branch hb => simp [frozen] at hb
    | collect hp hout =>
      rw [append_nil]
      exact ⟨_, _, _, _, _, hflow.of_lanes (hflow.lanes_flow.collect hp hout), hread⟩
    | hold hpc hfan ha hk =>
      rw [append_nil]
      exact ⟨_, _, _, _, _, hflow.of_lanes (hflow.lanes_flow.merge_hold hpc hfan ha hk), hread⟩
    | emit hpc hfan ha hk =>
      exact ⟨_, _, _, _, _,
        hflow.of_lanes (hflow.lanes_flow.merge_emit hflow.agree hpc hfan ha hk), hread⟩
    | mergeData hfan ha =>
      exact ⟨_, _, _, _, _, hflow.of_lanes (hflow.lanes_flow.merge_data hfan ha), hread⟩
    | resume hpc hk =>
      rw [append_nil]
      exact ⟨_, _, _, _, _, hflow.of_lanes (hflow.lanes_flow.resume hpc hk), hread⟩

end Fork
