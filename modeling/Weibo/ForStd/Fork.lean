import Weibo.ForStd.Component
import Weibo.ForStd.Lanes

/-!
# Parallel branches between a router and an aligned merge

A `Fork` runs `n` copies of a component. A router process takes the elements of its input one by
one: an element to be aligned is sent to the branches one after the other, any other element to the
branch the `Router` picks. A collector process per branch moves the branch's output into a common
queue and parks after an aligned element. The merge process reads the common queue; it holds an
aligned element back until all branches have delivered it, emits it once and resumes the collectors.

`Component.fork` shows that this is a component again.  Its outputs are the
aligned merges of what the branches emit on their parts of the input.
-/

universe u v

variable {α : Type} {cut align : α → Bool}

/-- The state of the branches, the router, the collectors and the merge. -/
structure Fork (S : Type u) (α : Type) (align : α → Bool) : Type (max u 1) where
  n : ℕ
  pos : 0 < n
  router : Router α align n
  start : router.Cursor
  cursor : router.Cursor
  /-- What the router has not taken yet. -/
  input : List α
  /-- The aligned element the router is sending, and how many branches have it. -/
  broadcast : Option (α × ℕ)
  branch : Fin n → S
  /-- What the branches emitted and the collectors have not taken yet. -/
  branchOut : Fin n → List α
  parked : Fin n → Bool
  /-- The common queue, with the branch each element comes from. -/
  fanIn : List (Fin n × α)
  merge : MergePc

/-- What a fork is configured with. -/
structure ForkConfig (K : Type v) (α : Type) (align : α → Bool) : Type (max v 1) where
  n : ℕ
  router : Router α align n
  start : router.Cursor
  branch : Fin n → K

/-- One step of one of the processes. -/
inductive ForkEvent (E : Type) where
  | route
  | send
  | branch (w : ℕ) (e : E)
  | collect (w : ℕ)
  | merge
  | resume

namespace Fork

open Function List Option

variable {S : Type u} {K : Type v} {E C : Type}

/-- A fork before its first element. -/
def fresh {n : ℕ} (pos : 0 < n) (router : Router α align n) (start : router.Cursor)
    (branch : Fin n → S) : Fork S α align where
  n := n
  pos := pos
  router := router
  start := start
  cursor := start
  input := []
  broadcast := none
  branch := branch
  branchOut := fun _ => []
  parked := fun _ => false
  fanIn := []
  merge := .receiving 0

/-- The part of the common queue that comes from one branch. -/
def fanInOf (s : Fork S α align) (w : Fin s.n) : List α :=
  s.fanIn.filterMap fun x => if x.1 = w then some x.2 else none

/-- The aligned element under way that branch number `w` has not got yet. -/
def owed (broadcast : Option (α × ℕ)) (w : ℕ) : List α :=
  match broadcast with
  | some (m, k) => if k ≤ w then [m] else []
  | none => []

variable (comp : Component S K E C cut align)

/-- The branches once one of them has been handed an element. -/
def fed (s : Fork S α align) (w : Fin s.n) (a : α) : Fin s.n → S :=
  Function.update s.branch w (comp.push (s.branch w) [a]).1

/-- What the branches have emitted then. -/
def fedOut (s : Fork S α align) (w : Fin s.n) (a : α) : Fin s.n → List α :=
  Function.update s.branchOut w (s.branchOut w ++ (comp.push (s.branch w) [a]).2)

/-- The router takes the next element of the input. -/
def routeStep (s : Fork S α align) : Option (Fork S α align) :=
  match s.broadcast, s.input with
  | none, a :: rest =>
    if align a then some { s with input := rest, broadcast := some (a, 0) }
    else
      let r := s.router.route s.cursor a
      some { s with
        input := rest
        cursor := r.1
        branch := s.fed comp r.2.2 r.2.1
        branchOut := s.fedOut comp r.2.2 r.2.1 }
  | _, _ => none

/-- The router sends the aligned element it has taken to the next branch. -/
def sendStep (s : Fork S α align) : Option (Fork S α align) :=
  match s.broadcast with
  | some (m, k) =>
    if h : k < s.n then
      some { s with
        broadcast := if k + 1 < s.n then some (m, k + 1) else none
        branch := s.fed comp ⟨k, h⟩ m
        branchOut := s.fedOut comp ⟨k, h⟩ m }
    else none
  | none => none

/-- A branch takes a step of its own. -/
def branchStep (s : Fork S α align) (w : Fin s.n) (e : E) :
    Option (Fork S α align × List (α × C)) :=
  (comp.step (s.branch w) e).map fun (b, out, obs) =>
    ({ s with
      branch := Function.update s.branch w b
      branchOut := Function.update s.branchOut w (s.branchOut w ++ out) }, obs)

/-- A collector moves one element into the common queue, unless it is parked. -/
def collectStep (s : Fork S α align) (w : Fin s.n) : Option (Fork S α align) :=
  match s.parked w, s.branchOut w with
  | false, a :: rest => some { s with
      branchOut := Function.update s.branchOut w rest
      fanIn := s.fanIn ++ [(w, a)]
      parked := Function.update s.parked w (align a) }
  | _, _ => none

/-- The merge takes one element of the common queue. -/
def mergeStep (s : Fork S α align) : Option (Fork S α align × List α) :=
  match s.merge, s.fanIn with
  | .receiving k, (_, a) :: rest =>
    if align a then
      -- hold the element back until the last branch delivers its copy
      if k + 1 < s.n then some ({ s with fanIn := rest, merge := .receiving (k + 1) }, [])
      else some ({ s with fanIn := rest, merge := .resuming 0 }, [a])
    else some ({ s with fanIn := rest }, [a])
  | _, _ => none

/-- The merge resumes the next collector. -/
def resumeStep (s : Fork S α align) : Option (Fork S α align) :=
  match s.merge with
  | .resuming k =>
    if h : k < s.n then
      some { s with
        parked := Function.update s.parked ⟨k, h⟩ false
        merge := if k + 1 < s.n then .resuming (k + 1) else .receiving 0 }
    else none
  | .receiving _ => none

/-- One step of the fork, with what it emits and what its branches observe. -/
def step (s : Fork S α align) :
    ForkEvent E → Option (Fork S α align × List α × List (α × (ℕ × C)))
  | .route => (s.routeStep comp).map fun s' => (s', [], [])
  | .send => (s.sendStep comp).map fun s' => (s', [], [])
  | .branch w e =>
    if h : w < s.n then
      (s.branchStep comp ⟨w, h⟩ e).map fun x => (x.1, [], x.2.map fun y => (y.1, (w, y.2)))
    else none
  | .collect w => if h : w < s.n then (s.collectStep ⟨w, h⟩).map fun s' => (s', [], []) else none
  | .merge => s.mergeStep.map fun x => (x.1, x.2, [])
  | .resume => s.resumeStep.map fun s' => (s', [], [])

/-- A fork runs as its branches do, whatever is said about their streams. -/
theorem step_congr {comp' : Component S K E C cut align} (hpush : comp.push = comp'.push)
    (hstep : comp.step = comp'.step) (s : Fork S α align) (e : ForkEvent E) :
    s.step comp e = s.step comp' e := by
  cases e <;> simp only [step, routeStep, sendStep, branchStep, fed, fedOut, hpush, hstep]

/-- What one step can do to the state, with its guard. -/
inductive Move (s : Fork S α align) : Fork S α align → List α → List (α × (ℕ × C)) → Prop
  | routeMarker {a : α} {rest : List α} (hb : s.broadcast = none) (hin : s.input = a :: rest)
      (ha : align a = true) :
      Move s { s with input := rest, broadcast := some (a, 0) } [] []
  | routeData {a : α} {rest : List α} (hb : s.broadcast = none) (hin : s.input = a :: rest)
      (ha : align a = false) :
      Move s { s with
        input := rest
        cursor := (s.router.route s.cursor a).1
        branch := s.fed comp (s.router.route s.cursor a).2.2 (s.router.route s.cursor a).2.1
        branchOut :=
          s.fedOut comp (s.router.route s.cursor a).2.2 (s.router.route s.cursor a).2.1 } [] []
  | send {m : α} {k : ℕ} (hb : s.broadcast = some (m, k)) (hk : k < s.n) :
      Move s { s with
        broadcast := if k + 1 < s.n then some (m, k + 1) else none
        branch := s.fed comp ⟨k, hk⟩ m
        branchOut := s.fedOut comp ⟨k, hk⟩ m } [] []
  | branch {w : Fin s.n} {e : E} {b : S} {out : List α} {obs : List (α × C)}
      (hstep : comp.step (s.branch w) e = some (b, out, obs)) :
      Move s { s with
        branch := Function.update s.branch w b
        branchOut := Function.update s.branchOut w (s.branchOut w ++ out) } []
        (obs.map fun y => (y.1, (w.val, y.2)))
  | collect {w : Fin s.n} {a : α} {rest : List α} (hp : s.parked w = false)
      (hout : s.branchOut w = a :: rest) :
      Move s { s with
        branchOut := Function.update s.branchOut w rest
        fanIn := s.fanIn ++ [(w, a)]
        parked := Function.update s.parked w (align a) } [] []
  | hold {k : ℕ} {w : Fin s.n} {a : α} {rest : List (Fin s.n × α)} (hpc : s.merge = .receiving k)
      (hfan : s.fanIn = (w, a) :: rest) (ha : align a = true) (hk : k + 1 < s.n) :
      Move s { s with fanIn := rest, merge := .receiving (k + 1) } [] []
  | emit {k : ℕ} {w : Fin s.n} {a : α} {rest : List (Fin s.n × α)} (hpc : s.merge = .receiving k)
      (hfan : s.fanIn = (w, a) :: rest) (ha : align a = true) (hk : ¬ k + 1 < s.n) :
      Move s { s with fanIn := rest, merge := .resuming 0 } [a] []
  | mergeData {w : Fin s.n} {a : α} {rest : List (Fin s.n × α)}
      (hfan : s.fanIn = (w, a) :: rest) (ha : align a = false) :
      Move s { s with fanIn := rest } [a] []
  | resume {k : ℕ} (hpc : s.merge = .resuming k) (hk : k < s.n) :
      Move s { s with
        parked := Function.update s.parked ⟨k, hk⟩ false
        merge := if k + 1 < s.n then .resuming (k + 1) else .receiving 0 } [] []

variable {comp} in
/-- A step is one of these moves. -/
theorem move_of_step {s s' : Fork S α align} {e : ForkEvent E} {out : List α}
    {obs : List (α × (ℕ × C))} (h : s.step comp e = some (s', out, obs)) :
    Move comp s s' out obs := by
  cases e with
  | route =>
    obtain ⟨s₁, hs₁, heq⟩ := map_eq_some_iff.mp h
    cases heq
    revert hs₁
    fun_cases routeStep comp s <;> intro hs₁ <;> cases hs₁
    · exact .routeMarker ‹_› ‹_› ‹_›
    · exact .routeData ‹_› ‹_› (by simpa using ‹¬align _ = true›)
  | send =>
    obtain ⟨s₁, hs₁, heq⟩ := map_eq_some_iff.mp h
    cases heq
    revert hs₁
    fun_cases sendStep comp s <;> intro hs₁ <;> cases hs₁
    exact .send ‹_› ‹_›
  | branch w e =>
    simp only [step] at h
    split at h
    · obtain ⟨⟨s₁, ob⟩, hs₁, heq⟩ := map_eq_some_iff.mp h
      cases heq
      obtain ⟨⟨b, o, ob'⟩, hstep, heq⟩ := map_eq_some_iff.mp hs₁
      cases heq
      exact .branch hstep
    · cases h
  | collect w =>
    simp only [step] at h
    split at h
    · obtain ⟨s₁, hs₁, heq⟩ := map_eq_some_iff.mp h
      cases heq
      revert hs₁
      fun_cases collectStep s _ <;> intro hs₁ <;> cases hs₁
      exact .collect ‹_› ‹_›
    · cases h
  | merge =>
    obtain ⟨⟨s₁, o⟩, hs₁, heq⟩ := map_eq_some_iff.mp h
    cases heq
    revert hs₁
    fun_cases mergeStep s <;> intro hs₁ <;> cases hs₁
    · exact .hold ‹_› ‹_› ‹_› ‹_›
    · exact .emit ‹_› ‹_› ‹_› ‹_›
    · exact .mergeData ‹_› (by simpa using ‹¬align _ = true›)
  | resume =>
    obtain ⟨s₁, hs₁, heq⟩ := map_eq_some_iff.mp h
    cases heq
    revert hs₁
    fun_cases resumeStep s <;> intro hs₁ <;> cases hs₁
    exact .resume ‹_› ‹_›

/-! ## The flow of elements through a fork -/

/-- Where everything handed to a fork is. Of the input, `taken` is what the router has taken, `srcs
    w` what branch `w` has got of it; of a branch's output, `os w` is in the merged stream, `held w`
    is the aligned element that the merge holds back, and the rest is in the queues. -/
structure Flow (s : Fork S α align) (src dst taken : List α) (srcs os held : Fin s.n → List α)
    (st : Fin s.n → LaneStatus) : Prop where
  src_eq : src = taken ++ s.input
  cursor_eq : ∀ w, s.cursor = (s.router.lane w).state s.start taken
  routed : ∀ w, (s.router.lane w).outs s.start taken = srcs w ++ owed s.broadcast w
  branch_ok : ∀ w, comp.Ok (s.branch w) (srcs w)
    (os w ++ held w ++ s.fanInOf w ++ s.branchOut w)
  same_passes : ∀ w v, comp.passes (comp.config (s.branch w)) =
    comp.passes (comp.config (s.branch v))
  aligned : Aligned align os dst
  lane : ∀ w, LaneOk align (st w) (s.parked w) (held w) (s.fanInOf w)
  merge_ok : MergeOk s.merge st

variable {comp}
variable {s s' : Fork S α align} {src dst taken : List α} {srcs os held : Fin s.n → List α}
  {st : Fin s.n → LaneStatus}

/-- Handing an element to a branch extends what the branch has got. -/
theorem branch_ok_fed {X : Fin s.n → List α}
    (h : ∀ w, comp.Ok (s.branch w) (srcs w) (X w ++ s.branchOut w)) (v : Fin s.n) (a : α)
    (w : Fin s.n) :
    comp.Ok (s.fed comp v a w) (update srcs v (srcs v ++ [a]) w) (X w ++ s.fedOut comp v a w) := by
  by_cases hw : w = v
  · subst hw
    simp only [fed, fedOut, update_self]
    rw [← append_assoc]
    exact comp.ok_push _ _ _ _ (h w)
  · simp only [fed, fedOut, update_of_ne hw]
    exact h w

theorem config_fed (v : Fin s.n) (a : α) (w : Fin s.n) :
    comp.config (s.fed comp v a w) = comp.config (s.branch w) := by
  by_cases hw : w = v
  · subst hw
    simp only [fed, update_self]
    exact comp.config_push _ _
  · simp only [fed, update_of_ne hw]

theorem config_update {w : Fin s.n} {e : E} {b : S} {out : List α} {obs : List (α × C)}
    (hstep : comp.step (s.branch w) e = some (b, out, obs)) (v : Fin s.n) :
    comp.config (update s.branch w b v) = comp.config (s.branch v) := by
  by_cases hv : v = w
  · subst hv
    rw [update_self]
    exact comp.config_step _ _ _ _ _ hstep
  · rw [update_of_ne hv]

namespace Flow

section Steps

variable (h : Flow comp s src dst taken srcs os held st)

include h

/-- The router passes an element on to the branch it is meant for. -/
theorem route_data {a : α} {rest : List α}
    (hb : s.broadcast = none) (hin : s.input = a :: rest) (ha : align a = false) :
    let r := s.router.route s.cursor a
    Flow comp { s with
        input := rest
        cursor := r.1
        branch := s.fed comp r.2.2 r.2.1
        branchOut := s.fedOut comp r.2.2 r.2.1 } src dst
      (taken ++ [a]) (update srcs r.2.2 (srcs r.2.2 ++ [r.2.1])) os held st := by
  intro r
  refine ⟨?_, ?_, ?_, ?_, ?_, h.aligned, h.lane, h.merge_ok⟩
  · rw [h.src_eq, hin, append_assoc]
    rfl
  · -- all lanes see the same cursor, also those that get nothing
    intro (w : Fin s.n)
    show r.1 = (s.router.lane w).state s.start (taken ++ [a])
    rw [Transducer.state_snoc, ← h.cursor_eq w, Router.lane_step_of_not_align _ _ _ ha]
  · intro (w : Fin s.n)
    show (s.router.lane w).outs s.start (taken ++ [a]) = _ ++ owed s.broadcast w
    rw [Transducer.outs_snoc, ← h.cursor_eq w, Router.lane_step_of_not_align _ _ _ ha, h.routed w,
      hb, owed, append_nil, append_nil]
    by_cases hw : r.2.2 = w
    · subst hw
      rw [if_pos rfl, update_self]
    · rw [if_neg hw, update_of_ne (Ne.symm hw), append_nil]
  · exact branch_ok_fed h.branch_ok r.2.2 r.2.1
  · intro (w : Fin s.n) (v : Fin s.n)
    rw [config_fed, config_fed]
    exact h.same_passes w v

/-- The router takes an aligned element; every branch is owed it. -/
theorem route_marker {a : α} {rest : List α}
    (hb : s.broadcast = none) (hin : s.input = a :: rest) (ha : align a = true) :
    Flow comp { s with input := rest, broadcast := some (a, 0) } src dst (taken ++ [a]) srcs os
      held st := by
  refine ⟨?_, ?_, ?_, h.branch_ok, h.same_passes, h.aligned, h.lane, h.merge_ok⟩
  · rw [h.src_eq, hin, append_assoc]
    rfl
  · intro (w : Fin s.n)
    show s.cursor = (s.router.lane w).state s.start (taken ++ [a])
    rw [Transducer.state_snoc, ← h.cursor_eq w, Router.lane_step_of_align _ _ _ ha]
  · intro (w : Fin s.n)
    show (s.router.lane w).outs s.start (taken ++ [a]) = srcs w ++ owed (some (a, 0)) w
    rw [Transducer.outs_snoc, Router.lane_step_of_align _ _ _ ha, h.routed w, hb, owed, owed,
      append_nil, if_pos (Nat.zero_le _)]

/-- The router sends the aligned element it has taken to the next branch. -/
theorem send {m : α} {k : ℕ} (hb : s.broadcast = some (m, k)) (hk : k < s.n) : Flow comp { s with
        broadcast := if k + 1 < s.n then some (m, k + 1) else none
        branch := s.fed comp ⟨k, hk⟩ m
        branchOut := s.fedOut comp ⟨k, hk⟩ m } src dst taken
      (update srcs ⟨k, hk⟩ (srcs ⟨k, hk⟩ ++ [m])) os held st := by
  refine ⟨h.src_eq, h.cursor_eq, ?_, branch_ok_fed h.branch_ok ⟨k, hk⟩ m, ?_, h.aligned, h.lane,
    h.merge_ok⟩
  · intro (w : Fin s.n)
    have howed : owed (if k + 1 < s.n then some (m, k + 1) else none) w =
        if k + 1 ≤ w.val then [m] else [] := by
      by_cases hlast : k + 1 < s.n
      · rw [if_pos hlast, owed]
      · have hlt : ¬ k + 1 ≤ w.val := fun hle => hlast (Nat.lt_of_le_of_lt hle w.isLt)
        rw [if_neg hlast, if_neg hlt, owed]
    rw [howed]
    show (s.router.lane w).outs s.start taken = _
    rw [h.routed w, hb, owed]
    -- the branch served now is owed nothing more, the others as before
    by_cases hw : w = ⟨k, hk⟩
    · subst hw
      rw [update_self, if_pos (Nat.le_refl k), if_neg (Nat.not_succ_le_self k), append_nil]
    · have hne : w.val ≠ k := fun heq => hw (Fin.ext heq)
      rw [update_of_ne hw]
      by_cases hle : k + 1 ≤ w.val
      · rw [if_pos hle, if_pos (by omega)]
      · rw [if_neg hle, if_neg (by omega)]
  · intro (w : Fin s.n) (v : Fin s.n)
    rw [config_fed, config_fed]
    exact h.same_passes w v

/-- A branch takes a step of its own. -/
theorem branch {w : Fin s.n} {e : E} {b : S}
    {out : List α} {obs : List (α × C)} (hstep : comp.step (s.branch w) e = some (b, out, obs)) :
    Flow comp { s with
        branch := update s.branch w b
        branchOut := update s.branchOut w (s.branchOut w ++ out) }
      src dst taken srcs os held st := by
  refine ⟨h.src_eq, h.cursor_eq, h.routed, ?_, ?_, h.aligned, h.lane, h.merge_ok⟩
  · intro (v : Fin s.n)
    by_cases hv : v = w
    · subst hv
      simp only [update_self]
      rw [← append_assoc]
      exact comp.ok_step _ _ _ _ _ _ _ (h.branch_ok v) hstep
    · simp only [update_of_ne hv]
      exact h.branch_ok v
  · intro (v : Fin s.n) (u : Fin s.n)
    rw [config_update hstep, config_update hstep]
    exact h.same_passes v u

end Steps

end Flow

/-- The collectors and the merge of a fork. -/
def lanes (s : Fork S α align) : Lanes α s.n := ⟨s.branchOut, s.parked, s.fanIn, s.merge⟩

namespace Flow

section Lanes

variable (h : Flow comp s src dst taken srcs os held st)

include h

/-- What the branches have emitted flows through the merge. -/
theorem lanes_flow :
    s.lanes.Flow align (fun w => os w ++ held w ++ s.fanInOf w ++ s.branchOut w) os held st dst :=
  ⟨fun _ => rfl, h.aligned, h.lane, h.merge_ok⟩

/-- A step of the collectors or the merge leaves the router and the branches alone. -/
theorem of_lanes {l : Lanes α s.n}
    {os' held' : Fin s.n → List α} {st' : Fin s.n → LaneStatus} {dst' : List α}
    (hl : l.Flow align (fun w => os w ++ held w ++ s.fanInOf w ++ s.branchOut w) os' held' st'
      dst') :
    Flow comp { s with
        branchOut := l.ahead
        parked := l.parked
        fanIn := l.fanIn
        merge := l.merge } src dst' taken srcs os' held' st' := by
  refine ⟨h.src_eq, h.cursor_eq, h.routed, ?_, h.same_passes, hl.aligned, hl.lane, hl.merge_ok⟩
  intro w
  have hok := h.branch_ok w
  rw [hl.sent_eq w] at hok
  exact hok

/-- The aligned elements of each branch's output are an initial part of one and the same list. -/
theorem filter_prefix (w v : Fin s.n) :
    (os w ++ held w ++ s.fanInOf w ++ s.branchOut w).filter align <+:
      (taken.filter align).filter (comp.passes (comp.config (s.branch v))) := by
  have halign := comp.ok_align _ _ _ (h.branch_ok w)
  have hsrcs : (srcs w).filter align <+: taken.filter align := by
    rw [← Router.lane_filter s.router w s.start taken, h.routed w, filter_append]
    exact prefix_append _ _
  rw [h.same_passes w v] at halign
  exact halign.trans (hsrcs.filter _)

/-- The branches emit the same aligned elements. -/
theorem agree : Lanes.Agree align fun w => os w ++ held w ++ s.fanInOf w ++ s.branchOut w :=
  Lanes.agree_of_isPrefix fun w => h.filter_prefix w ⟨0, s.pos⟩

end Lanes

end Flow

/-! ## A fork as a component -/

variable (comp)

/-- Everything handed to the fork is somewhere in it or came out. -/
def Ok (s : Fork S α align) (src dst : List α) : Prop :=
  ∃ taken srcs os held st, Flow comp s src dst taken srcs os held st

/-- The branches emit on their parts of the input what is merged. -/
def Emits (k : ForkConfig K α align) (src dst : List α) : Prop :=
  ∃ os : Fin k.n → List α,
    (∀ w, comp.Emits (k.branch w) ((k.router.lane w).outs k.start src) (os w)) ∧
    Aligned align os dst

/-- A branch observes what its part of the input leads to. -/
def Observes (k : ForkConfig K α align) (src : List α) (c : ℕ × C) : Prop :=
  ∃ h : c.1 < k.n,
    comp.Observes (k.branch ⟨c.1, h⟩) ((k.router.lane ⟨c.1, h⟩).outs k.start src) c.2

/-- What a fork is configured with: the router and the branches' configuration. -/
def config (s : Fork S α align) : ForkConfig K α align :=
  ⟨s.n, s.router, s.start, fun w => comp.config (s.branch w)⟩

/-- A fork passes on what all its branches pass on. -/
def passes (k : ForkConfig K α align) (a : α) : Bool :=
  decide (∀ w, comp.passes (k.branch w) a = true)

/-- A fork that has got nothing yet. -/
theorem flow_fresh {n : ℕ} (pos : 0 < n) (router : Router α align n) (start : router.Cursor)
    {branch : Fin n → S} (hok : ∀ w, comp.Ok (branch w) [] [])
    (hsame : ∀ w v, comp.passes (comp.config (branch w)) = comp.passes (comp.config (branch v))) :
    Flow comp (fresh pos router start branch) ([] : List α) [] [] (fun _ => []) (fun _ => [])
      (fun _ => []) fun _ => .free :=
  have hlanes : Lanes.Flow align _ _ _ _ _ _ := Lanes.Flow.start pos
  ⟨rfl, fun _ => rfl, fun _ => rfl, hok, hsame, hlanes.aligned, hlanes.lane, hlanes.merge_ok⟩

theorem ok_fresh {n : ℕ} (pos : 0 < n) (router : Router α align n) (start : router.Cursor)
    {branch : Fin n → S} (hok : ∀ w, comp.Ok (branch w) [] [])
    (hsame : ∀ w v, comp.passes (comp.config (branch w)) = comp.passes (comp.config (branch v))) :
    Ok comp (fresh pos router start branch) ([] : List α) [] :=
  ⟨_, _, _, _, _, flow_fresh comp pos router start hok hsame⟩

variable {comp}

/-- Every step keeps the flow in order. -/
theorem ok_move {out : List α} {obs : List (α × (ℕ × C))} (hok : Ok comp s src dst)
    (h : Move comp s s' out obs) : Ok comp s' src (dst ++ out) := by
  obtain ⟨taken, srcs, os, held, st, hflow⟩ := hok
  cases h with
  | routeMarker hb hin ha =>
    rw [append_nil]
    exact ⟨_, _, _, _, _, hflow.route_marker hb hin ha⟩
  | routeData hb hin ha =>
    rw [append_nil]
    exact ⟨_, _, _, _, _, hflow.route_data hb hin ha⟩
  | send hb hk =>
    rw [append_nil]
    exact ⟨_, _, _, _, _, hflow.send hb hk⟩
  | branch hstep =>
    rw [append_nil]
    exact ⟨_, _, _, _, _, hflow.branch hstep⟩
  | collect hp hout =>
    rw [append_nil]
    exact ⟨_, _, _, _, _, hflow.of_lanes (hflow.lanes_flow.collect hp hout)⟩
  | hold hpc hfan ha hk =>
    rw [append_nil]
    exact ⟨_, _, _, _, _, hflow.of_lanes (hflow.lanes_flow.merge_hold hpc hfan ha hk)⟩
  | emit hpc hfan ha hk =>
    exact ⟨_, _, _, _, _, hflow.of_lanes (hflow.lanes_flow.merge_emit hflow.agree hpc hfan ha hk)⟩
  | mergeData hfan ha =>
    exact ⟨_, _, _, _, _, hflow.of_lanes (hflow.lanes_flow.merge_data hfan ha)⟩
  | resume hpc hk =>
    rw [append_nil]
    exact ⟨_, _, _, _, _, hflow.of_lanes (hflow.lanes_flow.resume hpc hk)⟩

theorem config_move {out : List α} {obs : List (α × (ℕ × C))} (h : Move comp s s' out obs) :
    config comp s' = config comp s := by
  cases h with
  | routeMarker => rfl
  | routeData =>
    simp only [config, ForkConfig.mk.injEq, heq_eq_eq, true_and]
    funext w
    exact config_fed _ _ w
  | send =>
    simp only [config, ForkConfig.mk.injEq, heq_eq_eq, true_and]
    funext w
    exact config_fed _ _ w
  | branch hstep =>
    simp only [config, ForkConfig.mk.injEq, heq_eq_eq, true_and]
    funext w
    exact config_update hstep w
  | collect => rfl
  | hold => rfl
  | emit => rfl
  | mergeData => rfl
  | resume => rfl

/-- The router has brought a branch exactly what the part of the input ahead of an aligned element
    leads to, if that is what the branch got ahead of it. -/
theorem Flow.split_src (h : Flow comp s src dst taken srcs os held st) {w : Fin s.n} {m : α}
    (hm : align m = true) {f₁ f₂ : List α} (hw : srcs w = f₁ ++ m :: f₂) :
    ∃ g₁ g₂, src = g₁ ++ m :: g₂ ∧ (s.router.lane w).outs s.start g₁ = f₁ := by
  have hrouted := h.routed w
  rw [hw, append_assoc] at hrouted
  obtain ⟨g₁, g₂, htaken, hg₁⟩ := s.router.lane_split w hm hrouted
  refine ⟨g₁, g₂ ++ s.input, ?_, hg₁⟩
  rw [h.src_eq, htaken, append_assoc]
  rfl

/-- A branch meets each cut element at most once. -/
theorem Flow.nodup_srcs (h : Flow comp s src dst taken srcs os held st)
    (hnodup : (src.filter cut).Nodup) (w : Fin s.n) : ((srcs w).filter cut).Nodup := by
  -- a branch gets each aligned element of the input once
  have hsrc : ((srcs w).filter align).Sublist (src.filter align) := by
    have hlane := Router.lane_filter s.router w s.start taken
    rw [h.routed w, filter_append] at hlane
    rw [h.src_eq, filter_append, ← hlane]
    exact (sublist_append_left _ _).trans (sublist_append_left _ _)
  rw [← comp.filter_align_cut] at hnodup ⊢
  exact hnodup.sublist (hsrc.filter cut)

theorem ok_align (hok : Ok comp s src dst) :
    dst.filter align <+: (src.filter align).filter (passes comp (config comp s)) := by
  obtain ⟨taken, srcs, os, held, st, hflow⟩ := hok
  -- all branches pass the same elements, so the first one stands for all
  have hpasses : passes comp (config comp s) = comp.passes (comp.config (s.branch ⟨0, s.pos⟩)) := by
    funext a
    rw [passes, Bool.eq_iff_iff, decide_eq_true_iff]
    constructor
    · intro h
      exact h ⟨0, s.pos⟩
    · intro h w
      show comp.passes (comp.config (s.branch w)) a = true
      rwa [hflow.same_passes w ⟨0, s.pos⟩]
  have hpre := hflow.filter_prefix ⟨0, s.pos⟩ ⟨0, s.pos⟩
  rw [append_assoc, append_assoc, filter_append, hflow.aligned.filter_eq ⟨0, s.pos⟩] at hpre
  rw [hpasses, hflow.src_eq, filter_append, filter_append]
  exact (prefix_append _ _).trans (hpre.trans (prefix_append _ _))

/-- What was merged ahead of a cut element is due to the input ahead of it. -/
theorem ok_cut {g₁ g₂ : List α} {m : α} (hok : Ok comp s src dst)
    (hnodup : (src.filter cut).Nodup) (hm : cut m = true) (hdst : dst = g₁ ++ m :: g₂) :
    ∃ f₁ f₂, src = f₁ ++ m :: f₂ ∧ Emits comp (config comp s) f₁ g₁ := by
  obtain ⟨taken, srcs, os, held, st, hflow⟩ := hok
  have hma : align m = true := comp.cut_align m hm
  obtain ⟨os₁, os₂, hos, hal⟩ := hflow.aligned.split hma hdst
  -- each branch emitted its part ahead of `m` on what it got ahead of `m`
  have hbranch : ∀ w, ∃ f₁ f₂, src = f₁ ++ m :: f₂ ∧
      comp.Emits (comp.config (s.branch w)) ((s.router.lane w).outs s.start f₁) (os₁ w) := by
    intro w
    have hok := hflow.branch_ok w
    rw [hos w, append_assoc, append_assoc, append_assoc, cons_append] at hok
    obtain ⟨f₁, f₂, hsrcs, hemits⟩ :=
      comp.ok_cut _ _ _ _ m _ hok (hflow.nodup_srcs hnodup w) hm rfl
    obtain ⟨h₁, h₂, hsrc, hlane⟩ := hflow.split_src hma hsrcs
    refine ⟨h₁, h₂, hsrc, ?_⟩
    rwa [hlane]
  -- and the input has only one part ahead of `m`
  obtain ⟨f₁, f₂, hsrc, -⟩ := hbranch ⟨0, s.pos⟩
  refine ⟨f₁, f₂, hsrc, os₁, ?_, hal⟩
  intro w
  obtain ⟨h₁, h₂, hsrc', hemits⟩ := hbranch w
  have heq : f₁ = h₁ :=
    List.append_cons_inj_of_nodup (hsrc ▸ hnodup) hm (hsrc.symm.trans hsrc')
  rw [heq]
  exact hemits

/-- What a branch observes at a cut element is due to the input ahead of it. -/
theorem ok_observes {out : List α} {obs : List (α × (ℕ × C))} {m : α} {c : ℕ × C}
    (hok : Ok comp s src dst) (hnodup : (src.filter cut).Nodup) (h : Move comp s s' out obs)
    (hmem : (m, c) ∈ obs) :
    cut m = true ∧ ∃ f₁ f₂, src = f₁ ++ m :: f₂ ∧ Observes comp (config comp s) f₁ c := by
  obtain ⟨taken, srcs, os, held, st, hflow⟩ := hok
  cases h with
  | @branch w e b out obs hstep =>
    obtain ⟨⟨m', c'⟩, hmem', heq⟩ := List.mem_map.mp hmem
    cases heq
    obtain ⟨hm, f₁, f₂, hsrcs, hobs⟩ := comp.ok_observes _ _ _ _ _ _ _ m' c'
      (hflow.branch_ok w) (hflow.nodup_srcs hnodup w) hstep hmem'
    obtain ⟨g₁, g₂, hsrc, hlane⟩ := hflow.split_src (comp.cut_align m' hm) hsrcs
    refine ⟨hm, g₁, g₂, hsrc, w.isLt, ?_⟩
    show comp.Observes (comp.config (s.branch w)) ((s.router.lane w).outs s.start g₁) c'
    rwa [hlane]
  | routeMarker => simp at hmem
  | routeData => simp at hmem
  | send => simp at hmem
  | collect => simp at hmem
  | hold => simp at hmem
  | emit => simp at hmem
  | mergeData => simp at hmem
  | resume => simp at hmem

end Fork

/-- Parallel branches between a router and an aligned merge are a component. -/
def Component.fork {S : Type u} {K : Type v} {E C : Type} (comp : Component S K E C cut align) :
    Component (Fork S α align) (ForkConfig K α align) (ForkEvent E) (ℕ × C) cut align where
  config := Fork.config comp
  push s xs := ({ s with input := s.input ++ xs }, [])
  step := Fork.step comp
  Ok := Fork.Ok comp
  Emits := Fork.Emits comp
  Observes := Fork.Observes comp
  passes := Fork.passes comp
  config_push _ _ := rfl
  config_step _ _ _ _ _ h := Fork.config_move (Fork.move_of_step h)
  ok_push s src dst xs hok := by
    obtain ⟨taken, srcs, os, held, st, h⟩ := hok
    refine ⟨taken, srcs, os, held, st, ?_, h.cursor_eq, h.routed, h.branch_ok, h.same_passes, ?_,
      h.lane, h.merge_ok⟩
    · rw [h.src_eq, List.append_assoc]
    · rw [List.append_nil]
      exact h.aligned
  ok_step _ _ _ _ _ _ _ hok h := Fork.ok_move hok (Fork.move_of_step h)
  cut_align := comp.cut_align
  passes_cut k a ha := decide_eq_true fun w => comp.passes_cut (k.branch w) a ha
  ok_align _ _ _ h := Fork.ok_align h
  ok_cut _ _ _ _ _ _ h hnodup hm hdst := Fork.ok_cut h hnodup hm hdst
  ok_observes _ _ _ _ _ _ _ _ _ h hnodup hstep hmem :=
    Fork.ok_observes h hnodup (Fork.move_of_step hstep) hmem
