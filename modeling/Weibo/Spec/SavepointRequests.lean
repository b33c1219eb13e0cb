import Weibo.Model.JobAgent
import Weibo.Spec.SavepointNames

/-!
# Savepoint requests

A request is accepted as long as `Run` has not returned, also while the job drains for an earlier
request. The agent keeps one label, so each accepted request replaces the label before it, and
`Serve` promotes the last one. A request is decided under the lock that `Run` takes to finish, and
`Serve` looks for it after that, so no request is accepted too late.

## Key results

- `Inv.step`: what is promoted is what the agent has recorded
- `accepted_promoted_iff`: when `Serve` is done, every accepted label was promoted
  exactly if no request was accepted after one with another label
-/

namespace Weibo.JobAgent

open List

namespace Agent

/-! ## The lock-protected state -/

@[simp] theorem savepointRequest_cancel (a : Agent) :
    a.cancel.savepointRequest = a.savepointRequest := by
  rw [cancel]
  split <;> rfl

theorem terminal_finish (a : Agent) (failed : Bool) : (a.finish failed).phase.terminal = true := by
  cases failed <;> rfl

/-- A finished run is not cancelled. -/
theorem cancel_of_terminal {a : Agent} (h : a.phase.terminal = true) : a.cancel = a := by
  rw [cancel, live, h, Bool.not_true, Bool.and_false, if_neg Bool.false_ne_true]

theorem not_terminal_of_live {a : Agent} (h : a.live = true) : a.phase.terminal = false := by
  rw [live, Bool.and_eq_true, Bool.not_eq_true'] at h
  exact h.2

end Agent

/-- `Run` has returned. -/
def ServePc.late : ServePc → Bool
  | .ran | .promoting _ | .done => true
  | _ => false

namespace Serving

variable {Ops Blob : Type} {codec : RecordCodec Ops Blob} {src : StorageDir} {b : FileBlobstore}
  {s s' : Serving} {label : List Char}

/-! ## Steps -/

/-- An accepted request is recorded, and nothing else changes. -/
theorem step_request (hlive : s.agent.live = true)
    (h : step codec src b s (.request label) = some s') :
    s' = { s with
      agent := { s.agent with savepointReq := true, savepointLabel := label }
      cancelling := label :: s.cancelling } := by
  rw [step, Agent.requestSavepoint, if_pos hlive] at h
  exact (Option.some.inj h).symm

/-- A step other than an accepted request keeps the label that is recorded, and the requests that
    were accepted. -/
structure Quiet (s s' : Serving) : Prop where
  request : s'.agent.savepointRequest = s.agent.savepointRequest
  accepted : s'.accepted.Perm s.accepted

theorem quiet_step {e : Event} (h : step codec src b s e = some s')
    (hreq : ∀ label, e = .request label → s.agent.live = false) : Quiet s s' := by
  revert h
  fun_cases step codec src b s e <;> intro h <;> try cases h
  case case7.refl label agent hagent => simp [Agent.requestSavepoint, hreq label rfl] at hagent
  case case9 =>
    obtain ⟨label, hlabel, rfl⟩ := Option.map_eq_some_iff.mp h
    obtain ⟨hi, rfl⟩ := List.getElem?_eq_some_iff.mp hlabel
    refine ⟨s.agent.savepointRequest_cancel, ?_⟩
    -- the label moves from one list to the other
    exact perm_middle.trans ((getElem_cons_eraseIdx_perm hi).append_right s.returned)
  case case10.refl => exact ⟨s.agent.savepointRequest_cancel, .refl _⟩
  case case14 =>
    obtain ⟨store, -, rfl⟩ := Option.map_eq_some_iff.mp h
    exact ⟨rfl, .refl _⟩
  all_goals exact ⟨rfl, .refl _⟩

/-! ## What is promoted -/

/-- What holds in every state of a served job. -/
structure Inv (s : Serving) : Prop where
  /-- The label that is recorded was accepted. -/
  recorded : ∀ label, s.agent.savepointRequest = some label → label ∈ s.accepted
  /-- One is recorded if any was accepted. -/
  requested : s.accepted ≠ [] → s.agent.savepointRequest ≠ none
  terminal : s.pc.late = true → s.agent.phase.terminal = true
  promoting : ∀ label, s.pc = .promoting label → s.agent.savepointRequest = some label
  /-- It is the one that is promoted. -/
  promoted : ∀ label, (∃ p ∈ s.store.promoted, p.label = label) ↔
    s.pc = .done ∧ s.agent.savepointRequest = some label

theorem inv_start (tree : FileTree TarStream) : (start tree).Inv where
  recorded label h := absurd h (by simp [start, Agent.new, Agent.savepointRequest])
  requested h := absurd rfl h
  terminal h := absurd h (by simp [start, ServePc.late])
  promoting label h := absurd h (by simp [start])
  promoted label := iff_of_false (by simp [start]) (by simp [start])

/-- The requests and the label after a quiet step. -/
theorem Inv.quiet (h : s.Inv) (hq : Quiet s s')
    (hterminal : s'.pc.late = true → s'.agent.phase.terminal = true)
    (hpromoting : ∀ label, s'.pc = .promoting label → s.agent.savepointRequest = some label)
    (hpromoted : ∀ label, (∃ p ∈ s'.store.promoted, p.label = label) ↔
      s'.pc = .done ∧ s.agent.savepointRequest = some label) : s'.Inv where
  recorded label hl := by
    rw [hq.request] at hl
    exact hq.accepted.mem_iff.mpr (h.recorded label hl)
  requested hne := by
    rw [hq.request]
    exact h.requested fun hnil => hne (perm_nil.mp (hnil ▸ hq.accepted))
  terminal := hterminal
  promoting label hl := by
    rw [hq.request]
    exact hpromoting label hl
  promoted label := by
    rw [hq.request]
    exact hpromoted label

/-- Nothing was promoted before `Serve` is done. -/
theorem Inv.not_promoted (h : s.Inv) (hpc : s.pc ≠ .done) {pc : ServePc}
    (hpc' : pc ≠ .done) (label : List Char) :
    (∃ p ∈ s.store.promoted, p.label = label) ↔
      pc = .done ∧ s.agent.savepointRequest = some label := by
  rw [h.promoted label]
  exact iff_of_false (fun hd => hpc hd.1) fun hd => hpc' hd.1

/-- A request is accepted before `Run` has returned only. -/
theorem Inv.request (h : s.Inv)
    (hlive : s.agent.live = true) (hse : Serving.step codec src b s (.request label) = some s') :
    s'.Inv := by
  obtain rfl := step_request hlive hse
  have hlate : s.pc.late = false := by
    by_contra hlate
    have hterminal := h.terminal (Bool.eq_true_of_not_eq_false hlate)
    rw [Agent.not_terminal_of_live hlive] at hterminal
    exact Bool.false_ne_true hterminal
  have hdone : s.pc ≠ .done := fun hpc => by simp [hpc, ServePc.late] at hlate
  refine ⟨fun label' hl => ?_, fun _ => Option.some_ne_none label, fun hl => ?_, fun label' hl => ?_,
    fun label' => ?_⟩
  · rw [← Option.some.inj hl]
    exact mem_cons_self
  · exact absurd (hlate.symm.trans hl) Bool.false_ne_true
  · simp [show s.pc = .promoting label' from hl, ServePc.late] at hlate
  · rw [h.promoted label']
    exact iff_of_false (fun hd => hdone hd.1) fun hd => hdone hd.1

theorem Inv.step {e : Event} (h : s.Inv) (hse : step codec src b s e = some s') : s'.Inv := by
  by_cases hreq : ∀ label, e = .request label → s.agent.live = false
  · have hq := quiet_step hse hreq
    revert hse
    fun_cases Serving.step codec src b s e <;> intro hse <;> try cases hse
    case case1.refl hpc | case3.refl hpc =>
      exact h.quiet hq (fun hl => absurd hl (by simp [ServePc.late])) (fun _ hl => by simp at hl)
        (h.not_promoted (by simp [hpc]) (by simp))
    case case5.refl failed hpc =>
      exact h.quiet hq (fun _ => s.agent.terminal_finish failed) (fun _ hl => by simp at hl)
        (h.not_promoted (by simp [hpc]) (by simp))
    case case7.refl label agent hagent => simp [Agent.requestSavepoint, hreq label rfl] at hagent
    case case8.refl => exact h
    case case9 =>
      obtain ⟨label, -, rfl⟩ := Option.map_eq_some_iff.mp hse
      refine h.quiet hq (fun hl => ?_) h.promoting h.promoted
      rw [Agent.cancel_of_terminal (h.terminal hl)]
      exact h.terminal hl
    case case10.refl =>
      refine h.quiet hq (fun hl => ?_) h.promoting h.promoted
      rw [Agent.cancel_of_terminal (h.terminal hl)]
      exact h.terminal hl
    case case11.refl hpc label hlabel =>
      refine h.quiet hq (fun _ => h.terminal (by simp [hpc, ServePc.late])) (fun label' hl => ?_)
        (h.not_promoted (by simp [hpc]) (by simp))
      rw [hlabel, ServePc.promoting.inj hl]
    case case12.refl hpc hnone =>
      refine h.quiet hq (fun _ => h.terminal (by simp [hpc, ServePc.late]))
        (fun _ hl => by simp at hl) fun label' => ?_
      rw [h.promoted label', hnone]
      exact iff_of_false (fun hd => by simp at hd) fun hd => by simp at hd
    case case14 label hpc =>
      obtain ⟨store, hcreate, rfl⟩ := Option.map_eq_some_iff.mp hse
      obtain ⟨p, -, hlabel, hpromoted, -⟩ := SavepointStore.step_create hcreate
      have hrequest := h.promoting label hpc
      have hterminal := h.terminal (by simp [hpc, ServePc.late])
      refine h.quiet hq (fun _ => hterminal) (fun _ hl => by simp at hl) fun label' => ?_
      dsimp only
      -- nothing was promoted before
      have hbefore : ¬ ∃ p ∈ s.store.promoted, p.label = label' := fun hex => by
        have hdone := ((h.promoted label').mp hex).1
        rw [hpc] at hdone
        simp at hdone
      rw [hpromoted, exists_mem_cons_iff, or_iff_left hbefore, hlabel, hrequest]
      simp
  · obtain ⟨label, hlabel⟩ := not_forall.mp hreq
    obtain ⟨rfl, hlive⟩ := Classical.not_imp.mp hlabel
    exact h.request (Bool.eq_true_of_not_eq_false hlive) hse

/-! ## Accepted labels -/

/-- Every label that was accepted is the one that is recorded. -/
def Agreed (s : Serving) : Prop :=
  ∀ label ∈ s.accepted, s.agent.savepointRequest = some label

/-- A request that is accepted has the label that is recorded, if one is. -/
def SameLabel (s : Serving) : Event → Prop
  | .request label =>
    s.agent.live = true → ∀ label', s.agent.savepointRequest = some label' → label' = label
  | _ => True

/-- A step keeps the accepted labels equal exactly if it does not accept another one. -/
theorem agreed_step {e : Event} (h : s.Inv) (hse : Serving.step codec src b s e = some s') : s'.Agreed ↔ s.Agreed ∧ s.SameLabel e := by
  by_cases hreq : ∀ label, e = .request label → s.agent.live = false
  · have hq := quiet_step hse hreq
    have hsame : s.SameLabel e := by
      cases e with
      | request label =>
        intro hlive
        rw [hreq label rfl] at hlive
        exact absurd hlive Bool.false_ne_true
      | _ => exact trivial
    rw [and_iff_left hsame, Agreed, Agreed, hq.request]
    exact forall_congr' fun label => by rw [hq.accepted.mem_iff]
  · obtain ⟨label, hlabel⟩ := not_forall.mp hreq
    obtain ⟨rfl, hlive⟩ := Classical.not_imp.mp hlabel
    have hlive := Bool.eq_true_of_not_eq_false hlive
    obtain rfl := step_request hlive hse
    -- the new label is recorded, so all others have to be equal to it
    have hiff : Agreed { s with
        agent := { s.agent with savepointReq := true, savepointLabel := label }
        cancelling := label :: s.cancelling } ↔ ∀ label' ∈ s.accepted, label = label' := by
      constructor
      · intro hall label' hl
        exact Option.some.inj (hall label' (mem_cons_of_mem label hl))
      · intro hall label' hl
        rcases mem_cons.mp hl with rfl | hl
        · rfl
        · exact congrArg some (hall label' hl)
    rw [hiff]
    constructor
    · intro hall
      refine ⟨fun label' hl => ?_, fun _ label' hl => (hall label' (h.recorded label' hl)).symm⟩
      obtain ⟨label'', hrequest⟩ :=
        Option.ne_none_iff_exists'.mp (h.requested (ne_nil_of_mem hl))
      rw [hrequest, ← hall label'' (h.recorded label'' hrequest), hall label' hl]
    · rintro ⟨hagreed, hsame⟩ label' hl
      exact (hsame hlive label' (hagreed label' hl)).symm

/-- Requests that all ask for the same savepoint. -/
theorem along_sameLabel {events : List Event}
    (hs : ∀ label', s.agent.savepointRequest = some label' → label' = label)
    (hevents : ∀ label', .request label' ∈ events → label' = label) :
    Run.Along (step codec src b) SameLabel s events := by
  induction events generalizing s with
  | nil => exact trivial
  | cons e events ih =>
    intro s' hse
    have hrest : ∀ label', .request label' ∈ events → label' = label := fun label' hl =>
      hevents label' (mem_cons_of_mem e hl)
    by_cases hreq : ∀ label', e = .request label' → s.agent.live = false
    · refine ⟨?_, ih (fun label' hl => hs label' ((quiet_step hse hreq).request ▸ hl)) hrest⟩
      cases e with
      | request label' => exact fun hlive => absurd ((hreq label' rfl).symm.trans hlive) (by simp)
      | _ => exact trivial
    · obtain ⟨label', hlabel⟩ := not_forall.mp hreq
      obtain ⟨rfl, hlive⟩ := Classical.not_imp.mp hlabel
      have heq := hevents label' mem_cons_self
      obtain rfl := step_request (Bool.eq_true_of_not_eq_false hlive) hse
      refine ⟨fun _ label'' hl => (hs label'' hl).trans heq.symm, ih (fun label'' hl => ?_) hrest⟩
      exact (Option.some.inj hl).symm.trans heq

/-- In every interleaving of requests and cancels with the end of the run and with the promotion:
    when `Serve` is done, every label that was accepted was promoted to a savepoint, if and only if
    no request was accepted when another label was recorded. -/
theorem accepted_promoted_iff (codec : RecordCodec Ops Blob) (src : StorageDir)
    (b : FileBlobstore) (tree : FileTree TarStream) (events : List Event) (s : Serving)
    (hrun : Run.exec (step codec src b) (start tree) events = some s) (hdone : s.pc = .done) :
    (∀ label ∈ s.accepted, ∃ p ∈ s.store.promoted, p.label = label) ↔
      Run.Along (step codec src b) SameLabel (start tree) events := by
  have hinv : s.Inv := Run.exec_invariant (fun _ _ _ h hse => h.step hse) (inv_start tree) hrun
  have hstart : (start tree).Agreed := fun label hl => absurd hl not_mem_nil
  have hagreed : s.Agreed ↔ Run.Along (step codec src b) SameLabel (start tree) events :=
    (Run.exec_iff_along (fun _ _ _ h hse => h.step hse) (fun _ _ _ h hse => agreed_step h hse)
      (inv_start tree) hrun).trans (and_iff_right hstart)
  rw [← hagreed, Agreed]
  refine forall_congr' fun label => imp_congr_right fun _ => ?_
  rw [hinv.promoted label]
  exact and_iff_right hdone

/-- A served job: two requests are accepted one after the other, then the job drains and the
    promotion follows. -/
def twoRequests (label label' : List Char) : List Event :=
  [.begin, .request label, .accept 0, .request label', .accept 0, .executed false, .finish, .read]

/-- The promotion that ends it, from a storage at `/data` into a store at `/blobs`. -/
theorem exec_twoRequests (codec : RecordCodec Unit Unit) (label label' : List Char) :
    Run.exec (step codec ⟨[], "/data".toList⟩ ⟨[], "/blobs".toList⟩) (start .empty)
        (twoRequests label label' ++
          [.promote ".blob-7".toList (SavepointStore.statelessFiles codec)]) =
      (FileBlobstore.put ⟨[], "/blobs".toList⟩ .empty (savepointKey label') ".blob-7".toList
        (StorageDir.tarStream codec SavepointStore.stateless [])).map fun t =>
          ⟨⟨.finished, true, true, label'⟩, .done, [], [label', label],
            ⟨t, [⟨label', "1", StorageDir.tarStream codec SavepointStore.stateless []⟩]⟩⟩ := by
  have hread : Run.exec (step codec ⟨[], "/data".toList⟩ ⟨[], "/blobs".toList⟩) (start .empty)
      (twoRequests label label') = some ⟨⟨.finished, true, true, label'⟩, .promoting label', [],
        [label', label], ⟨.empty, []⟩⟩ := rfl
  rw [Run.exec_append, hread, Option.bind_some, Run.exec_cons, step]
  dsimp only
  rw [SavepointStore.step_stateless]
  cases FileBlobstore.put ⟨[], "/blobs".toList⟩ .empty (savepointKey label') ".blob-7".toList
    (StorageDir.tarStream codec SavepointStore.stateless []) <;> rfl

/-- Two requests for the same savepoint. -/
theorem accepted_promoted_twice : ∃ s,
    Run.exec (step .unit ⟨[], "/data".toList⟩ ⟨[], "/blobs".toList⟩) (start .empty)
      (twoRequests "a".toList "a".toList ++
        [.promote ".blob-7".toList (SavepointStore.statelessFiles .unit)]) = some s ∧
    ∀ label ∈ s.accepted, ∃ p ∈ s.store.promoted, p.label = label := by
  have hput : (FileBlobstore.put ⟨[], "/blobs".toList⟩ .empty (savepointKey "a".toList)
      ".blob-7".toList (StorageDir.tarStream .unit SavepointStore.stateless [])).isSome = true := rfl
  obtain ⟨t, ht⟩ := Option.isSome_iff_exists.mp hput
  have hrun := exec_twoRequests .unit "a".toList "a".toList
  rw [ht] at hrun
  have hsame : ∀ label, Event.request label ∈ twoRequests "a".toList "a".toList ++
      [.promote ".blob-7".toList (SavepointStore.statelessFiles .unit)] → label = "a".toList := by
    intro label hl
    simpa only [twoRequests, cons_append, nil_append, mem_cons, not_mem_nil,
      reduceCtorEq, Event.request.injEq, or_false, false_or, or_self] using hl
  refine ⟨_, hrun, (accepted_promoted_iff .unit _ _ _ _ _ hrun rfl).mpr (along_sameLabel ?_ hsame)⟩
  exact fun _ hl => absurd hl (by simp [start, Agent.new, Agent.savepointRequest])

/-- Both requests return `true`, and the first savepoint is never made. -/
theorem accepted_not_promoted :
    (Run.exec (step .unit ⟨[], "/data".toList⟩ ⟨[], "/blobs".toList⟩) (start .empty)
      (twoRequests "a".toList "b".toList ++
        [.promote ".blob-7".toList (SavepointStore.statelessFiles .unit)])).map
      (fun s => (s.pc, s.returned, s.store.promoted.map Promotion.label)) =
    some (.done, ["b".toList, "a".toList], ["b".toList]) := by
  rw [exec_twoRequests]
  rfl

end Serving

end Weibo.JobAgent
