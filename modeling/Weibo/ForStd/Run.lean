import Mathlib.Algebra.BigOperators.Group.Finset.Basic
import Mathlib.Data.Fintype.Basic

/-!
# Runs of a partial step function

A concurrent program is given by a state type `σ`, an event type `ε` and a step function `σ → ε →
Option σ`, where `none` says that the event is not enabled. Every scheduling choice and every
outcome of the environment is part of the event, so a list of events is one interleaving and
quantifying over lists of events quantifies over all of them.

These notions are used by the developments on top:

- `exec` runs a list of events;
- `Stuck` says that no event is enabled, `Terminates` that every run gets there;
- `Always` says that a predicate holds in every state of a run;
- `Along` says that every step of a run meets a condition on the state before
  it and the event taken.
-/

open Finset

namespace Run

open Option

variable {σ ε α : Type*} {step : σ → ε → Option σ} {es : List ε} {G : σ → ε → Prop} {s s' : σ}

/-- Run the events one after the other; `none` as soon as one is not enabled. -/
def exec (step : σ → ε → Option σ) (s : σ) (es : List ε) : Option σ :=
  es.foldlM step s

@[simp] theorem exec_nil (s : σ) : exec step s [] = some s := rfl

@[simp] theorem exec_cons (s : σ) (e : ε) (es : List ε) :
    exec step s (e :: es) = (step s e).bind fun s' => exec step s' es := by
  simp only [exec, List.foldlM_cons]; rfl

/-- A run of `e :: es` takes the step `e` first. -/
theorem exec_cons_some {e : ε} (h : exec step s (e :: es) = some s') :
    ∃ s₁, step s e = some s₁ ∧ exec step s₁ es = some s' := by
  rw [exec_cons] at h
  exact bind_eq_some_iff.mp h

theorem exec_append (s : σ) (es es' : List ε) :
    exec step s (es ++ es') = (exec step s es).bind fun s' => exec step s' es' :=
  List.foldlM_append

/-- What holds at the start and is preserved by every step holds at the end. -/
theorem exec_invariant {I : σ → Prop} (hstep : ∀ s e s', I s → step s e = some s' → I s')
    (hs : I s) (h : exec step s es = some s') : I s' := by
  induction es generalizing s with
  | nil => simp only [exec_nil, some.injEq] at h; exact h ▸ hs
  | cons e es ih =>
    obtain ⟨s₁, h₁, h₂⟩ := exec_cons_some h
    exact ih (hstep s e s₁ hs h₁) h₂

/-- No event is enabled. -/
def Stuck (step : σ → ε → Option σ) (s : σ) : Prop := ∀ e, step s e = none

theorem Stuck.not_isSome (h : Stuck step s) (e : ε) : ¬ (step s e).isSome := by
  rw [h e]
  exact Bool.false_ne_true

/-- No run goes on forever. -/
def Terminates (step : σ → ε → Option σ) : Prop :=
  WellFounded fun s' s => ∃ e, step s e = some s'

/-- What every step decreases bounds the runs. -/
theorem terminates_of_decreasing [LT α] [WellFoundedLT α] {μ : σ → α}
    (h : ∀ s e s', step s e = some s' → μ s' < μ s) : Terminates step := by
  apply Subrelation.wf (r := InvImage (· < ·) μ)
  · rintro s' s ⟨e, hs⟩
    exact h s e s' hs
  · exact InvImage.wf μ wellFounded_lt

/-- A measure that is a sum over the parts of a system, when a step changes one part only. -/
theorem sum_part {ι : Type*} [Fintype ι] [DecidableEq ι] {f g : ι → ℕ} (i : ι)
    (hoff : ∀ j, j ≠ i → g j = f j) : (∑ j, g j) + f i = (∑ j, f j) + g i := by
  have hrest : ∑ j ∈ univ.erase i, g j = ∑ j ∈ univ.erase i, f j :=
    sum_congr rfl fun j hj => hoff j (ne_of_mem_erase hj)
  have hnew := add_sum_erase univ g (mem_univ i)
  have hold := add_sum_erase univ f (mem_univ i)
  omega

/-- The sum over the parts kept in a list. -/
def total {α : Type*} (f : α → ℕ) : List α → ℕ
  | [] => 0
  | a :: l => f a + total f l

/-- The same for parts kept in a list. -/
theorem total_set (f : α → ℕ) {l : List α} {i : ℕ} {old : α} (new : α) (h : l[i]? = some old) : total f (l.set i new) + f old = total f l + f new := by
  induction l generalizing i with
  | nil => cases h
  | cons a l ih =>
    cases i with
    | zero =>
      obtain rfl : a = old := some.inj h
      simp only [List.set_cons_zero, total]
      omega
    | succ i =>
      have := ih h
      simp only [List.set_cons_succ, total]
      omega

/-- How the number of parts at some point changes when one part moves. -/
theorem countP_set (p : α → Bool) {l : List α} {i : ℕ} {old : α} (new : α) (h : l[i]? = some old) :
    (l.set i new).countP p + (p old).toNat = l.countP p + (p new).toNat := by
  have htotal : ∀ l : List α, l.countP p = total (fun a => (p a).toNat) l := by
    intro l
    induction l with
    | nil => rfl
    | cons a l ih =>
      rw [List.countP_cons, ih, total]
      cases p a <;> simp [Nat.add_comm]
  rw [htotal, htotal]
  exact total_set (fun a => (p a).toNat) new h

/-- Where no run goes on forever, every run can be brought to its end. -/
theorem Terminates.exists_stuck (h : Terminates step) (s : σ) :
    ∃ es s', exec step s es = some s' ∧ Stuck step s' := by
  induction s using h.induction with
  | _ s ih =>
    by_cases hstuck : Stuck step s
    · exact ⟨[], s, rfl, hstuck⟩
    · obtain ⟨e, he⟩ := not_forall.mp hstuck
      obtain ⟨s₁, hs₁⟩ := ne_none_iff_exists'.mp he
      obtain ⟨es, s', hrun, hend⟩ := ih s₁ ⟨e, hs₁⟩
      refine ⟨e :: es, s', ?_, hend⟩
      rw [exec_cons, hs₁]
      exact hrun

/-- `P` holds in every state the run passes through, the first and the last included. -/
def Always (step : σ → ε → Option σ) (P : σ → Prop) : σ → List ε → Prop
  | s, [] => P s
  | s, e :: es => P s ∧ ∀ s', step s e = some s' → Always step P s' es

/-- Every step the run takes meets `G`, a condition on the state before the step and the event
    taken. -/
def Along (step : σ → ε → Option σ) (G : σ → ε → Prop) : σ → List ε → Prop
  | _, [] => True
  | s, e :: es => ∀ s', step s e = some s' → G s e ∧ Along step G s' es

/-- A condition along a run in two parts. -/
theorem Along.append {es' : List ε} (h : Along step G s (es ++ es')) :
    Along step G s es ∧ ∀ s', exec step s es = some s' → Along step G s' es' := by
  induction es generalizing s with
  | nil => exact ⟨trivial, fun s' hs => by rw [← some.inj hs]; exact h⟩
  | cons e es ih =>
    refine ⟨fun s₁ h₁ => ⟨(h s₁ h₁).1, (ih (h s₁ h₁).2).1⟩, fun s' hs => ?_⟩
    obtain ⟨s₁, h₁, h₂⟩ := exec_cons_some hs
    exact (ih (h s₁ h₁).2).2 s' h₂

/-- A condition on the events alone. -/
theorem along_of_forall {G : ε → Prop} (h : ∀ e ∈ es, G e) :
    Along step (fun _ e => G e) s es := by
  induction es generalizing s with
  | nil => exact trivial
  | cons e es ih =>
    intro s' _
    exact ⟨h e List.mem_cons_self, ih fun e' he => h e' (List.mem_cons_of_mem e he)⟩

/-- A decidable condition can be checked along a concrete run. -/
instance decidableAlong {G : σ → ε → Prop} [∀ s e, Decidable (G s e)] :
    ∀ (s : σ) (es : List ε), Decidable (Along step G s es)
  | _, [] => isTrue trivial
  | s, e :: es =>
    match h : step s e with
    | none => isTrue fun _ hs' => absurd (h.symm.trans hs') (Option.some_ne_none _).symm
    | some s₁ =>
      have : Decidable (Along step G s₁ es) := decidableAlong s₁ es
      decidable_of_iff (G s e ∧ Along step G s₁ es)
        ⟨fun hg _ hs' => Option.some.inj (h.symm.trans hs') ▸ hg, fun hg => hg s₁ h⟩

/-- The guarded form of `exec_invariant`: the steps need to preserve the invariant only where they
    meet `G`. -/
theorem exec_invariant_along {I : σ → Prop}
    (hstep : ∀ s e s', I s → G s e → step s e = some s' → I s')
    (hs : I s) (hG : Along step G s es) (h : exec step s es = some s') : I s' := by
  induction es generalizing s with
  | nil => simp only [exec_nil, some.injEq] at h; exact h ▸ hs
  | cons e es ih =>
    obtain ⟨s₁, h₁, h₂⟩ := exec_cons_some h
    obtain ⟨hg, hrest⟩ := hG s₁ h₁
    exact ih (hstep s e s₁ hs hg h₁) hrest h₂

/-- If a step that starts where `P` holds ends where `P` holds exactly when it meets `G`, then `P`
    holds along a whole run exactly when every step of it meets `G`. The invariant `I` is only
    needed while `P` holds. -/
theorem always_iff_along {I P : σ → Prop}
    (hinv : ∀ s e s', I s → P s → step s e = some s' → P s' → I s')
    (hstep : ∀ s e s', I s → P s → step s e = some s' → (P s' ↔ G s e)) (hs : I s) (hP : P s) :
    Always step P s es ↔ Along step G s es := by
  induction es generalizing s with
  | nil => simp only [Always, Along, hP]
  | cons e es ih =>
    constructor
    · intro h s' hs'
      have hrest := h.2 s' hs'
      have hP' : P s' := by cases es <;> first | exact hrest | exact hrest.1
      exact ⟨(hstep s e s' hs hP hs').mp hP', (ih (hinv s e s' hs hP hs' hP') hP').mp hrest⟩
    · intro h
      refine ⟨hP, fun s' hs' => ?_⟩
      obtain ⟨hg, hrest⟩ := h s' hs'
      have hP' : P s' := (hstep s e s' hs hP hs').mpr hg
      exact (ih (hinv s e s' hs hP hs' hP') hP').mpr hrest

/-- If a step that meets `G` keeps `P`, and any other step destroys it for good, then `P` holds at
    the end of a run exactly if it holds at the start and every step meets `G`. -/
theorem exec_iff_along {I P : σ → Prop} (hinv : ∀ s e s', I s → step s e = some s' → I s')
    (hstep : ∀ s e s', I s → step s e = some s' → (P s' ↔ P s ∧ G s e))
    (hs : I s) (h : exec step s es = some s') :
    P s' ↔ P s ∧ Along step G s es := by
  induction es generalizing s with
  | nil =>
    obtain rfl : s = s' := by simpa using h
    exact (and_iff_left trivial).symm
  | cons e es ih =>
    obtain ⟨s₁, h₁, h₂⟩ := exec_cons_some h
    rw [ih (hinv s e s₁ hs h₁) h₂, hstep s e s₁ hs h₁, and_assoc]
    refine and_congr_right fun _ => ⟨fun hG s₁' h₁' => ?_, fun hG => hG s₁ h₁⟩
    rw [h₁] at h₁'
    exact some.inj h₁' ▸ hG

end Run
