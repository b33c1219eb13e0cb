import Mathlib.Data.List.Basic

/-!
# Sequential transducers

A `Transducer` consumes one input at a time, updates its state and emits a
list of outputs.  `state` and `outs` are what it reaches and emits on a whole
input list; both distribute over append, which is what lets a proof move one
input from a queue into the consumed prefix.
-/

/-- A machine that maps each input to a state change and a list of outputs. -/
structure Transducer (σ α β : Type*) where
  step : σ → α → σ × List β

namespace Transducer

open List

variable {σ α β : Type*} (t : Transducer σ α β)

/-- The state reached from `s` on a list of inputs. -/
def state (s : σ) : List α → σ
  | [] => s
  | a :: as => state (t.step s a).1 as

/-- The outputs emitted from `s` on a list of inputs. -/
def outs (s : σ) : List α → List β
  | [] => []
  | a :: as => (t.step s a).2 ++ outs (t.step s a).1 as

@[simp] theorem state_nil (s : σ) : t.state s [] = s := rfl

@[simp] theorem outs_nil (s : σ) : t.outs s [] = [] := rfl

theorem state_append (s : σ) (as bs : List α) :
    t.state s (as ++ bs) = t.state (t.state s as) bs := by
  induction as generalizing s with
  | nil => rfl
  | cons a as ih => exact ih _

theorem outs_append (s : σ) (as bs : List α) :
    t.outs s (as ++ bs) = t.outs s as ++ t.outs (t.state s as) bs := by
  induction as generalizing s with
  | nil => rfl
  | cons a as ih => simp [outs, state, ih]

/-- Consuming one more input applies one step to the state reached so far. -/
theorem state_snoc (s : σ) (as : List α) (a : α) :
    t.state s (as ++ [a]) = (t.step (t.state s as) a).1 := by
  rw [state_append]; rfl

/-- Consuming one more input appends the outputs of that step. -/
theorem outs_snoc (s : σ) (as : List α) (a : α) :
    t.outs s (as ++ [a]) = t.outs s as ++ (t.step (t.state s as) a).2 := by
  rw [outs_append]; simp [outs]

/-- If each step emits of `p` what its input shows of `q`, so does a run. -/
theorem outs_filter {p q : β → Bool} {f : α → β}
    (h : ∀ s a, (t.step s a).2.filter p = [f a].filter q) (s : σ) (as : List α) :
    (t.outs s as).filter p = (as.map f).filter q := by
  induction as generalizing s with
  | nil => rfl
  | cons a as ih =>
    rw [outs, filter_append, h, ih, map_cons, ← filter_append]
    rfl

/-- Each output is due to one input. -/
theorem outs_eq_append_cons {s : σ} {as : List α} {g₁ g₂ : List β} {x : β}
    (h : t.outs s as = g₁ ++ x :: g₂) :
    ∃ as₁ a as₂ p q, as = as₁ ++ a :: as₂ ∧ (t.step (t.state s as₁) a).2 = p ++ x :: q ∧
      g₁ = t.outs s as₁ ++ p := by
  induction as generalizing s g₁ with
  | nil => simp at h
  | cons a as ih =>
    -- the output stands in what `a` emits, or behind all of it
    have hcases : (∃ q, (t.step s a).2 = g₁ ++ x :: q) ∨
        ∃ g, g₁ = (t.step s a).2 ++ g ∧ t.outs (t.step s a).1 as = g ++ x :: g₂ := by
      rcases append_eq_append_iff.mp (show (t.step s a).2 ++ _ = g₁ ++ x :: g₂ from h) with
        ⟨g, hg, hrest⟩ | ⟨g, hstep, hrest⟩
      · exact .inr ⟨g, hg, hrest⟩
      · cases g with
        | nil => exact .inr ⟨[], by rw [hstep, append_nil, append_nil], hrest.symm⟩
        | cons y g =>
          cases hrest
          exact .inl ⟨g, hstep⟩
    rcases hcases with ⟨q, hstep⟩ | ⟨g, rfl, hrest⟩
    · exact ⟨[], a, as, g₁, q, rfl, hstep, rfl⟩
    · obtain ⟨as₁, a', as₂, p, q, rfl, hstep, rfl⟩ := ih hrest
      exact ⟨a :: as₁, a', as₂, p, q, rfl, hstep, by rw [outs, append_assoc]⟩

/-- If an output `m` is only ever emitted alone and by an input that shows it, then the outputs
    ahead of it are due to the inputs ahead of that one. -/
theorem outs_split {f : α → β} {m : β}
    (h : ∀ s a, m ∈ (t.step s a).2 → (t.step s a).2 = [m] ∧ f a = m) {s : σ} {as : List α}
    {g₁ g₂ : List β} (hout : t.outs s as = g₁ ++ m :: g₂) :
    ∃ as₁ a as₂, as = as₁ ++ a :: as₂ ∧ f a = m ∧ t.outs s as₁ = g₁ := by
  obtain ⟨as₁, a, as₂, p, q, rfl, hstep, rfl⟩ := t.outs_eq_append_cons hout
  obtain ⟨hone, ha⟩ := h _ a (by rw [hstep]; simp)
  obtain rfl : p = [] := by
    have hlength := congrArg length (hstep.symm.trans hone)
    simp only [length_append, length_cons, length_nil] at hlength
    exact eq_nil_of_length_eq_zero (by omega)
  exact ⟨as₁, a, as₂, rfl, ha, (append_nil _).symm⟩

end Transducer
