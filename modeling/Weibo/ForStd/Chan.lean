import Mathlib.Data.List.Basic

/-!
# Bounded channels

A `Chan` is a queue of limited length between one or several senders and a
receiver; a sender may close it.  A send goes through if the queue has room or
if the receiver stands at the empty channel and takes the element over.  The
latter is the only way through a channel of capacity zero, so programs with
unbuffered channels are covered.
-/

/-- A channel that holds at most `cap` elements. -/
structure Chan (α : Type*) where
  cap : ℕ
  buf : List α
  closed : Bool

namespace Chan

variable {α : Type*} {c c' : Chan α}

/-- A new channel. -/
def make (cap : ℕ) : Chan α := ⟨cap, [], false⟩

/-- The channel with other elements in it. -/
def withBuf (c : Chan α) (buf : List α) : Chan α := { c with buf := buf }

@[simp] theorem withBuf_buf (c : Chan α) (buf : List α) : (c.withBuf buf).buf = buf := rfl

@[simp] theorem withBuf_closed (c : Chan α) (buf : List α) :
    (c.withBuf buf).closed = c.closed := rfl

/-- Whether a send goes through; `waiting` says that the receiver stands at the channel. -/
def Ready (c : Chan α) (waiting : Bool) : Prop :=
  c.buf.length < c.cap ∨ c.buf = [] ∧ waiting = true

instance (c : Chan α) (waiting : Bool) : Decidable (c.Ready waiting) :=
  match h : c.buf with
  | [] => decidable_of_iff (0 < c.cap ∨ waiting = true) (by simp [Ready, h])
  | a :: rest => decidable_of_iff ((a :: rest).length < c.cap) (by simp [Ready, h])

/-- Put an element into the channel, if the send goes through. -/
def send (c : Chan α) (waiting : Bool) (a : α) : Option (Chan α) :=
  if c.Ready waiting then some (c.withBuf (c.buf ++ [a])) else none

/-- Take the next element. At a closed channel without elements the receiver goes on empty-handed;
    at an open one it blocks. -/
def recv (c : Chan α) : Option (Option α × Chan α) :=
  match c.buf with
  | a :: rest => some (some a, c.withBuf rest)
  | [] => if c.closed then some (none, c) else none

/-- Close the channel. -/
def close (c : Chan α) : Chan α := { c with closed := true }

@[simp] theorem close_buf (c : Chan α) : c.close.buf = c.buf := rfl

@[simp] theorem close_closed (c : Chan α) : c.close.closed = true := rfl

theorem send_eq_some {waiting : Bool} {a : α} (h : c.send waiting a = some c') :
    c' = c.withBuf (c.buf ++ [a]) := by
  unfold send at h
  split at h
  · exact (Option.some.inj h).symm
  · simp at h

/-- A send to a receiver that waits at the empty channel goes through. -/
theorem send_isSome_of_waiting (hbuf : c.buf = []) (a : α) :
    (c.send true a).isSome := by
  have hready : c.Ready true := .inr ⟨hbuf, rfl⟩
  rw [send, if_pos hready]
  rfl

theorem recv_eq_some {a : α} (h : c.recv = some (some a, c')) :
    c.buf = a :: c'.buf ∧ c' = c.withBuf c'.buf := by
  revert h
  fun_cases recv c <;> intro h <;> cases h
  exact ⟨‹_›, rfl⟩

theorem recv_eq_none_some (h : c.recv = some (none, c')) :
    c.buf = [] ∧ c.closed = true ∧ c' = c := by
  revert h
  fun_cases recv c <;> intro h <;> cases h
  exact ⟨‹_›, ‹_›, rfl⟩

/-- A receiver blocks only at an open channel without elements. -/
theorem recv_eq_none (h : c.recv = none) : c.buf = [] ∧ c.closed = false := by
  revert h
  fun_cases recv c <;> intro h <;> cases h
  exact ⟨‹_›, by simpa using ‹¬c.closed = true›⟩

end Chan
