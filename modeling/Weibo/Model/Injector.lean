import Mathlib
import Weibo.Model.Record

/-!
# Checkpoint identifiers and the barrier injector (`injectBarriers` in `mailer.go`)

`injectBarriers` forwards the source's records, keeps the next offset of every
partition it has seen, and puts a barrier into the stream on every tick of the
checkpoint interval, once on shutdown and once at the end of the stream.  The
offsets are registered under the barrier's id right before the barrier is
forwarded.
-/

namespace Weibo

open List

/-! ## Checkpoint identifiers -/

/-- Why a barrier is injected: a tick of the checkpoint interval, the cancellation of the run, or
    the end of the source stream. -/
inductive BarrierKind where
  | periodic
  | shutdown
  | final
deriving DecidableEq, Repr

/-- The suffix `mkID` is called with. -/
def BarrierKind.suffix : BarrierKind → String
  | .periodic => ""
  | .shutdown => "-shutdown"
  | .final => "-final"

/-- Checkpoint id: the run's start time in nanoseconds and the running number of the checkpoint in
    that run. -/
def mkID (runNonce checkpointID : ℕ) (kind : BarrierKind) : String :=
  "cp-" ++ runNonce.repr ++ "-" ++ checkpointID.repr ++ kind.suffix

/-- The digits of a number end where the first other character stands. -/
private theorem takeWhile_repr_append (n : ℕ) (rest : List Char)
    (h : ∀ c ∈ rest.head?, c.isDigit = false) :
    (n.repr.toList ++ rest).takeWhile Char.isDigit = n.repr.toList := by
  have hdigits : ∀ c ∈ n.repr.toList, c.isDigit = true := by
    intro c hc
    rw [Nat.toList_repr] at hc
    exact Nat.isDigit_of_mem_toDigits (by decide) (by decide) hc
  rw [takeWhile_append_of_pos hdigits]
  cases rest with
  | nil => simp
  | cons c cs => simp [h c rfl]

/-- Equal concatenations of a number and a tail that does not start with a digit have equal numbers
    and equal tails. -/
private theorem repr_append_inj {m n : ℕ} {r s : List Char} (hr : ∀ c ∈ r.head?, c.isDigit = false)
    (hs : ∀ c ∈ s.head?, c.isDigit = false) (h : m.repr.toList ++ r = n.repr.toList ++ s) : m = n ∧ r = s := by
  have hmn : m.repr.toList = n.repr.toList := by
    rw [← takeWhile_repr_append m r hr, ← takeWhile_repr_append n s hs, h]
  refine ⟨Nat.repr_injective (String.toList_inj.mp hmn), ?_⟩
  rw [hmn] at h
  exact append_cancel_left h

/-- Checkpoint ids never collide, neither in one run nor across runs with different start times. -/
theorem mkID_injective {a b i j : ℕ} {k l : BarrierKind} (h : mkID a i k = mkID b j l) : a = b ∧ i = j ∧ k = l := by
  have hlist := congrArg String.toList h
  simp only [mkID, String.toList_append, append_assoc] at hlist
  have hdash : ∀ (n : ℕ) (kind : BarrierKind),
      ∀ c ∈ (("-" : String).toList ++ (n.repr.toList ++ kind.suffix.toList)).head?,
        c.isDigit = false := by
    intro n kind c hc
    simp at hc
    subst hc; decide
  obtain ⟨hab, htail⟩ := repr_append_inj (hdash i k) (hdash j l)
    (append_cancel_left hlist)
  have hsuffix : ∀ (kind : BarrierKind), ∀ c ∈ kind.suffix.toList.head?, c.isDigit = false := by
    intro kind c hc
    cases kind <;> simp [BarrierKind.suffix] at hc <;> subst hc <;> decide
  obtain ⟨hij, hkl⟩ := repr_append_inj (hsuffix k) (hsuffix l) (append_cancel_left htail)
  refine ⟨hab, hij, ?_⟩
  cases k <;> cases l <;> first | rfl | (exact absurd hkl (by decide))

/-! ## The injector -/

/-- Where `injectBarriers` is: in its select loop, forwarding what is left of the source stream
    after the shutdown barrier, or returned. -/
inductive InjectPhase where
  | running
  | draining
  | done
deriving DecidableEq, Repr

/-- The phase after a barrier of the given kind. Only a tick of the interval leaves the injector in
    its loop. -/
def InjectPhase.after : BarrierKind → InjectPhase
  | .periodic => .running
  | .shutdown => .draining
  | .final => .done

/-- Partition to next offset. `registerAlignedOffsets` stores it as a JSON object keyed by the
    decimal partition number, which `restore` reads back. -/
abbrev Offsets := Int → Option Int

/-- The local state of the injector goroutine. -/
structure Injector where
  runNonce : ℕ
  checkpointID : ℕ
  offsets : Offsets
  phase : InjectPhase

namespace Injector

/-- The injector at the start of a run: it has seen no record. -/
def start (runNonce : ℕ) : Injector := ⟨runNonce, 0, fun _ => none, .running⟩

/-- Advance the position of the record's partition past a data record. -/
def track (inj : Injector) (r : Record) : Injector :=
  if !r.isWatermark && !r.isBarrier then
    { inj with offsets := Function.update inj.offsets r.partition (some (r.offset + 1)) }
  else inj

/-- Count a new checkpoint and move to the phase that follows its barrier. -/
def barrier (inj : Injector) (kind : BarrierKind) : Injector :=
  { inj with checkpointID := inj.checkpointID + 1, phase := .after kind }

/-- The id under which the next barrier of the given kind is injected. -/
def nextID (inj : Injector) (kind : BarrierKind) : String :=
  mkID inj.runNonce (inj.checkpointID + 1) kind

@[simp] theorem track_runNonce (inj : Injector) (r : Record) :
    (inj.track r).runNonce = inj.runNonce := by
  unfold track; split <;> rfl

@[simp] theorem track_checkpointID (inj : Injector) (r : Record) :
    (inj.track r).checkpointID = inj.checkpointID := by
  unfold track; split <;> rfl

/-- Tracking a data record sets its partition's position and no other. -/
theorem track_offsets (inj : Injector) (r : Record) (h : r.isData = true) (p : Int) :
    (inj.track r).offsets p = if p = r.partition then some (r.offset + 1) else inj.offsets p := by
  have h' : (!r.isWatermark && !r.isBarrier) = true := h
  simp [track, h', Function.update_apply]

theorem track_of_not_data (inj : Injector) (r : Record) (h : r.isData = false) :
    inj.track r = inj := by
  have h' : (!r.isWatermark && !r.isBarrier) = false := h
  simp [track, h']

end Injector

/-! ## What the injector has forwarded -/

/-- The offset after the last data record of a partition. -/
def nextForwarded (rs : List Record) (p : Int) : Option Int :=
  (rs.filter fun r => r.isData && r.partition == p).getLast?.map fun r => r.offset + 1

theorem nextForwarded_append_data {rs : List Record} {r : Record} (h : r.isData = true) (p : Int) :
    nextForwarded (rs ++ [r]) p =
      if p = r.partition then some (r.offset + 1) else nextForwarded rs p := by
  unfold nextForwarded
  rw [filter_append]
  by_cases hp : p = r.partition
  · subst hp
    rw [if_pos rfl, filter_cons_of_pos (by simp [h]), filter_nil, getLast?_concat]
    rfl
  · have hne : ¬ r.partition = p := fun heq => hp heq.symm
    rw [if_neg hp, filter_cons_of_neg (by simp [hne]), filter_nil, append_nil]

theorem nextForwarded_append_marker {rs : List Record} {r : Record} (h : r.isData = false)
    (p : Int) : nextForwarded (rs ++ [r]) p = nextForwarded rs p := by
  unfold nextForwarded
  rw [filter_append, filter_cons_of_neg (by simp [h]), filter_nil, append_nil]

/-- The injector's offsets keep up with what it forwards. -/
theorem Injector.track_aligned {inj : Injector} {rs : List Record}
    (h : ∀ p, inj.offsets p = nextForwarded rs p) (r : Record) (p : Int) :
    (inj.track r).offsets p = nextForwarded (rs ++ [r]) p := by
  cases hd : r.isData with
  | false => rw [Injector.track_of_not_data _ _ hd, nextForwarded_append_marker hd, h p]
  | true => rw [Injector.track_offsets _ _ hd, nextForwarded_append_data hd, h p]

end Weibo
