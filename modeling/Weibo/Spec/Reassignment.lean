import Weibo.ForStd.Run
import Weibo.Model.PartitionManager

/-!
# Deliveries across reassignment

One reader delivers the messages of its partition in ascending order. When a partition disappears
and appears again, the manager opens a second reader, and opens it where the run started: at the
restored offset, or at the configured one, not at the offset that the tracker has reached. Nor does
it wait for the first reader, which may still have a record to emit.

Deliveries ascend in every run in which a reader is opened only when the earlier readers of its
partition have returned, and beyond what they delivered.

## Key results

- `ascending_read`, `ascending_manage`: what a step keeps
- `fresh_of_first`: partitions that appear for the first time
- `delivered_ascending`: along every run that opens readers so
-/

namespace Weibo

open List Option PartitionReader

namespace PartitionManager

/-- The partition for which the next `add` opens a reader. -/
def opens (s : PartitionManager) : Option Int :=
  match s.pc with
  | .starting (id :: _) => if (s.running.lookup id).isSome then none else some id
  | _ => none

/-- A reader is opened when all earlier readers of its partition have returned, at a position beyond
    everything that was delivered for the partition. -/
def Fresh (s : PartitionManager) : Event → Prop
  | .add first endOffset => ∀ id ∈ s.opens,
    (∀ r ∈ s.readers, r.partition = id → r.pc.isDone = true) ∧
      ∀ record ∈ s.out, record.partition = id → record.offset < s.position id first endOffset
  | _ => True

instance (s : PartitionManager) : (e : Event) → Decidable (s.Fresh e)
  | .add first endOffset => inferInstanceAs (Decidable (∀ id ∈ s.opens,
    (∀ r ∈ s.readers, r.partition = id → r.pc.isDone = true) ∧
      ∀ record ∈ s.out, record.partition = id → record.offset < s.position id first endOffset))
  | .discover _ | .remove _ | .removed | .interrupt | .finish | .fetch .. | .track _ | .emit _
  | .exit _ | .fail _ => isTrue trivial

end PartitionManager

/-! ## The invariant -/

/-- The least offset that a reader may still deliver. -/
def PartitionReader.due (r : PartitionReader) : Int :=
  match r.pc with
  | .track msg => msg.offset
  | .emit record => record.offset
  | _ => r.next

/-- What a reader has in hand is a message of its partition, before those it reads next. -/
structure PartitionReader.Ok (out : List Record) (r : PartitionReader) : Prop where
  msg : ∀ m, r.pc = .track m → m.partition = r.partition ∧ m.offset < r.next
  record : ∀ m, r.pc = .emit m → m.partition = r.partition ∧ m.offset < r.next
  beyond : ∀ m ∈ out, m.partition = r.partition → m.offset < r.due

/-- Deliveries ascend, and at most one reader of each partition is at work, beyond what was
    delivered. -/
structure Ascending (out : List Record) (readers : List PartitionReader) : Prop where
  sorted : ∀ p, ((out.filter fun r => r.partition = p).map Record.offset).Pairwise (· < ·)
  one : ∀ (i j : ℕ) (r r' : PartitionReader), readers[i]? = some r → readers[j]? = some r' →
    r.partition = r'.partition → r.pc.isDone = false → r'.pc.isDone = false → i = j
  ok : ∀ r ∈ readers, r.pc.isDone = false → r.Ok out
  origin : ∀ m ∈ out, ∃ r ∈ readers, r.partition = m.partition

namespace Ascending

variable {out : List Record} {readers : List PartitionReader} {i : ℕ} {r r' : PartitionReader}

/-- A reader in the list after one of them made a step. -/
theorem getElem?_set_cases {j : ℕ} {q : PartitionReader} (h : (readers.set i r')[j]? = some q) : (j = i ∧ q = r') ∨ (j ≠ i ∧ readers[j]? = some q) := by
  by_cases hj : j = i
  · subst hj
    rw [getElem?_set] at h
    split at h
    · split at h
      · exact .inl ⟨rfl, (some.inj h).symm⟩
      · simp at h
    · exact absurd rfl ‹¬ j = j›
  · rw [getElem?_set_ne (Ne.symm hj)] at h
    exact .inr ⟨hj, h⟩

/-- A step of a reader that delivers at most one record, of its partition and next in order. -/
theorem setReader (h : Ascending out readers) (hi : readers[i]? = some r)
    (hpartition : r'.partition = r.partition) {new : List Record}
    (hlive : r'.pc.isDone = false → r.pc.isDone = false)
    (hnew : new = [] ∨ r.pc.isDone = false ∧
      ∃ m, new = [m] ∧ m.partition = r.partition ∧ m.offset = r.due)
    (hok : r'.pc.isDone = false → r'.Ok (out ++ new)) :
    Ascending (out ++ new) (readers.set i r') := by
  have hmem : r' ∈ readers.set i r' := by
    obtain ⟨hlt, -⟩ := List.getElem?_eq_some_iff.mp hi
    exact mem_set hlt r'
  have horigin : ∀ q ∈ readers, ∃ q' ∈ readers.set i r', q'.partition = q.partition := by
    intro q hq
    obtain ⟨j, hj⟩ := getElem?_of_mem hq
    by_cases hji : j = i
    · subst hji
      obtain rfl := some.inj (hj.symm.trans hi)
      exact ⟨r', hmem, hpartition⟩
    · refine ⟨q, mem_of_getElem? (i := j) ?_, rfl⟩
      rw [getElem?_set_ne (Ne.symm hji)]
      exact hj
  refine ⟨fun p => ?_, fun j k q q' hj hk hpart hq hq' => ?_, fun q hq hqlive => ?_, fun m hm => ?_⟩
  · rw [filter_append, map_append]
    rcases hnew with rfl | ⟨hr, m, rfl, hm, hoffset⟩
    · simpa using h.sorted p
    · by_cases hp : m.partition = p
      · rw [filter_cons_of_pos (by simpa using hp), filter_nil, map_singleton, pairwise_append]
        refine ⟨h.sorted p, pairwise_singleton _ _, fun a ha b hb => ?_⟩
        obtain ⟨m', hm', rfl⟩ := mem_map.mp ha
        obtain ⟨hmem, hp'⟩ := mem_filter.mp hm'
        rw [mem_singleton.mp hb, hoffset]
        exact (h.ok r (mem_of_getElem? hi) hr).beyond m' hmem
          ((of_decide_eq_true hp').trans (hp.symm.trans hm))
      · rw [filter_cons_of_neg (by simpa using hp), filter_nil, map_nil, append_nil]
        exact h.sorted p
  · rcases getElem?_set_cases hj with ⟨rfl, rfl⟩ | ⟨-, hj₁⟩ <;>
      rcases getElem?_set_cases hk with ⟨rfl, rfl⟩ | ⟨-, hk₁⟩
    · rfl
    · exact h.one _ _ r q' hi hk₁ (hpartition.symm.trans hpart) (hlive hq) hq'
    · exact h.one _ _ q r hj₁ hi (hpart.trans hpartition) hq (hlive hq')
    · exact h.one _ _ q q' hj₁ hk₁ hpart hq hq'
  · obtain ⟨j, hj⟩ := getElem?_of_mem hq
    rcases getElem?_set_cases hj with ⟨-, rfl⟩ | ⟨hji, hj⟩
    · exact hok hqlive
    · -- another reader at work has another partition
      have hold := h.ok q (mem_of_getElem? hj) hqlive
      refine ⟨hold.msg, hold.record, fun m hm hpart => ?_⟩
      rcases mem_append.mp hm with hm | hm
      · exact hold.beyond m hm hpart
      · rcases hnew with rfl | ⟨hr, m', rfl, hm', -⟩
        · cases hm
        · obtain rfl := mem_singleton.mp hm
          exact absurd (h.one j i q r hj hi (hpart.symm.trans hm') hqlive hr) hji
  · rcases mem_append.mp hm with hm | hm
    · obtain ⟨q, hq, heq⟩ := h.origin m hm
      obtain ⟨q', hq', heq'⟩ := horigin q hq
      exact ⟨q', hq', heq'.trans heq⟩
    · rcases hnew with rfl | ⟨-, m', rfl, hm', -⟩
      · cases hm
      · rw [mem_singleton.mp hm]
        exact ⟨r', hmem, hpartition.trans hm'.symm⟩

/-- The same for a step that delivers nothing. -/
theorem setReader_silent (h : Ascending out readers) (hi : readers[i]? = some r)
    (hpartition : r'.partition = r.partition) (hlive : r'.pc.isDone = false → r.pc.isDone = false)
    (hok : r'.pc.isDone = false → r'.Ok out) : Ascending out (readers.set i r') := by
  have hset := h.setReader hi hpartition hlive (.inl rfl) (by rw [append_nil]; exact hok)
  rw [append_nil] at hset
  exact hset

/-- A reader is opened. -/
theorem append (h : Ascending out readers) {id pos : Int}
    (hdone : ∀ r ∈ readers, r.partition = id → r.pc.isDone = true)
    (hpos : ∀ m ∈ out, m.partition = id → m.offset < pos) :
    Ascending out (readers ++ [⟨id, pos, false, .fetch⟩]) := by
  have hcases : ∀ {j : ℕ} {q : PartitionReader},
      (readers ++ [⟨id, pos, false, .fetch⟩])[j]? = some q →
      readers[j]? = some q ∨ j = readers.length ∧ q.partition = id := by
    intro j q hj
    rcases Nat.lt_or_ge j readers.length with hlt | hge
    · rw [getElem?_append_left hlt] at hj
      exact .inl hj
    · rw [getElem?_append_right hge] at hj
      obtain ⟨hlt, heq⟩ := List.getElem?_eq_some_iff.mp hj
      rw [length_singleton] at hlt
      refine .inr ⟨by omega, ?_⟩
      rw [← heq, getElem_singleton]
  refine ⟨h.sorted, fun j k q q' hj hk hpart hq hq' => ?_, fun q hq hqlive => ?_, fun m hm => ?_⟩
  · have hlive : ∀ {j : ℕ} {q : PartitionReader}, readers[j]? = some q → q.pc.isDone = false →
        q.partition ≠ id := by
      intro j q hj hq hid
      rw [hdone q (mem_of_getElem? hj) hid] at hq
      exact Bool.false_ne_true hq.symm
    rcases hcases hj with hj₁ | ⟨rfl, hid⟩ <;> rcases hcases hk with hk₁ | ⟨rfl, hid'⟩
    · exact h.one j k q q' hj₁ hk₁ hpart hq hq'
    · exact absurd (hpart.trans hid') (hlive hj₁ hq)
    · exact absurd (hpart.symm.trans hid) (hlive hk₁ hq')
    · rfl
  · rcases mem_append.mp hq with hq | hq
    · exact h.ok q hq hqlive
    · obtain rfl := mem_singleton.mp hq
      exact ⟨fun _ hm => absurd hm ReaderPc.noConfusion, fun _ hm => absurd hm ReaderPc.noConfusion,
        hpos⟩
  · obtain ⟨r, hr, heq⟩ := h.origin m hm
    exact ⟨r, mem_append_left _ hr, heq⟩

end Ascending

/-! ## Steps -/

namespace PartitionManager

variable {s s' : PartitionManager}

/-- A step of a reader. -/
theorem ascending_read (h : Ascending s.out s.readers) {i : ℕ} {r : PartitionReader}
    (hi : s.readers[i]? = some r) {e : Event} (hstep : s.read i r e = some s') :
    Ascending s'.out s'.readers := by
  have hok := h.ok r (mem_of_getElem? hi)
  have hlive : ∀ {pc : ReaderPc}, r.pc = pc → pc.isDone = false → r.pc.isDone = false :=
    fun hpc hdone => hpc ▸ hdone
  have hclosed : Ascending s.out (s.readers.set i { r with pc := .done }) :=
    h.setReader_silent hi rfl (fun hdone => absurd hdone (by simp [ReaderPc.isDone]))
      fun hdone => absurd hdone (by simp [ReaderPc.isDone])
  revert hstep
  fun_cases read s i r e <;> intro hstep <;> cases hstep
  case case1.refl msg hpc hmsg =>
    have hlive := hlive hpc rfl
    have hbeyond := (hok hlive).beyond
    rw [due, hpc] at hbeyond
    refine Ascending.setReader_silent h hi rfl (fun _ => hlive) fun _ => ⟨?_, ?_, ?_⟩
    · intro m hm
      cases hm
      exact ⟨hmsg.1, Int.lt_succ _⟩
    · exact fun m hm => absurd hm ReaderPc.noConfusion
    · exact fun m hm hpart => Int.lt_of_lt_of_le (hbeyond m hm hpart) hmsg.2
  case case4.refl msg hpc pc =>
    have hlive := hlive hpc rfl
    have hbeyond := (hok hlive).beyond
    rw [due, hpc] at hbeyond
    obtain ⟨hpartition, hnext⟩ := (hok hlive).msg msg hpc
    refine Ascending.setReader_silent h hi rfl (fun _ => hlive) fun _ => ?_
    cases hrecord : s.source.toRecord msg with
    | none =>
      refine ⟨?_, ?_, ?_⟩
      · exact fun m hm => absurd hm (by simp [pc, hrecord])
      · exact fun m hm => absurd hm (by simp [pc, hrecord])
      · intro m hm hpart
        simpa [due, pc, hrecord] using Int.lt_trans (hbeyond m hm hpart) hnext
    | some record =>
      obtain ⟨hp, ho⟩ := KafkaSource.toRecord_eq hrecord
      refine ⟨?_, ?_, ?_⟩
      · exact fun m hm => absurd hm (by simp [pc, hrecord])
      · intro m hm
        obtain rfl : record = m := by simpa [pc, hrecord] using hm
        rw [hp, ho]
        exact ⟨hpartition, hnext⟩
      · intro m hm hpart
        simpa [due, pc, hrecord, ho] using hbeyond m hm hpart
  case case6.refl record hpc =>
    have hlive := hlive hpc rfl
    have hbeyond := (hok hlive).beyond
    obtain ⟨hpartition, hnext⟩ := (hok hlive).record record hpc
    have hdue : record.offset = r.due := by rw [due, hpc]
    refine Ascending.setReader h hi ?_ (fun _ => hlive)
      (.inr ⟨hlive, record, rfl, hpartition, hdue⟩) fun _ => ⟨?_, ?_, ?_⟩
    · rfl
    · exact fun m hm => absurd hm ReaderPc.noConfusion
    · exact fun m hm => absurd hm ReaderPc.noConfusion
    · intro m hm hpart
      show m.offset < r.next
      rcases mem_append.mp hm with hm | hm
      · exact Int.lt_trans (hbeyond m hm hpart) (hdue ▸ hnext)
      · rw [mem_singleton.mp hm]
        exact hnext
  all_goals exact hclosed

/-- A step of the manager. -/
theorem ascending_manage (h : Ascending s.out s.readers) {e : Event} (hfresh : s.Fresh e)
    (hstep : s.manage e = some s') : Ascending s'.out s'.readers := by
  revert hstep
  fun_cases manage s e <;> intro hstep <;> try cases hstep
  case case4 =>
    obtain ⟨r, hi, rfl⟩ := map_eq_some_iff.mp hstep
    refine Ascending.setReader_silent h hi rfl id fun hlive => ?_
    have hok := h.ok r (mem_of_getElem? hi) hlive
    exact ⟨hok.msg, hok.record, hok.beyond⟩
  case case11.refl id rest hpc hnot =>
    have hopens : s.opens = some id := by rw [opens, hpc]; exact if_neg hnot
    obtain ⟨hdone, hpos⟩ := hfresh id hopens
    exact h.append hdone hpos
  all_goals exact h

theorem ascending_step (h : Ascending s.out s.readers) {e : Event} (hfresh : s.Fresh e)
    (hstep : s.step e = some s') : Ascending s'.out s'.readers := by
  revert hstep
  fun_cases step s e <;> intro hstep
  case case1 => cases hstep; exact h
  case case7 => exact ascending_manage h hfresh hstep
  all_goals
    obtain ⟨r, hi, hread⟩ := bind_eq_some_iff.mp hstep
    exact ascending_read h hi hread

/-- A partition that appears for the first time never breaks the condition. -/
theorem fresh_of_first (h : Ascending s.out s.readers)
    (hfirst : ∀ id ∈ s.opens, ∀ r ∈ s.readers, r.partition ≠ id) (first endOffset : Int) :
    s.Fresh (.add first endOffset) := by
  intro id hid
  refine ⟨fun r hr heq => absurd heq (hfirst id hid r hr), fun record hrecord heq => ?_⟩
  obtain ⟨r, hr, hr'⟩ := h.origin record hrecord
  exact absurd (hr'.trans heq) (hfirst id hid r hr)

theorem ascending_start (source : KafkaSource) (seed : List Int) :
    Ascending (start source seed).out (start source seed).readers :=
  ⟨fun _ => Pairwise.nil, fun _ _ _ _ hi => absurd hi (by simp [start]),
    fun _ hr => absurd hr not_mem_nil, fun _ hm => absurd hm not_mem_nil⟩

/-- For every sequence of discovered partition sets and every interleaving, in which a reader is
    opened only when the earlier readers of its partition have returned and beyond what was
    delivered for it: the offsets delivered for each partition ascend. -/
theorem delivered_ascending (source : KafkaSource) (seed : List Int) (es : List Event)
    (s : PartitionManager) (hrun : Run.exec step (start source seed) es = some s)
    (hfresh : Run.Along step Fresh (start source seed) es) (p : Int) :
    (s.delivered p).Pairwise (· < ·) := by
  have hinv : Ascending s.out s.readers := Run.exec_invariant_along
    (I := fun s => Ascending s.out s.readers) (fun _ _ _ h hf hs => ascending_step h hf hs)
    (ascending_start source seed) hfresh hrun
  exact hinv.sorted p

/-- What happens between two discoveries that both list partition 0: it is missing from the one
    between, and its reader returns. -/
def goneForAWhile : List Event :=
  [.discover [], .remove 0, .removed, .add 0 0, .exit 0, .discover [0], .removed]

/-- A source that starts at the end of the log: the second reader starts at the end as it is
    then. -/
theorem delivered_ascending_latest :
    ∃ s, Run.exec step (start ⟨true, lastOffset, none, .new⟩ [0])
        ([.removed, .add 0 5, .add 0 5, .fetch 0 { partition := 0, offset := 5 }, .track 0,
          .emit 0] ++ goneForAWhile ++
          [.add 0 9, .fetch 1 { partition := 0, offset := 9 }, .track 1, .emit 1]) = some s ∧
      s.delivered 0 = [5, 9] ∧ (s.delivered 0).Pairwise (· < ·) := by
  have hmap : (Run.exec step (start ⟨true, lastOffset, none, .new⟩ [0])
      ([.removed, .add 0 5, .add 0 5, .fetch 0 { partition := 0, offset := 5 }, .track 0,
        .emit 0] ++ goneForAWhile ++
        [.add 0 9, .fetch 1 { partition := 0, offset := 9 }, .track 1, .emit 1])).map
      (fun s => s.delivered 0) = some [5, 9] := by decide
  obtain ⟨s, hs, hdelivered⟩ := map_eq_some_iff.mp hmap
  exact ⟨s, hs, hdelivered, delivered_ascending _ _ _ s hs (by decide) 0⟩

/-- A source that starts at the beginning of the log: the second reader starts there again. -/
theorem redelivered_earliest :
    (Run.exec step (start ⟨true, firstOffset, none, .new⟩ [0])
      ([.removed, .add 0 5, .add 0 5, .fetch 0 { partition := 0, offset := 0 }, .track 0,
        .emit 0, .fetch 0 { partition := 0, offset := 1 }, .track 0, .emit 0] ++ goneForAWhile ++
        [.add 0 5, .fetch 1 { partition := 0, offset := 0 }, .track 1, .emit 1])).map
      (fun s => (s.delivered 0, s.source.offsets.consumed 0)) = some ([0, 1, 0], some 1) := by
  decide

end PartitionManager

end Weibo
