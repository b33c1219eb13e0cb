import Weibo.Model.KafkaSource

/-!
# Where a Kafka source resumes

After a restore, a source should go on at the restored offsets. In parallel mode it does, as far as
the log still holds the message. In serial mode the restored offsets move no reader: the source goes
on where the broker has its group, which may be ahead (`serial_skips_records`) or behind.

`resumes_iff` says for both modes exactly when the first record is the right
one.
-/

namespace Weibo

open List

namespace KafkaSource

variable (k : KafkaSource) {log : PartitionLog}

theorem toRecord_offset {m : KafkaMessage} {r : Record} (h : k.toRecord m = some r) :
    r.offset = m.offset := (toRecord_eq h).2

/-- In a list that ascends, what the first kept element came from is the least that is kept. -/
theorem exists_least_of_head {α β : Type*} {f : α → Option β} {key : α → Int} {b : β} {l : List α}
    (hl : l.Pairwise fun x y => key x < key y) (hb : (l.filterMap f).head? = some b) :
    ∃ a ∈ l, f a = some b ∧ ∀ a' ∈ l, (f a').isSome → key a ≤ key a' := by
  induction l with
  | nil => simp at hb
  | cons a l ih =>
    obtain ⟨hlt, hl⟩ := pairwise_cons.mp hl
    cases ha : f a with
    | some b' =>
      rw [filterMap_cons_some ha, head?_cons] at hb
      refine ⟨a, mem_cons_self, by rw [ha, hb], ?_⟩
      intro a' ha' _
      cases mem_cons.mp ha' with
      | inl heq => rw [heq]
      | inr hmem => exact Int.le_of_lt (hlt a' hmem)
    | none =>
      rw [filterMap_cons_none ha] at hb
      obtain ⟨a₀, ha₀, hb₀, hall⟩ := ih hl hb
      refine ⟨a₀, mem_cons_of_mem a ha₀, hb₀, ?_⟩
      intro a' ha' hsome
      cases mem_cons.mp ha' with
      | inl heq =>
        -- the head is dropped, so it is not among those kept
        rw [heq, ha] at hsome
        simp at hsome
      | inr hmem => exact hall a' hmem hsome

/-- The first record from a position comes from the first message at or behind it that is not
    dropped. -/
theorem head_delivered {pos : Int} {r : Record}
    (h : ((log.fetchFrom pos).filterMap k.toRecord).head? = some r) :
    ∃ m ∈ log.messages, pos ≤ m.offset ∧ k.toRecord m = some r ∧
      ∀ m' ∈ log.messages, pos ≤ m'.offset → (k.toRecord m').isSome → m.offset ≤ m'.offset := by
  have hsorted : (log.fetchFrom pos).Pairwise fun a b => a.offset < b.offset :=
    log.sorted.sublist filter_sublist
  have hmem : ∀ m, m ∈ log.fetchFrom pos ↔ m ∈ log.messages ∧ pos ≤ m.offset := by
    intro m
    rw [PartitionLog.fetchFrom, mem_filter, decide_eq_true_iff]
  obtain ⟨m, hm, hrec, hall⟩ := exists_least_of_head hsorted h
  obtain ⟨hlog, hpos⟩ := (hmem m).mp hm
  exact ⟨m, hlog, hpos, hrec, fun m' hm' hpos' => hall m' ((hmem m').mpr ⟨hm', hpos'⟩)⟩

/-- Something is delivered unless everything from the position on is dropped. -/
theorem exists_head_of_not_silent {pos : Int} (h : ¬ k.Silent log pos) :
    ∃ r, ((log.fetchFrom pos).filterMap k.toRecord).head? = some r := by
  have hne : (log.fetchFrom pos).filterMap k.toRecord ≠ [] := by
    intro hnil
    apply h
    intro m hm hpos
    apply filterMap_eq_nil_iff.mp hnil m
    rw [PartitionLog.fetchFrom, mem_filter, decide_eq_true_iff]
    exact ⟨hm, hpos⟩
  exact ⟨_, head?_eq_some_head hne⟩

/-- The first record from a position has the given offset exactly if nothing is delivered or that
    offset is reached first. -/
theorem head_offset_iff (log : PartitionLog) (pos offset : Int) :
    (∀ rec ∈ ((log.fetchFrom pos).filterMap k.toRecord).head?, rec.offset = offset) ↔
      k.Silent log pos ∨ k.Reaches log pos offset := by
  constructor
  · intro h
    by_cases hs : k.Silent log pos
    · exact .inl hs
    · right
      obtain ⟨r, hr⟩ := k.exists_head_of_not_silent hs
      obtain ⟨m, hm, hpos, hrec, hall⟩ := k.head_delivered hr
      have hoff : m.offset = offset := by rw [← k.toRecord_offset hrec, h r hr]
      refine ⟨⟨m, hm, hoff, by rw [hrec]; rfl⟩, hoff ▸ hpos, ?_⟩
      intro m' hm' hpos' hsome
      rw [← hoff]
      exact hall m' hm' hpos' hsome
  · intro h rec hrec
    obtain ⟨m, hm, hpos, hm', hall⟩ := k.head_delivered hrec
    have hsome : (k.toRecord m).isSome := by rw [hm']; rfl
    rcases h with hs | ⟨⟨m₀, hm₀, hoff, hsome₀⟩, hle, hleast⟩
    · rw [hs m hm hpos] at hm'
      simp at hm'
    · rw [k.toRecord_offset hm']
      have h₁ : m.offset ≤ offset := hoff ▸ hall m₀ hm₀ (hoff ▸ hle) hsome₀
      have h₂ : offset ≤ m.offset := hleast m hm hpos hsome
      omega

/-- A reader that is put on an offset reaches it first if the log holds it. -/
theorem reaches_position_iff (log : PartitionLog) (offset : Int) :
    k.Reaches log (log.position offset) offset ↔ k.Holds log offset := by
  constructor
  · exact fun h => h.1
  · intro h
    obtain ⟨m, hm, hoff, -⟩ := id h
    have hnonneg : 0 ≤ offset := hoff ▸ log.nonneg m hm
    have hpos : log.position offset = offset := by
      have hfirst : offset ≠ firstOffset := by unfold firstOffset; omega
      have hlast : offset ≠ lastOffset := by unfold lastOffset; omega
      rw [PartitionLog.position, if_neg hfirst, if_neg hlast]
    rw [hpos]
    exact ⟨h, Int.le_refl _, fun m' _ hle _ => hle⟩

/-- In parallel mode the reader of a restored partition is put on its offset. -/
theorem readerOffset_parallel {broker : KafkaBroker} {offsets : Offsets} {p r : Int}
    (hp : k.parallel = true) (hr : offsets p = some r) :
    (k.restoreOffset offsets).readerOffset broker p = r := by
  have hp' : (k.restoreOffset offsets).parallel = true := hp
  have hrestored : (k.restoreOffset offsets).offsets.restoredOffset p = some r := by
    show (offsets p).or _ = some r
    rw [hr]
    rfl
  rw [readerOffset, hp', if_pos rfl, hrestored]
  rfl

/-- In serial mode the restored offsets do not matter. -/
theorem readerOffset_serial (broker : KafkaBroker) (offsets : Offsets) (p : Int)
    (hp : k.parallel = false) :
    (k.restoreOffset offsets).readerOffset broker p =
      (broker.committed p).getD k.startOffset := by
  have hp' : (k.restoreOffset offsets).parallel = false := hp
  rw [readerOffset, hp', if_neg (by decide)]
  rfl

/-- Where one restored partition resumes. -/
theorem partition_resumes_iff {broker : KafkaBroker} {offsets : Offsets} {p r : Int}
    (hr : offsets p = some r) (hlog : broker.log p = some log) :
    (∀ rec ∈ ((k.restoreOffset offsets).delivered broker p).head?, rec.offset = r) ↔
      if k.parallel then k.Silent log (log.position r) ∨ k.Holds log r
      else
        let pos := log.position ((broker.committed p).getD k.startOffset)
        k.Silent log pos ∨ k.Reaches log pos r := by
  rw [delivered, hlog]
  -- restoring changes the offsets only, so messages are mapped as before
  show (∀ rec ∈ ((log.fetchFrom _).filterMap k.toRecord).head?, rec.offset = r) ↔ _
  rw [k.head_offset_iff]
  cases hp : k.parallel with
  | true => rw [k.readerOffset_parallel hp hr, if_pos rfl, k.reaches_position_iff]
  | false => rw [k.readerOffset_serial broker offsets p hp, if_neg (by decide)]

/-- The source resumes at the restored offsets exactly if for each of them nothing is delivered at
    all, or the log still holds the message and, in serial mode, the position of the group leads to
    it. -/
theorem resumes_iff (broker : KafkaBroker) (offsets : Offsets) :
    k.ResumesAt broker offsets ↔
      ∀ p r log, offsets p = some r → broker.log p = some log →
        if k.parallel then k.Silent log (log.position r) ∨ k.Holds log r
        else
          let pos := log.position ((broker.committed p).getD k.startOffset)
          k.Silent log pos ∨ k.Reaches log pos r := by
  constructor
  · intro h p r log hr hlog
    exact (k.partition_resumes_iff hr hlog).mp (h p r hr)
  · intro h p r hr
    cases hlog : broker.log p with
    | none =>
      -- no such partition, nothing is delivered
      intro rec hrec
      rw [delivered, hlog] at hrec
      simp at hrec
    | some log => exact (k.partition_resumes_iff hr hlog).mpr (h p r log hr hlog)

/-- A source of a consumer group without a deserializer. -/
def serialSource : KafkaSource := ⟨false, firstOffset, none, .new⟩

/-- A log of six messages. -/
def sixMessages : PartitionLog where
  first := 0
  endOffset := 6
  messages := [⟨0, 0, [], [], 0, []⟩, ⟨0, 1, [], [], 0, []⟩, ⟨0, 2, [], [], 0, []⟩,
    ⟨0, 3, [], [], 0, []⟩, ⟨0, 4, [], [], 0, []⟩, ⟨0, 5, [], [], 0, []⟩]
  sorted := by decide
  nonneg := by decide

/-- The previous run committed offset 5 eagerly and crashed. -/
def committedAhead : KafkaBroker where
  log _ := some sixMessages
  committed _ := some 5

/-- The checkpoint restores offset 2 and the source goes on at offset 5. -/
theorem serial_skips_records :
    ((serialSource.restoreOffset fun _ => some 2).delivered committedAhead 0).map
        (fun r => r.offset) = [5] ∧
      ¬ serialSource.ResumesAt committedAhead fun _ => some 2 := by
  have hdelivered : ((serialSource.restoreOffset fun _ => some 2).delivered committedAhead 0).map
      (fun r => r.offset) = [5] := by decide
  refine ⟨hdelivered, ?_⟩
  intro h
  obtain ⟨r, hlist, hoff⟩ := map_eq_singleton_iff.mp hdelivered
  have hfirst := h 0 2 rfl r (by rw [hlist]; rfl)
  rw [hoff] at hfirst
  simp at hfirst

end KafkaSource

end Weibo
