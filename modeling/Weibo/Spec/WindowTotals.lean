import Weibo.Spec.KeyedWindow

/-!
# What a window operator emits in total

If no record is late, it does not matter at which points of the stream the watermarks stand: the
windows that end by the last watermark have fired, each with all its records, and the others are
still buffered. The reference is an operator that buffers the same records and sees no watermark at
all.

Records have to arrive in the order of their timestamps and each of their windows has to end after
them, as tumbling windows, sessions, and sliding windows that leave no gaps do.

## Key results

- `Tracks`: the buffers are those of the reference, without the windows that
  have fired
- `window_total`: what is emitted is what the closed windows of the reference
  emit
-/

namespace Weibo

open List

/-- The end of the window of a backend key. -/
def windowStop (tf : TimeFormat) (k : Bytes) : Int := (parseWindowKey tf k).stop

theorem windowStop_string (tf : TimeFormat) (key : Bytes) (win : Window) :
    windowStop tf ((toWindowKey key win).string tf) = win.stop := by
  rw [windowStop, parseWindowKey_string]
  rfl

/-! ## Closed windows -/

/-- What the windows that end by `wm` emit together. -/
def fired (tf : TimeFormat) (reducer : Option ReduceFn) (ws : WindowBuffers) (wm : Int) :
    Multiset Record :=
  ∑ k ∈ ws.keys.toFinset with windowStop tf k ≤ wm, (fireWindow tf reducer ws k : Multiset Record)

variable {tf : TimeFormat} {ws : WindowBuffers} {assigner : WindowAssigner} {β : Type*} {k : Bytes}

/-- It depends on the windows that have closed. -/
theorem fired_congr (reducer : Option ReduceFn) {ws' : WindowBuffers} {wm : Int}
    (h : ∀ k, windowStop tf k ≤ wm → ws.lookup k = ws'.lookup k) :
    fired tf reducer ws wm = fired tf reducer ws' wm := by
  have hset : (ws.keys.toFinset.filter fun k => windowStop tf k ≤ wm) =
      ws'.keys.toFinset.filter fun k => windowStop tf k ≤ wm := by
    ext k
    simp only [Finset.mem_filter, mem_toFinset, mem_keys_iff]
    constructor
    · rintro ⟨hk, hstop⟩
      exact ⟨h k hstop ▸ hk, hstop⟩
    · rintro ⟨hk, hstop⟩
      exact ⟨(h k hstop).symm ▸ hk, hstop⟩
  rw [fired, fired, hset]
  apply Finset.sum_congr rfl
  intro k hk
  rw [fireWindow_congr tf reducer (h k (Finset.mem_filter.mp hk).2)]

/-- The buffers `ws` are those of `ref` without the windows that end by `wm`. -/
structure Tracks (tf : TimeFormat) (wm : Int) (ref ws : WindowBuffers) : Prop where
  closed : ∀ k, windowStop tf k ≤ wm → ws.lookup k = none
  pending : ∀ k, wm < windowStop tf k → ws.lookup k = ref.lookup k

namespace Tracks

variable {tf : TimeFormat} {wm : Int} {ref ws : WindowBuffers}

theorem empty (tf : TimeFormat) (wm : Int) : Tracks tf wm ∅ ∅ := ⟨fun _ _ => rfl, fun _ _ => rfl⟩

/-- A watermark moves windows from the buffers to what has fired. -/
theorem handleWatermark (h : Tracks tf wm ref ws) (reducer : Option ReduceFn) (order : KeyOrder)
    (m : Record) :
    let r := handleWatermark tf reducer order ⟨ws, wm⟩ m
    Tracks tf r.1.currentWatermark ref r.1.windows ∧
      fired tf reducer ref wm + (r.2 : Multiset Record) =
        fired tf reducer ref r.1.currentWatermark := by
  intro r
  set wm' := max wm m.timestamp with hwm'
  set closed := (order.1 ws.keys).filter fun k => decide (windowStop tf k ≤ wm') with hclosed
  have hr : r = (⟨(fireAll tf reducer closed ws).1, wm'⟩, (fireAll tf reducer closed ws).2) := rfl
  have hmem : ∀ k, k ∈ closed ↔ (ws.lookup k).isSome ∧ windowStop tf k ≤ wm' := by
    intro k
    rw [hclosed, mem_filter, KeyOrder.mem_keys, decide_eq_true_iff]
  rw [hr]
  dsimp only
  refine ⟨⟨?_, ?_⟩, ?_⟩
  · intro k hstop
    rw [fireAll_lookup]
    split
    · rfl
    · rename_i hk
      by_contra hne
      exact hk ((hmem k).mpr ⟨Option.isSome_iff_ne_none.mpr hne, hstop⟩)
  · intro k hstop
    rw [fireAll_lookup, if_neg fun hk => ?_]
    · exact h.pending k (by omega)
    · have := ((hmem k).mp hk).2
      omega
  · -- what fires now are the windows of the reference that end between the two
    have hset : closed.toFinset =
        ref.keys.toFinset.filter fun k => wm < windowStop tf k ∧ windowStop tf k ≤ wm' := by
      ext k
      rw [mem_toFinset, hmem, Finset.mem_filter, mem_toFinset, mem_keys_iff]
      by_cases hstop : wm < windowStop tf k
      · rw [h.pending k hstop]
        exact and_congr_right fun _ => ⟨fun hle => ⟨hstop, hle⟩, And.right⟩
      · rw [h.closed k (by omega)]
        simp [hstop]
    have hsum : ((fireAll tf reducer closed ws).2 : Multiset Record) =
        ∑ k ∈ ref.keys.toFinset with wm < windowStop tf k ∧ windowStop tf k ≤ wm',
          (fireWindow tf reducer ref k : Multiset Record) := by
      rw [fireAll_sum tf reducer ((order.nodup_keys ws).filter _), hset]
      apply Finset.sum_congr rfl
      intro k hk
      rw [fireWindow_congr tf reducer (h.pending k (Finset.mem_filter.mp hk).2.1)]
    have hdisj : Disjoint (ref.keys.toFinset.filter fun k => windowStop tf k ≤ wm)
        (ref.keys.toFinset.filter fun k => wm < windowStop tf k ∧ windowStop tf k ≤ wm') := by
      rw [Finset.disjoint_filter]
      intro k _ hle hlt
      omega
    rw [hsum, fired, fired, ← Finset.sum_union hdisj, ← Finset.filter_or]
    apply Finset.sum_congr _ fun _ _ => rfl
    apply Finset.filter_congr
    intro k _
    omega

/-- A record is buffered in a window that is still open. -/
theorem append (h : Tracks tf wm ref ws) (hk : wm < windowStop tf k) (rs : List Record) : Tracks tf wm (ref.append k rs) (ws.append k rs) := by
  have hall : ws.getAll k = ref.getAll k := getAll_eq_of_lookup (h.pending k hk)
  constructor
  · intro k' hstop
    rw [append_lookup, if_neg fun heq => by rw [heq] at hstop; omega]
    exact h.closed k' hstop
  · intro k' hstop
    rw [append_lookup, append_lookup, hall, h.pending k' hstop]

end Tracks

/-! ## Sessions -/

theorem eraseAll_lookup (ks : List Bytes) (ws : WindowBuffers) (k : Bytes) :
    (ks.foldl (fun ws k => ws.erase k) ws).lookup k = if k ∈ ks then none else ws.lookup k := by
  induction ks generalizing ws with
  | nil => rfl
  | cons k' ks ih =>
    rw [foldl_cons, ih]
    by_cases hk : k = k'
    · subst hk
      rw [AList.lookup_erase, ite_self, if_pos mem_cons_self]
    · rw [AList.lookup_erase_ne hk]
      simp [hk]

theorem mem_overlapping {order : KeyOrder} {key : Bytes} {win : Window} :
    k ∈ overlapping tf order ws key win ↔ (ws.lookup k).isSome ∧ windowRecordKey tf k = key ∧
      win.start < windowStop tf k ∧ (parseWindowKey tf k).start < win.stop := by
  rw [overlapping, mem_filter, KeyOrder.mem_keys]
  simp only [Bool.and_eq_true, beq_iff_eq, decide_eq_true_eq, and_assoc]
  rfl

theorem overlapping_nodup (tf : TimeFormat) (order : KeyOrder) (ws : WindowBuffers) (key : Bytes)
    (win : Window) : (overlapping tf order ws key win).Nodup := (order.nodup_keys ws).filter _

/-- The sessions that a window overlaps become one with it; that may be none. -/
theorem assignToWindow_session (tf : TimeFormat) (hsession : assigner.isSession = true)
    (order : KeyOrder) (ws : WindowBuffers) (key : Bytes) (win : Window) (r : Record) :
    let ks := overlapping tf order ws key win
    assignToWindow tf assigner order ws key win r = (ks.foldl (fun ws k => ws.erase k) ws).append
        ((toWindowKey key ⟨ks.foldl (fun t k => min t (parseWindowKey tf k).start) win.start,
          ks.foldl (fun t k => max t (parseWindowKey tf k).stop) win.stop⟩).string tf)
        (ks.flatMap ws.getAll ++ [r]) := by
  intro ks
  rw [assignToWindow]
  simp only [hsession, if_true]
  split
  · rename_i hnone
    have hks : ks = [] := hnone
    rw [hks]
    rfl
  · rfl

/-- The greatest of some bounds and a first one. -/
theorem foldl_max_spec {α : Type*} [LinearOrder α] (f : β → α) (t : α) (ks : List β) :
    let m := ks.foldl (fun t k => max t (f k)) t
    t ≤ m ∧ (∀ k ∈ ks, f k ≤ m) ∧ (m = t ∨ ∃ k ∈ ks, m = f k) := by
  induction ks generalizing t with
  | nil => exact ⟨le_rfl, by simp, .inl rfl⟩
  | cons k ks ih =>
    obtain ⟨hle, hmem, heq⟩ := ih (max t (f k))
    simp only [foldl_cons, forall_mem_cons, exists_mem_cons_iff]
    refine ⟨le_of_max_le_left hle, ⟨le_of_max_le_right hle, hmem⟩, ?_⟩
    rcases heq with heq | hex
    · rcases max_choice t (f k) with hchoice | hchoice
      · exact .inl (heq.trans hchoice)
      · exact .inr (.inl (heq.trans hchoice))
    · exact .inr (.inr hex)

/-- The least of some bounds and a first one. -/
theorem foldl_min_spec (f : β → Int) (t : Int) (ks : List β) :
    let m := ks.foldl (fun t k => min t (f k)) t
    m ≤ t ∧ (∀ k ∈ ks, m ≤ f k) ∧ (m = t ∨ ∃ k ∈ ks, m = f k) :=
  @foldl_max_spec β Intᵒᵈ _ f t ks

theorem foldl_min_le (f : β → Int) (t : Int) (ks : List β) :
    ks.foldl (fun t k => min t (f k)) t ≤ t := (foldl_min_spec f t ks).1

theorem le_foldl_max (f : β → Int) (t : Int) (ks : List β) :
    t ≤ ks.foldl (fun t k => max t (f k)) t := (foldl_max_spec f t ks).1

variable {rs : List Record} {r : Record}

/-- A record changes at most one buffer, which is that of a window that contains the assigned
    one. -/
theorem assignToWindow_lookup {order : KeyOrder} {key : Bytes} {win : Window}
    (h : (assignToWindow tf assigner order ws key win r).lookup k = some rs) :
    ws.lookup k = some rs ∨ rs ≠ [] ∧
      ∃ win', k = (toWindowKey key win').string tf ∧ win.stop ≤ win'.stop := by
  cases hsession : assigner.isSession with
  | true =>
    rw [assignToWindow_session tf hsession, append_lookup] at h
    split at h
    · rename_i hk
      cases h
      exact .inr ⟨by simp, _, hk, le_foldl_max _ _ _⟩
    · rw [eraseAll_lookup] at h
      split at h
      · simp at h
      · exact .inl h
  | false =>
    simp only [assignToWindow, hsession, Bool.false_eq_true, if_false, if_true, append_lookup] at h
    split at h
    · rename_i hk
      cases h
      exact .inr ⟨by simp, win, hk, le_refl _⟩
    · exact .inl h

/-- Records with valid keys keep the buffers storable. -/
theorem Storable.handleDataRecord
    (h : Storable ws) (order : KeyOrder) (hr : Utf8.validUtf8 r.key = true) :
    Storable (handleDataRecord tf assigner order ws r) := by
  unfold Weibo.handleDataRecord
  generalize assigner.assignWindows r.timestamp = wins
  induction wins generalizing ws with
  | nil => exact h
  | cons win wins ih =>
    apply ih
    intro k rs hlookup
    rcases assignToWindow_lookup hlookup with hold | ⟨hne, win', rfl, -⟩
    · exact h k rs hold
    · exact ⟨hne, by rw [validUtf8_string]; exact hr⟩

/-- Sessions of records that have arrived in order: at most one per key reaches beyond the last
    record. -/
structure Sessions (tf : TimeFormat) (last : Int) (ws : WindowBuffers) : Prop where
  started : ∀ k, (ws.lookup k).isSome → (parseWindowKey tf k).start ≤ last
  single : ∀ k k', (ws.lookup k).isSome → (ws.lookup k').isSome →
    windowRecordKey tf k = windowRecordKey tf k' → last < windowStop tf k →
    last < windowStop tf k' → k = k'

theorem Sessions.mono {last last' : Int} (h : Sessions tf last ws) (hle : last ≤ last') : Sessions tf last' ws where
  started k hk := (h.started k hk).trans hle
  single k k' hk hk' hkey hlt hlt' := h.single k k' hk hk' hkey (by omega) (by omega)

theorem Sessions.empty (tf : TimeFormat) (last : Int) : Sessions tf last ∅ :=
  ⟨fun k hk => absurd hk (by simp), fun k _ hk => absurd hk (by simp)⟩

/-- Two enumerations of at most one key are the same. -/
theorem eq_of_subsingleton {l l' : List β} (hl : l.Nodup) (hl' : l'.Nodup)
    (hmem : ∀ a, a ∈ l ↔ a ∈ l') (hone : ∀ a b, a ∈ l' → b ∈ l' → a = b) : l = l' := by
  have hperm : l.Perm l' := (perm_ext_iff_of_nodup hl hl').mpr hmem
  cases l' with
  | nil => exact perm_nil.mp hperm
  | cons a l' =>
    cases l' with
    | nil => exact perm_singleton.mp hperm
    | cons b l' =>
      have hab := hone a b (by simp) (by simp)
      rw [hab, nodup_cons] at hl'
      exact absurd mem_cons_self hl'.1

section Session

variable {tf : TimeFormat} {assigner : WindowAssigner} {wm last ts stop : Int}
  {ref ws : WindowBuffers}

/-- The session that a record belongs to is still open, so it is also one of the reference. -/
theorem overlapping_eq (h : Tracks tf wm ref ws) (hs : Sessions tf last ref) (hwm : wm ≤ ts)
    (hlast : last ≤ ts) (order order' : KeyOrder) (key : Bytes) :
    overlapping tf order ws key ⟨ts, stop⟩ = overlapping tf order' ref key ⟨ts, stop⟩ := by
  apply eq_of_subsingleton (overlapping_nodup ..) (overlapping_nodup ..)
  · intro k
    rw [mem_overlapping, mem_overlapping]
    by_cases hstop : ts < windowStop tf k
    · rw [h.pending k (by omega)]
    · simp [hstop]
  · intro k k' hk hk'
    obtain ⟨hsome, hkey, hstop, -⟩ := mem_overlapping.mp hk
    obtain ⟨hsome', hkey', hstop', -⟩ := mem_overlapping.mp hk'
    dsimp only at hstop hstop'
    exact hs.single k k' hsome hsome' (hkey.trans hkey'.symm) (by omega) (by omega)

/-- A record joins its session in the buffers as it does in the reference. -/
theorem Tracks.assignToSession (h : Tracks tf wm ref ws) (hs : Sessions tf last ref)
    (hsession : assigner.isSession = true) (hwm : wm ≤ ts) (hlast : last ≤ ts) (hstop : ts < stop)
    (order order' : KeyOrder) (key : Bytes) (r : Record) :
    Tracks tf wm (assignToWindow tf assigner order' ref key ⟨ts, stop⟩ r)
      (assignToWindow tf assigner order ws key ⟨ts, stop⟩ r) := by
  rw [assignToWindow_session tf hsession, assignToWindow_session tf hsession,
    overlapping_eq h hs hwm hlast order order' key]
  dsimp only
  set ks := overlapping tf order' ref key ⟨ts, stop⟩ with hks
  have hopen : ∀ k ∈ ks, wm < windowStop tf k := by
    intro k hk
    have hlt : ts < windowStop tf k := (mem_overlapping.mp hk).2.2.1
    omega
  have hmerged : ks.flatMap ws.getAll = ks.flatMap ref.getAll :=
    flatMap_congr fun k hk => getAll_eq_of_lookup (h.pending k (hopen k hk))
  have herased : Tracks tf wm (ks.foldl (fun ws k => ws.erase k) ref)
      (ks.foldl (fun ws k => ws.erase k) ws) := by
    constructor
    · intro k hk
      rw [eraseAll_lookup, h.closed k hk, ite_self]
    · intro k hk
      rw [eraseAll_lookup, eraseAll_lookup, h.pending k hk]
  rw [hmerged]
  apply herased.append
  rw [windowStop_string]
  have hle := le_foldl_max (fun k => (parseWindowKey tf k).stop) stop ks
  dsimp only at hle ⊢
  omega

/-- Sessions of the reference that have closed stay as they are. -/
theorem assignToSession_closed (hsession : assigner.isSession = true) (hwm : wm ≤ ts)
    (hstop : ts < stop) (order : KeyOrder) (key : Bytes) (r : Record) (hk : windowStop tf k ≤ wm) :
    (assignToWindow tf assigner order ref key ⟨ts, stop⟩ r).lookup k = ref.lookup k := by
  rw [assignToWindow_session tf hsession]
  dsimp only
  have hle := le_foldl_max (fun k => (parseWindowKey tf k).stop) stop
    (overlapping tf order ref key ⟨ts, stop⟩)
  rw [append_lookup, if_neg, eraseAll_lookup, if_neg]
  · intro hmem
    have hlt : ts < windowStop tf k := (mem_overlapping.mp hmem).2.2.1
    omega
  · intro heq
    rw [heq, windowStop_string] at hk
    dsimp only at hk hle
    omega

/-- The record's session is the only one of its key that reaches beyond it. -/
theorem Sessions.assign (hs : Sessions tf last ref) (hsession : assigner.isSession = true)
    (hlast : last ≤ ts) (hstop : ts < stop) (order : KeyOrder) (key : Bytes) (r : Record) :
    Sessions tf ts (assignToWindow tf assigner order ref key ⟨ts, stop⟩ r) := by
  rw [assignToWindow_session tf hsession]
  dsimp only
  set ks := overlapping tf order ref key ⟨ts, stop⟩ with hks
  set start' := ks.foldl (fun t k => min t (parseWindowKey tf k).start) ts with hstart'
  set stop' := ks.foldl (fun t k => max t (parseWindowKey tf k).stop) stop with hstop'
  set new := (toWindowKey key ⟨start', stop'⟩).string tf with hnew
  have hparse : parseWindowKey tf new = toWindowKey key ⟨start', stop'⟩ := by
    rw [hnew, parseWindowKey_string]
  -- besides the record's own session, only those that it does not overlap are left
  have hsome : ∀ k, k ≠ new → (((ks.foldl (fun ws k => ws.erase k) ref).append new
      (ks.flatMap ref.getAll ++ [r])).lookup k).isSome → (ref.lookup k).isSome ∧ k ∉ ks := by
    intro k hk hsome
    rw [append_lookup, if_neg hk, eraseAll_lookup] at hsome
    split at hsome
    · simp at hsome
    · rename_i hnot
      exact ⟨hsome, hnot⟩
  have hother : ∀ k, (ref.lookup k).isSome → k ∉ ks → windowRecordKey tf k = key →
      ¬ ts < windowStop tf k := by
    intro k hk hnot hkey hlt
    have hstarted := hs.started k hk
    exact hnot (mem_overlapping.mpr ⟨hk, hkey, hlt, by show _ < stop; omega⟩)
  have hkeynew : windowRecordKey tf new = key := by
    rw [windowRecordKey, hparse]
    rfl
  constructor
  · intro k hk
    by_cases heq : k = new
    · rw [heq, hparse]
      exact foldl_min_le _ ts ks
    · exact (hs.started k (hsome k heq hk).1).trans hlast
  · intro k k' hk hk' hkey hlt hlt'
    by_cases heq : k = new
    · by_cases heq' : k' = new
      · rw [heq, heq']
      · obtain ⟨hk', hnot⟩ := hsome k' heq' hk'
        rw [heq, hkeynew] at hkey
        exact absurd hlt' (hother k' hk' hnot hkey.symm)
    · obtain ⟨hk, hnot⟩ := hsome k heq hk
      by_cases heq' : k' = new
      · rw [heq', hkeynew] at hkey
        exact absurd hlt (hother k hk hnot hkey)
      · obtain ⟨hk', -⟩ := hsome k' heq' hk'
        exact hs.single k k' hk hk' hkey (by omega) (by omega)

end Session

/-! ## A stream in order -/

/-- The windows of a record end after it, and start with it if they are sessions. -/
structure Fits (assigner : WindowAssigner) (r : Record) : Prop where
  ends : ∀ win ∈ assigner.assignWindows r.timestamp, r.timestamp < win.stop
  session : assigner.isSession = true →
    ∃ stop, assigner.assignWindows r.timestamp = [⟨r.timestamp, stop⟩]

/-- No watermark stands ahead of a record that it is above. -/
def OnTime (rs : List Record) : Prop :=
  ∀ a r b, rs = a ++ r :: b → r.isMarker = false →
    ∀ m ∈ a, m.isWatermark = true → m.timestamp ≤ r.timestamp

theorem OnTime.tail (h : OnTime (r :: rs)) : OnTime rs := by
  intro a x b hsplit hx m hm
  exact h (r :: a) x b (by rw [hsplit]; rfl) hx m (mem_cons_of_mem r hm)

/-- A watermark is at or below the records behind it. -/
theorem OnTime.head {m : Record} (h : OnTime (m :: rs))
    (hm : m.isWatermark = true) (hr : r ∈ rs) (hdata : r.isMarker = false) :
    m.timestamp ≤ r.timestamp := by
  obtain ⟨a, b, rfl⟩ := append_of_mem hr
  exact h (m :: a) r b rfl hdata m mem_cons_self hm

/-- The buffers of an operator that sees no watermark. -/
def buffered (tf : TimeFormat) (assigner : WindowAssigner) (ref : WindowBuffers)
    (rs : List Record) : WindowBuffers :=
  rs.foldl (fun ws r => handleDataRecord tf assigner ⟨id, fun l => List.Perm.refl l⟩ ws r) ref

theorem buffered_append (tf : TimeFormat) (assigner : WindowAssigner) (ref : WindowBuffers)
    (rs rs' : List Record) :
    buffered tf assigner ref (rs ++ rs') = buffered tf assigner (buffered tf assigner ref rs) rs' :=
  foldl_append

section Total

variable {tf : TimeFormat} {assigner : WindowAssigner} {wm last : Int} {ref ws : WindowBuffers}

theorem buffered_storable (tf : TimeFormat) (assigner : WindowAssigner) {ref : WindowBuffers}
    (h : Storable ref) (hrs : ∀ r ∈ rs, Utf8.validUtf8 r.key = true) :
    Storable (buffered tf assigner ref rs) := by
  induction rs generalizing ref with
  | nil => exact h
  | cons r rs ih =>
    obtain ⟨hr, hrs⟩ := forall_mem_cons.mp hrs
    exact ih (h.handleDataRecord _ hr) hrs

/-- A record goes into the same windows as in the reference, none of them closed. -/
theorem Tracks.handleDataRecord (h : Tracks tf wm ref ws) (hfits : Fits assigner r)
    (hwm : wm ≤ r.timestamp) (hlast : last ≤ r.timestamp)
    (hs : assigner.isSession = true → Sessions tf last ref) (order order' : KeyOrder) :
    Tracks tf wm (handleDataRecord tf assigner order' ref r)
        (Weibo.handleDataRecord tf assigner order ws r) ∧ (∀ k, windowStop tf k ≤ wm →
        (Weibo.handleDataRecord tf assigner order' ref r).lookup k = ref.lookup k) ∧
      (assigner.isSession = true →
        Sessions tf r.timestamp (Weibo.handleDataRecord tf assigner order' ref r)) := by
  cases hsession : assigner.isSession with
  | true =>
    obtain ⟨stop, hwins⟩ := hfits.session hsession
    have hstop : r.timestamp < stop := hfits.ends ⟨r.timestamp, stop⟩ (by rw [hwins]; simp)
    simp only [Weibo.handleDataRecord, hwins, foldl_cons, foldl_nil]
    have hs := hs hsession
    refine ⟨h.assignToSession hs hsession hwm hlast hstop order order' r.key (storedRecord r), ?_,
      fun _ => hs.assign hsession hlast hstop order' r.key (storedRecord r)⟩
    intro k hk
    exact assignToSession_closed hsession hwm hstop order' r.key (storedRecord r) hk
  | false =>
    rw [handleDataRecord_of_not_session tf hsession, handleDataRecord_of_not_session tf hsession]
    -- one window after the other
    have hall : ∀ wins : List Window, (∀ win ∈ wins, wm < win.stop) → ∀ ref ws : WindowBuffers,
        Tracks tf wm ref ws →
        Tracks tf wm (wins.foldl (fun ws win =>
            ws.append ((toWindowKey r.key win).string tf) [storedRecord r]) ref)
          (wins.foldl (fun ws win =>
            ws.append ((toWindowKey r.key win).string tf) [storedRecord r]) ws) ∧
        ∀ k, windowStop tf k ≤ wm → (wins.foldl (fun ws win =>
          ws.append ((toWindowKey r.key win).string tf) [storedRecord r]) ref).lookup k =
            ref.lookup k := by
      intro wins
      induction wins with
      | nil => exact fun _ ref ws h => ⟨h, fun _ _ => rfl⟩
      | cons win wins ih =>
        intro hwins ref ws h
        have hwin : wm < windowStop tf ((toWindowKey r.key win).string tf) := by
          rw [windowStop_string]
          exact hwins win mem_cons_self
        obtain ⟨htracks, hclosed⟩ := ih (fun win' hw => hwins win' (mem_cons_of_mem win hw)) _ _
          (h.append hwin [storedRecord r])
        refine ⟨htracks, fun k hk => (hclosed k hk).trans ?_⟩
        rw [append_lookup, if_neg fun heq => by rw [heq] at hk; omega]
    have hopen : ∀ win ∈ assigner.assignWindows r.timestamp, wm < win.stop := by
      intro win hwin
      have hlt := hfits.ends win hwin
      omega
    obtain ⟨htracks, hclosed⟩ := hall _ hopen ref ws h
    exact ⟨htracks, hclosed, fun hfalse => absurd hfalse (by decide)⟩

/-- A reference that has no window that ends by `wm` keeps to that, and to one session per key
    beyond the last record. -/
theorem buffered_open (h : Tracks tf wm ref ref)
    (hs : assigner.isSession = true → Sessions tf last ref)
    (hdata : ∀ r ∈ rs, wm ≤ r.timestamp ∧ last ≤ r.timestamp ∧ Fits assigner r)
    (hsorted : rs.Pairwise fun a b => a.timestamp ≤ b.timestamp) {t : Int}
    (hlast : last ≤ t) (ht : ∀ r ∈ rs, r.timestamp ≤ t) :
    Tracks tf wm (buffered tf assigner ref rs) (buffered tf assigner ref rs) ∧
      (assigner.isSession = true → Sessions tf t (buffered tf assigner ref rs)) := by
  induction rs generalizing last ref with
  | nil => exact ⟨h, fun hsession => (hs hsession).mono hlast⟩
  | cons r rs ih =>
    obtain ⟨hhead, hsorted⟩ := pairwise_cons.mp hsorted
    obtain ⟨hwm, hlast', hfits⟩ := hdata r mem_cons_self
    obtain ⟨htracks, -, hs'⟩ := h.handleDataRecord hfits hwm hlast' hs
      ⟨id, fun l => Perm.refl l⟩ ⟨id, fun l => Perm.refl l⟩
    refine ih htracks hs' ?_ hsorted (ht r mem_cons_self) fun y hy => ht y (mem_cons_of_mem r hy)
    intro y hy
    obtain ⟨hwm', -, hfits'⟩ := hdata y (mem_cons_of_mem r hy)
    exact ⟨hwm', hhead y hy, hfits'⟩

theorem Tracks.congr (h : Tracks tf wm ref ws) {ws' : WindowBuffers}
    (hsame : ∀ k, ws'.lookup k = ws.lookup k) : Tracks tf wm ref ws' where
  closed k hk := (hsame k).trans (h.closed k hk)
  pending k hk := (hsame k).trans (h.pending k hk)

theorem Tracks.storable (h : Tracks tf wm ref ws) (href : Storable ref) : Storable ws := by
  intro k rs hlookup
  by_cases hk : windowStop tf k ≤ wm
  · rw [h.closed k hk] at hlookup
    simp at hlookup
  · exact href k rs ((h.pending k (not_le.mp hk)).symm.trans hlookup)

/-- Between two watermarks no window of the reference ends, so that the buffers may be taken for
    those of either. -/
theorem Tracks.raise (h : Tracks tf wm ref ws) {wm' : Int} (hle : wm ≤ wm')
    (hopen : Tracks tf wm' ref ref) : Tracks tf wm' ref ws where
  closed k hk := by
    by_cases hstop : windowStop tf k ≤ wm
    · exact h.closed k hstop
    · rw [h.pending k (by omega)]
      exact hopen.closed k hk
  pending k hk := h.pending k (by omega)

/-- As long as no window of the reference ends, nothing fires. -/
theorem Tracks.fired_eq_zero (hopen : Tracks tf wm ref ref) (reducer : Option ReduceFn) {wm' : Int}
    (hle : wm' ≤ wm) : fired tf reducer ref wm' = 0 := by
  apply Finset.sum_eq_zero
  intro k hk
  obtain ⟨hmem, hstop⟩ := Finset.mem_filter.mp hk
  rw [mem_toFinset, mem_keys_iff, hopen.closed k (hstop.trans hle)] at hmem
  simp at hmem

/-- A watermark or a record first, then the rest of the stream. -/
theorem total_cons {reducer : Option ReduceFn} {x : KeyOrder × Record}
    {done : List (KeyOrder × Record)} {s s₁ : WindowState} {out : List Record}
    {ref₁ ref' : WindowBuffers}
    (hstep : (windowLoop tf assigner reducer).toTransducer.step s x = (s₁, out))
    (hfirst : fired tf reducer ref s.currentWatermark +
      ((out.filter Record.isData : List Record) : Multiset Record) =
        fired tf reducer ref₁ s₁.currentWatermark)
    (hrest : Tracks tf ((windowLoop tf assigner reducer).toTransducer.state s₁ done).currentWatermark
        ref' ((windowLoop tf assigner reducer).toTransducer.state s₁ done).windows ∧
      fired tf reducer ref₁ s₁.currentWatermark +
        ((((windowLoop tf assigner reducer).toTransducer.outs s₁ done).filter Record.isData :
          List Record) : Multiset Record) =
        fired tf reducer ref'
          ((windowLoop tf assigner reducer).toTransducer.state s₁ done).currentWatermark) :
    Tracks tf ((windowLoop tf assigner reducer).toTransducer.state s (x :: done)).currentWatermark
        ref' ((windowLoop tf assigner reducer).toTransducer.state s (x :: done)).windows ∧
      fired tf reducer ref s.currentWatermark +
        ((((windowLoop tf assigner reducer).toTransducer.outs s (x :: done)).filter Record.isData :
          List Record) : Multiset Record) =
        fired tf reducer ref'
          ((windowLoop tf assigner reducer).toTransducer.state s (x :: done)).currentWatermark := by
  rw [Transducer.state, Transducer.outs, hstep, filter_append, ← Multiset.coe_add,
    ← add_assoc, hfirst]
  exact hrest

/-- On a stream in order, the windows that end by the last watermark have fired with all their
    records, and the others are buffered. -/
theorem window_total (reducer : Option ReduceFn) {done : List (KeyOrder × Record)}
    (h : Tracks tf wm ref ws) (hs : assigner.isSession = true → Sessions tf last ref)
    (hontime : OnTime (done.map Prod.snd))
    (hdata : ∀ r ∈ (done.map Prod.snd).filter Record.isData,
      wm ≤ r.timestamp ∧ last ≤ r.timestamp ∧ Fits assigner r)
    (hsorted : ((done.map Prod.snd).filter Record.isData).Pairwise
      fun a b => a.timestamp ≤ b.timestamp) :
    let loop := (windowLoop tf assigner reducer).toTransducer
    let s' := loop.state ⟨ws, wm⟩ done
    let ref' := buffered tf assigner ref ((done.map Prod.snd).filter Record.isData)
    Tracks tf s'.currentWatermark ref' s'.windows ∧ fired tf reducer ref wm +
          (((loop.outs ⟨ws, wm⟩ done).filter Record.isData : List Record) : Multiset Record) =
        fired tf reducer ref' s'.currentWatermark := by
  induction done generalizing wm last ref ws with
  | nil => exact ⟨h, add_zero _⟩
  | cons x done ih =>
    obtain ⟨order, r⟩ := x
    rw [map_cons] at hontime hdata hsorted ⊢
    dsimp only
    rcases r.kind_cases with ⟨hcut, -, -, hnot⟩ | ⟨hw, -, hnot⟩ | ⟨hr, -, -, -, hd⟩
    · rw [← Bool.not_eq_true] at hnot
      rw [filter_cons_of_neg hnot] at hdata hsorted ⊢
      apply total_cons (windowLoop_step_cut tf assigner reducer ⟨ws, wm⟩ order hcut)
      · rw [filter_cons_of_neg hnot]
        exact add_zero _
      · exact ih h hs hontime.tail hdata hsorted
    · rw [← Bool.not_eq_true] at hnot
      rw [filter_cons_of_neg hnot] at hdata hsorted ⊢
      obtain ⟨htracks, hsum⟩ := h.handleWatermark reducer order r
      apply total_cons (windowLoop_step_watermark tf assigner reducer ⟨ws, wm⟩ order hw)
      · rw [fireAll_isData]
        exact hsum
      · refine ih htracks hs hontime.tail ?_ hsorted
        intro y hy
        obtain ⟨hwm, hlast, hfits⟩ := hdata y hy
        obtain ⟨hmem, hd⟩ := mem_filter.mp hy
        have hle := hontime.head hw hmem (Record.isMarker_eq_false.mpr hd)
        exact ⟨max_le hwm hle, hlast, hfits⟩
    · rw [filter_cons_of_pos hd] at hdata hsorted ⊢
      obtain ⟨hhead, hsorted⟩ := pairwise_cons.mp hsorted
      obtain ⟨hwm, hlast, hfits⟩ := hdata r mem_cons_self
      obtain ⟨htracks, hclosed, hs'⟩ := h.handleDataRecord hfits hwm hlast hs order
        ⟨id, fun l => Perm.refl l⟩
      -- the record is not late
      have hbuffer : windowRecord tf assigner order ⟨ws, wm⟩ r =
          ⟨Weibo.handleDataRecord tf assigner order ws r, wm⟩ :=
        if_neg fun hlate => absurd hlate.2 (by show ¬ r.timestamp < wm; omega)
      have hstep := windowLoop_step_data tf assigner reducer ⟨ws, wm⟩ order hr
      rw [hbuffer] at hstep
      apply total_cons hstep
      · rw [filter_nil]
        exact (add_zero _).trans (fired_congr reducer fun k hk => (hclosed k hk).symm)
      · refine ih htracks hs' hontime.tail ?_ hsorted
        intro y hy
        obtain ⟨hwm', -, hfits'⟩ := hdata y (mem_cons_of_mem r hy)
        exact ⟨hwm', hhead y hy, hfits'⟩

end Total

end Weibo
