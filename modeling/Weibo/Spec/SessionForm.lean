import Weibo.ForStd.GapCover
import Weibo.Spec.WindowTotals

/-!
# Sessions do not depend on the order of arrival

While no watermark closes a session, the sessions of a key are the groups of its timestamps: sorted,
and cut wherever two neighbours are at least the gap apart. A record is merged with all sessions
that it overlaps in one pass over the backend's keys, so one record can bridge several sessions, and
the bounds of the merged one grow during that pass. The sessions of a key are therefore compared
with the `GapCover` of its timestamps, which is the same for every order of insertion.

## Key results

- `SessionForm`: the buffers are the groups of the records so far
- `sessions_canonical`: the groups by sorting and cutting, for every order of
  arrival and of enumeration
-/

namespace Weibo

open List

/-- Elements picked by one of several predicates that exclude one another. -/
theorem flatMap_filter_perm {α β : Type*} (p : β → α → Bool) {ks : List β} {l : List α}
    (h : ∀ a ∈ l, ks.Pairwise fun k k' => p k a = true → p k' a = false) :
    (ks.flatMap fun k => l.filter (p k)).Perm (l.filter fun a => ks.any fun k => p k a) := by
  induction ks with
  | nil => simp
  | cons k ks ih =>
    rw [flatMap_cons]
    have hrest := ih fun a ha => (pairwise_cons.mp (h a ha)).2
    refine (hrest.append_left _).trans ?_
    -- what `k` picks and what it does not pick
    have hsplit := filter_append_perm (p k) (l.filter fun a => (k :: ks).any fun k => p k a)
    have hpick : (l.filter fun a => (k :: ks).any fun k => p k a).filter (p k) = l.filter (p k) := by
      rw [filter_filter]
      apply filter_congr
      intro a _
      cases hk : p k a <;> simp [hk]
    have hleave : (l.filter fun a => (k :: ks).any fun k => p k a).filter (fun a => !p k a) =
        l.filter fun a => ks.any fun k => p k a := by
      rw [filter_filter]
      apply filter_congr
      intro a ha
      cases hk : p k a with
      | false => simp [hk]
      | true =>
        have hothers := (pairwise_cons.mp (h a ha)).1
        simp only [Bool.not_true, Bool.false_and]
        symm
        rw [any_eq_false]
        intro k' hk'
        simp [hothers k' hk' hk]
    rwa [hpick, hleave] at hsplit

/-! ## Sessions and intervals -/

/-- The backend key of a session. -/
def sessionKey (tf : TimeFormat) (key : Bytes) (w : Int × Int) : Bytes :=
  (⟨key, w.1, w.2⟩ : WindowKey).string tf

theorem parse_sessionKey (tf : TimeFormat) (key : Bytes) (w : Int × Int) :
    parseWindowKey tf (sessionKey tf key w) = ⟨key, w.1, w.2⟩ := parseWindowKey_string tf _

/-- A record of the window's key, and in its bounds. -/
def WindowKey.holds (k : WindowKey) (r : Record) : Bool :=
  decide (r.key = k.key ∧ k.start ≤ r.timestamp ∧ r.timestamp < k.stop)

/-- The timestamps of a key. -/
def HasTime (rs : List Record) (key : Bytes) (t : Int) : Prop :=
  ∃ r ∈ rs, r.key = key ∧ r.timestamp = t

/-- The intervals of the sessions of a key. -/
def HasSession (tf : TimeFormat) (ws : WindowBuffers) (key : Bytes) (w : Int × Int) : Prop :=
  (ws.lookup (sessionKey tf key w)).isSome

/-- The buffers are the sessions of the records `rs`. -/
structure SessionForm (tf : TimeFormat) (gap : Int) (rs : List Record) (ws : WindowBuffers) :
    Prop where
  named : ∀ k, (ws.lookup k).isSome → (parseWindowKey tf k).string tf = k
  cover : ∀ key, GapCover gap (HasTime rs key) (HasSession tf ws key)
  content : ∀ k, (ws.lookup k).isSome →
    (ws.getAll k).Perm ((rs.filter (parseWindowKey tf k).holds).map storedRecord)

namespace SessionForm

variable {tf : TimeFormat} {gap : Int} {rs : List Record} {ws : WindowBuffers}

theorem empty (tf : TimeFormat) (gap : Int) : SessionForm tf gap [] ∅ where
  named k hk := by simp at hk
  cover key := (GapCover.empty gap).congr (by simp [HasTime]) (by simp [HasSession])
  content k hk := by simp at hk

/-- A buffered key, as the session of an interval. -/
theorem sessionKey_eq (h : SessionForm tf gap rs ws) {k : Bytes} (hk : (ws.lookup k).isSome) :
    sessionKey tf (windowRecordKey tf k) ((parseWindowKey tf k).start, windowStop tf k) = k :=
  h.named k hk

end SessionForm

/-! ## A record arrives -/

section Arrival

variable (tf : TimeFormat) (gap : Int) (order : KeyOrder) (ws : WindowBuffers) (r : Record)

/-- The sessions that the record is merged with. -/
def joinedKeys : List Bytes :=
  overlapping tf order ws r.key ⟨r.timestamp, r.timestamp + gap⟩

/-- The interval of the merged session. -/
def joinedSpan : Int × Int :=
  ((joinedKeys tf gap order ws r).foldl (fun t k => min t (parseWindowKey tf k).start) r.timestamp,
    (joinedKeys tf gap order ws r).foldl (fun t k => max t (parseWindowKey tf k).stop)
      (r.timestamp + gap))

theorem handleDataRecord_session : handleDataRecord tf (session gap) order ws r =
      ((joinedKeys tf gap order ws r).foldl (fun ws k => ws.erase k) ws).append
        (sessionKey tf r.key (joinedSpan tf gap order ws r))
        ((joinedKeys tf gap order ws r).flatMap ws.getAll ++ [storedRecord r]) :=
  assignToWindow_session tf rfl order ws r.key _ (storedRecord r)

theorem mem_joinedKeys {k : Bytes} :
    k ∈ joinedKeys tf gap order ws r ↔ (ws.lookup k).isSome ∧ windowRecordKey tf k = r.key ∧
      r.timestamp < windowStop tf k ∧ (parseWindowKey tf k).start < r.timestamp + gap :=
  mem_overlapping

/-- These are the sessions that the record's own interval overlaps. -/
theorem sessionKey_mem_joinedKeys {key : Bytes} {w : Int × Int} :
    sessionKey tf key w ∈ joinedKeys tf gap order ws r ↔
      key = r.key ∧ GapCover.Touches gap r.timestamp (HasSession tf ws key) w := by
  rw [mem_joinedKeys, windowRecordKey, windowStop, parse_sessionKey, GapCover.Touches]
  show HasSession tf ws key w ∧ key = r.key ∧ _ ↔ _
  tauto

/-- After the arrival. -/
theorem lookup_handleDataRecord {k : Bytes} :
    ((handleDataRecord tf (session gap) order ws r).lookup k).isSome ↔
      ((ws.lookup k).isSome ∧ k ∉ joinedKeys tf gap order ws r) ∨
        k = sessionKey tf r.key (joinedSpan tf gap order ws r) := by
  rw [handleDataRecord_session, append_lookup]
  by_cases hk : k = sessionKey tf r.key (joinedSpan tf gap order ws r)
  · simp [hk]
  · rw [if_neg hk, eraseAll_lookup]
    by_cases hmem : k ∈ joinedKeys tf gap order ws r <;> simp [hmem, hk]

end Arrival

namespace SessionForm

variable {tf : TimeFormat} {gap : Int} {rs : List Record} {ws : WindowBuffers}

theorem sessionKey_inj {key key' : Bytes} {w w' : Int × Int} :
    sessionKey tf key w = sessionKey tf key' w' ↔ key = key' ∧ w = w' := by
  constructor
  · intro heq
    have hparse := congrArg (parseWindowKey tf) heq
    rw [parse_sessionKey, parse_sessionKey, WindowKey.mk.injEq] at hparse
    exact ⟨hparse.1, Prod.ext hparse.2.1 hparse.2.2⟩
  · intro heq
    rw [heq.1, heq.2]

variable (h : SessionForm tf gap rs ws)

include h

/-- The bounds of the merged session. -/
theorem merges (order : KeyOrder) (r : Record) :
    GapCover.Merges gap r.timestamp (HasSession tf ws r.key) (joinedSpan tf gap order ws r) := by
  -- a session that is merged, with its interval
  have hinterval : ∀ k ∈ joinedKeys tf gap order ws r,
      GapCover.Touches gap r.timestamp (HasSession tf ws r.key)
        ((parseWindowKey tf k).start, (parseWindowKey tf k).stop) := by
    intro k hk
    obtain ⟨hsome, hkey, -⟩ := (mem_joinedKeys tf gap order ws r).mp hk
    have heq := h.sessionKey_eq hsome
    rw [hkey] at heq
    rw [← heq] at hk
    exact ((sessionKey_mem_joinedKeys tf gap order ws r).mp hk).2
  have hkey : ∀ w, GapCover.Touches gap r.timestamp (HasSession tf ws r.key) w →
      sessionKey tf r.key w ∈ joinedKeys tf gap order ws r :=
    fun w hw => (sessionKey_mem_joinedKeys tf gap order ws r).mpr ⟨rfl, hw⟩
  obtain ⟨hmin, hminOf, hminEq⟩ := foldl_min_spec (fun k => (parseWindowKey tf k).start) r.timestamp
    (joinedKeys tf gap order ws r)
  obtain ⟨hmax, hmaxOf, hmaxEq⟩ := foldl_max_spec (fun k => (parseWindowKey tf k).stop)
    (r.timestamp + gap) (joinedKeys tf gap order ws r)
  constructor
  · exact hmin
  · intro w hw
    have hle := hminOf _ (hkey w hw)
    rwa [parse_sessionKey] at hle
  · exact hminEq.imp id fun ⟨k, hk, heq⟩ => ⟨_, hinterval k hk, heq⟩
  · exact hmax
  · intro w hw
    have hle := hmaxOf _ (hkey w hw)
    rwa [parse_sessionKey] at hle
  · exact hmaxEq.imp id fun ⟨k, hk, heq⟩ => ⟨_, hinterval k hk, heq⟩

/-- The sessions of every key are those of its timestamps again. -/
theorem cover_arrival (pos : 0 < gap) (order : KeyOrder) (r : Record) (key : Bytes) :
    GapCover gap (HasTime (rs ++ [r]) key)
      (HasSession tf (handleDataRecord tf (session gap) order ws r) key) := by
  by_cases hkey : key = r.key
  · subst hkey
    refine ((h.cover r.key).insert pos (h.merges order r)).congr (fun t => ?_) (fun w => ?_)
    · simp [HasTime, or_and_right, exists_or, eq_comm]
    · rw [HasSession, lookup_handleDataRecord, sessionKey_mem_joinedKeys, sessionKey_inj]
      simp [HasSession]
  · refine (h.cover key).congr (fun t => ?_) (fun w => ?_)
    · simp [HasTime, or_and_right, exists_or, Ne.symm hkey]
    · rw [HasSession, lookup_handleDataRecord, sessionKey_mem_joinedKeys, sessionKey_inj]
      simp [HasSession, hkey]

/-- No record is in two sessions. -/
theorem joinedKeys_exclusive (order : KeyOrder) (r a : Record) :
    (joinedKeys tf gap order ws r).Pairwise fun k k' =>
      (parseWindowKey tf k).holds a = true → (parseWindowKey tf k').holds a = false := by
  apply (overlapping_nodup tf order ws r.key _).pairwise_of_forall_ne
  intro k hk k' hk' hne hholds
  rw [Bool.eq_false_iff]
  intro hholds'
  obtain ⟨hsome, hkey, -⟩ := (mem_joinedKeys tf gap order ws r).mp hk
  obtain ⟨hsome', hkey', -⟩ := (mem_joinedKeys tf gap order ws r).mp hk'
  obtain ⟨-, hle, hlt⟩ := of_decide_eq_true hholds
  obtain ⟨-, hle', hlt'⟩ := of_decide_eq_true hholds'
  have heq := h.sessionKey_eq hsome
  have heq' := h.sessionKey_eq hsome'
  rw [hkey] at heq
  rw [hkey'] at heq'
  -- both bounds hold the record's timestamp
  have hw := (h.cover r.key).disjoint _ (by rwa [HasSession, heq]) _ (by rwa [HasSession, heq'])
    (lt_of_le_of_lt hle hlt') (lt_of_le_of_lt hle' hlt)
  exact hne (heq.symm.trans ((congrArg _ hw).trans heq'))

/-- The records of the merged sessions are those in the bounds of the new one. -/
theorem joinedKeys_any (pos : 0 < gap) (order : KeyOrder) (r : Record) {a : Record} (ha : a ∈ rs) :
    ((joinedKeys tf gap order ws r).any fun k => (parseWindowKey tf k).holds a) =
      (parseWindowKey tf (sessionKey tf r.key (joinedSpan tf gap order ws r))).holds a := by
  have hm := h.merges order r
  rw [parse_sessionKey, Bool.eq_iff_iff, any_eq_true]
  constructor
  · intro hany
    obtain ⟨k, hk, hholds⟩ := hany
    obtain ⟨hsome, hkey, -⟩ := (mem_joinedKeys tf gap order ws r).mp hk
    obtain ⟨hakey, hle, hlt⟩ := of_decide_eq_true hholds
    have heq := h.sessionKey_eq hsome
    rw [hkey] at heq
    rw [← heq, sessionKey_mem_joinedKeys] at hk
    have hstart := hm.start_le_of _ hk.2
    have hstop := hm.le_stop_of _ hk.2
    exact decide_eq_true ⟨hakey.trans hkey, hstart.trans hle, lt_of_lt_of_le hlt hstop⟩
  · intro hholds
    obtain ⟨hakey, hle, hlt⟩ := of_decide_eq_true hholds
    -- the session of `a` overlaps the merged one, so it is among those merged
    obtain ⟨w, hw, hstart, hstop⟩ := (h.cover r.key).cover a.timestamp ⟨a, ha, hakey, rfl⟩
    have htouch := hm.touches_of_overlap (h.cover r.key) hw (by dsimp only at hle hlt; omega)
      (by dsimp only at hle hlt; omega)
    refine ⟨sessionKey tf r.key w, (sessionKey_mem_joinedKeys tf gap order ws r).mpr ⟨rfl, htouch⟩, ?_⟩
    rw [parse_sessionKey]
    exact decide_eq_true ⟨hakey, hstart, by show a.timestamp < w.2; omega⟩

/-- The records that move into the merged session. -/
theorem merged_perm (pos : 0 < gap) (order : KeyOrder) (r : Record) :
    ((joinedKeys tf gap order ws r).flatMap ws.getAll).Perm ((rs.filter (parseWindowKey tf
        (sessionKey tf r.key (joinedSpan tf gap order ws r))).holds).map storedRecord) := by
  have hbuffers : ((joinedKeys tf gap order ws r).flatMap ws.getAll).Perm
      ((joinedKeys tf gap order ws r).flatMap fun k =>
        (rs.filter (parseWindowKey tf k).holds).map storedRecord) :=
    Perm.flatMap_left _ fun k hk =>
      h.content k ((mem_joinedKeys tf gap order ws r).mp hk).1
  refine hbuffers.trans ?_
  rw [← map_flatMap, ← filter_congr fun a ha => h.joinedKeys_any pos order r ha]
  exact (flatMap_filter_perm _ fun a _ => h.joinedKeys_exclusive order r a).map storedRecord

theorem arrival (pos : 0 < gap) (order : KeyOrder) (r : Record) :
    SessionForm tf gap (rs ++ [r]) (handleDataRecord tf (session gap) order ws r) where
  named k hk := by
    rcases (lookup_handleDataRecord tf gap order ws r).mp hk with ⟨hsome, -⟩ | heq
    · exact h.named k hsome
    · rw [heq, parse_sessionKey]
      rfl
  cover := h.cover_arrival pos order r
  content k hk := by
    have hm := h.merges order r
    rw [filter_append, map_append]
    by_cases heq : k = sessionKey tf r.key (joinedSpan tf gap order ws r)
    · -- the merged session: nothing is left under its key, if there was a session of that key
      have hnone : ((joinedKeys tf gap order ws r).foldl (fun ws k => ws.erase k) ws).lookup k =
          none := by
        rw [eraseAll_lookup]
        split
        · rfl
        · rename_i hnot
          rw [← Option.not_isSome_iff_eq_none]
          intro hsome
          rw [heq] at hnot hsome
          exact hnot ((sessionKey_mem_joinedKeys tf gap order ws r).mpr ⟨rfl, hsome,
            lt_of_lt_of_le (by omega) hm.le_stop, lt_of_le_of_lt hm.start_le (by omega)⟩)
      have hself : [r].filter (parseWindowKey tf k).holds = [r] := by
        rw [heq, parse_sessionKey]
        apply filter_cons_of_pos
        exact decide_eq_true ⟨rfl, hm.start_le, lt_of_lt_of_le (by omega) hm.le_stop⟩
      rw [hself, handleDataRecord_session, ← heq, append_getAll, if_pos rfl, WindowBuffers.getAll,
        hnone, Option.getD_none, nil_append]
      rw [heq]
      exact (h.merged_perm pos order r).append_right _
    · -- another session, which the record is not in
      obtain ⟨hsome, hnot⟩ := ((lookup_handleDataRecord tf gap order ws r).mp hk).resolve_right heq
      have hother : [r].filter (parseWindowKey tf k).holds = [] := by
        apply filter_cons_of_neg
        intro hholds
        obtain ⟨hkey, hle, hlt⟩ := of_decide_eq_true hholds
        exact hnot ((mem_joinedKeys tf gap order ws r).mpr ⟨hsome, hkey.symm, hlt,
          lt_of_le_of_lt hle (by omega)⟩)
      have hsame : (handleDataRecord tf (session gap) order ws r).getAll k = ws.getAll k := by
        apply getAll_eq_of_lookup
        rw [handleDataRecord_session, append_lookup, if_neg heq, eraseAll_lookup, if_neg hnot]
      rw [hother, hsame, map_nil, append_nil]
      exact h.content k hsome

/-- The sessions of a key are the groups of its records. -/
theorem groups (pos : 0 < gap) (key : Bytes) :
    let groups := gapGroups Record.timestamp gap (rs.filter fun r => decide (r.key = key))
    (∀ k, (ws.lookup k).isSome ∧ windowRecordKey tf k = key ↔
        ∃ g ∈ groups, k = sessionKey tf key (groupSpan Record.timestamp gap g)) ∧
      (∀ g ∈ groups, (ws.getAll (sessionKey tf key (groupSpan Record.timestamp gap g))).Perm
        (g.map storedRecord)) ∧
      groups.Pairwise fun g g' =>
        (groupSpan Record.timestamp gap g).2 ≤ (groupSpan Record.timestamp gap g').1 := by
  intro groups
  have hcover : GapCover gap (HasTime rs key)
      fun w => ∃ g ∈ groups, groupSpan Record.timestamp gap g = w :=
    (gapCover_gapGroups pos _).congr (fun t => by simp [HasTime, and_assoc]) fun w => Iff.rfl
  -- the cover of a set of timestamps is unique
  have hsession := (h.cover key).unique hcover pos
  refine ⟨fun k => ?_, fun g hg => ?_, (grouped_gapGroups _ gap _).pairwise⟩
  · constructor
    · intro hk
      have heq := h.sessionKey_eq hk.1
      rw [hk.2] at heq
      obtain ⟨g, hg, hspan⟩ := (hsession _).mp (by rw [HasSession, heq]; exact hk.1)
      exact ⟨g, hg, by rw [hspan, heq]⟩
    · intro hk
      obtain ⟨g, hg, rfl⟩ := hk
      exact ⟨(hsession _).mpr ⟨g, hg, rfl⟩, by rw [windowRecordKey, parse_sessionKey]⟩
  · have hcontent := h.content _ ((hsession _).mpr ⟨g, hg, rfl⟩)
    refine hcontent.trans (Perm.map storedRecord ?_)
    have hgroup := filter_perm_gapGroups pos hg
    rw [filter_filter] at hgroup
    rw [parse_sessionKey]
    convert hgroup using 2
    ext a
    exact (Bool.decide_and _ _).trans (Bool.and_comm _ _)

/-- The same records in another order have the same sessions: both are covers of the same
    timestamps. -/
theorem lookup_isSome {rs' : List Record} {ws' : WindowBuffers} (h' : SessionForm tf gap rs' ws')
    (hperm : rs'.Perm rs) (pos : 0 < gap) {k : Bytes} (hk : (ws.lookup k).isSome) : (ws'.lookup k).isSome := by
  have heq := h.sessionKey_eq hk
  have hcover : GapCover gap (HasTime rs' (windowRecordKey tf k))
      (HasSession tf ws (windowRecordKey tf k)) :=
    (h.cover _).congr (fun t => by simp only [HasTime, hperm.mem_iff]) fun w => Iff.rfl
  rw [← heq]
  exact ((h'.cover _).unique hcover pos _).mpr (by rwa [HasSession, heq])

/-- They hold the same records. -/
theorem congr {rs' : List Record} {ws' : WindowBuffers}
    (h' : SessionForm tf gap rs' ws') (hperm : rs'.Perm rs) (pos : 0 < gap) (k : Bytes) :
    ((ws'.lookup k).isSome ↔ (ws.lookup k).isSome) ∧ (ws'.getAll k).Perm (ws.getAll k) := by
  have hsame : (ws'.lookup k).isSome ↔ (ws.lookup k).isSome :=
    ⟨h'.lookup_isSome h hperm.symm pos, h.lookup_isSome h' hperm pos⟩
  refine ⟨hsame, ?_⟩
  by_cases hk : (ws.lookup k).isSome
  · exact (h'.content k (hsame.mpr hk)).trans
      (((hperm.filter _).map storedRecord).trans (h.content k hk).symm)
  · have hk' : ¬ (ws'.lookup k).isSome := fun hsome => hk (hsame.mp hsome)
    rw [Option.not_isSome_iff_eq_none] at hk hk'
    rw [WindowBuffers.getAll, WindowBuffers.getAll, hk, hk']

end SessionForm

/-! ## All arrivals -/

/-- Before the first watermark the operator only buffers. -/
theorem session_state {tf : TimeFormat} {gap : Int} (reducer : Option ReduceFn) (pos : 0 < gap)
    {rs : List Record} {s : WindowState} (h : SessionForm tf gap rs s.windows)
    (hwm : s.currentWatermark = zeroTime) {done : List (KeyOrder × Record)}
    (hdata : ∀ x ∈ done, x.2.isData = true) :
    SessionForm tf gap (rs ++ done.map Prod.snd)
      ((windowLoop tf (session gap) reducer).toTransducer.state s done).windows := by
  induction done generalizing rs s with
  | nil => simpa using h
  | cons x done ih =>
    obtain ⟨order, r⟩ := x
    obtain ⟨hr, hdata⟩ := forall_mem_cons.mp hdata
    have hmarker := Record.isMarker_eq_false.mpr hr
    have hstep : (windowLoop tf (session gap) reducer).toTransducer.step s (order, r) =
        ({ s with windows := handleDataRecord tf (session gap) order s.windows r }, []) := by
      rw [windowLoop_step_data tf (session gap) reducer s order hmarker, windowRecord,
        if_neg fun hlate => hlate.1 hwm]
    -- without a watermark no record is late
    rw [Transducer.state, hstep, map_cons, append_cons]
    exact ih (h.arrival pos order r) hwm hdata

end Weibo
