import Weibo.ForStd.Run
import Weibo.Model.BarrierSnapshots
import Weibo.Model.Injector

/-!
# What an assembled checkpoint holds

A checkpoint should be assembled from the states delivered at its barrier.  The
bound on the kept checkpoints gets in the way: with ten barriers under way the
tenth evicts one of the others, and its assembly then snapshots live state
(`live_state_assembled`).  As long as no first delivery finds more than eight
checkpoints kept, every assembled checkpoint has what was delivered for it
(`delivered_kept_of_few`).
-/

namespace Weibo

open Function List Option AList

/-! ## State-ref markers -/

section StateDirs

variable {stateRef : StateBytes → Option String} {acc : GoMap StateBytes × GoMap String}

/-- One entry of the snapshots. -/
abbrev SnapEntry := (_ : String) × StateBytes

theorem extractEntry_of_none {e : SnapEntry} (h : stateRef e.2 = none) : extractEntry stateRef acc e = acc := by
  rw [extractEntry, h]

theorem extractEntry_of_some {e : SnapEntry} {ref : String} (h : stateRef e.2 = some ref) :
    extractEntry stateRef acc e = (acc.1.insert e.1 none, acc.2.insert ref e.1) := by
  rw [extractEntry, h]

variable {key : String} {es : List SnapEntry}

/-- An owner without a marker keeps its entry. -/
theorem extract_lookup_of_inline (h : ∀ e ∈ es, e.1 = key → stateRef e.2 = none) :
    (es.foldl (extractEntry stateRef) acc).1.lookup key = acc.1.lookup key := by
  induction es generalizing acc with
  | nil => rfl
  | cons e es ih =>
    rw [foldl_cons, ih fun e' he' => h e' (mem_cons_of_mem _ he')]
    cases hr : stateRef e.2 with
    | none => rw [extractEntry_of_none hr]
    | some ref =>
      have hne : e.1 ≠ key := by
        intro heq
        rw [h e mem_cons_self heq] at hr
        simp at hr
      rw [extractEntry_of_some hr, lookup_insert_ne (Ne.symm hne)]

/-- What has been replaced by nil stays so. -/
theorem extract_lookup_nil (h : acc.1.lookup key = some none) :
    (es.foldl (extractEntry stateRef) acc).1.lookup key = some none := by
  induction es generalizing acc with
  | nil => exact h
  | cons e es ih =>
    rw [foldl_cons]
    apply ih
    cases hr : stateRef e.2 with
    | none => rwa [extractEntry_of_none hr]
    | some ref =>
      rw [extractEntry_of_some hr]
      by_cases he : key = e.1
      · rw [he, lookup_insert]
      · rw [lookup_insert_ne he, h]

/-- A directory that is listed for its owner stays so, as markers name their owners. -/
theorem extract_dirs_keep (hown : ∀ e ∈ es, (stateRef e.2).getD e.1 = e.1)
    (h : acc.2.lookup key = some key) :
    (es.foldl (extractEntry stateRef) acc).2.lookup key = some key := by
  induction es generalizing acc with
  | nil => exact h
  | cons e es ih =>
    rw [foldl_cons]
    apply ih fun e' he' => hown e' (mem_cons_of_mem _ he')
    cases hr : stateRef e.2 with
    | none => rwa [extractEntry_of_none hr]
    | some ref =>
      have href : ref = e.1 := by
        have := hown e mem_cons_self
        rwa [hr] at this
      rw [extractEntry_of_some hr, href]
      by_cases he : key = e.1
      · rw [← he, lookup_insert]
      · rw [lookup_insert_ne he, h]

variable {snapshot : StateBytes}

/-- A marker's owner has no inline state left and its directory is listed. -/
theorem extract_marker (hown : ∀ e ∈ es, (stateRef e.2).getD e.1 = e.1)
    (hmem : ⟨key, snapshot⟩ ∈ es) (hr : stateRef snapshot = some key) :
    (es.foldl (extractEntry stateRef) acc).1.lookup key = some none ∧
      (es.foldl (extractEntry stateRef) acc).2.lookup key = some key := by
  induction es generalizing acc with
  | nil => simp at hmem
  | cons e es ih =>
    have hown' : ∀ e ∈ es, (stateRef e.2).getD e.1 = e.1 :=
      fun e' he' => hown e' (mem_cons_of_mem _ he')
    rw [foldl_cons]
    -- once replaced, later entries do not undo it
    rcases mem_cons.mp hmem with rfl | hmem
    · rw [extractEntry_of_some hr]
      exact ⟨extract_lookup_nil (lookup_insert _), extract_dirs_keep hown' (lookup_insert _)⟩
    · exact ih hown' hmem

variable {snaps : GoMap StateBytes}

/-- An owner's entry in the assembled snapshots. -/
theorem extractStateDirs_keeps {sr : StateRefReader}
    (hown : ∀ e ∈ snaps.entries, (sr.stateRef e.2).getD e.1 = e.1)
    (h : snaps.lookup key = some snapshot) (id : String) (delivered : String → Option StateBytes) :
    SnapshotRun.Keeps sr ⟨id, delivered, (extractStateDirs sr.stateRef snaps).1,
      (extractStateDirs sr.stateRef snaps).2⟩ key snapshot := by
  have hmem : ⟨key, snapshot⟩ ∈ snaps.entries := mem_lookup_iff.mp h
  unfold SnapshotRun.Keeps
  split
  · rename_i hr
    -- inline state: the key has one entry, and it is no marker
    refine (extract_lookup_of_inline ?_).trans h
    intro e he hkey
    have hsnap : snaps.lookup key = some e.2 := by
      rw [← hkey]
      exact mem_lookup_iff.mpr he
    rw [h, some.injEq] at hsnap
    rw [← hsnap, hr]
  · rename_i ref hr
    have href : ref = key := by
      have := hown _ hmem
      rwa [hr] at this
    rw [href] at hr ⊢
    exact extract_marker hown hmem hr

end StateDirs

/-! ## Filling up -/

/-- A delivered snapshot is never replaced by a live one. -/
theorem fillMissing_lookup (live : String → StateBytes) (keys : List String)
    (h : snaps.lookup key = some snapshot) :
    (fillMissing live keys snaps).lookup key = some snapshot := by
  induction keys generalizing snaps with
  | nil => exact h
  | cons k keys ih =>
    apply ih
    show (if (snaps.lookup k).isSome then snaps else snaps.insert k (live k)).lookup key = _
    by_cases hk : (snaps.lookup k).isSome
    · rw [if_pos hk, h]
    · have hne : key ≠ k := by
        rintro rfl
        rw [h] at hk
        exact hk rfl
      rw [if_neg hk, lookup_insert_ne hne, h]

/-- Live snapshots keep to their owners' names as delivered ones do. -/
theorem fillMissing_own {stateRef : StateBytes → Option String} {live : String → StateBytes}
    (hlive : ∀ k, (stateRef (live k)).getD k = k) (keys : List String)
    (h : ∀ k v, snaps.lookup k = some v → (stateRef v).getD k = k) {k : String} {v : StateBytes}
    (hv : (fillMissing live keys snaps).lookup k = some v) : (stateRef v).getD k = k := by
  induction keys generalizing snaps with
  | nil => exact h k v hv
  | cons key keys ih =>
    apply ih _ hv
    intro k' v' hv'
    dsimp only at hv'
    split at hv'
    · exact h k' v' hv'
    · by_cases hk : k' = key
      · rw [hk, lookup_insert, some.injEq] at hv'
        rw [← hv', hk]
        exact hlive key
      · rw [lookup_insert_ne hk] at hv'
        exact h k' v' hv'

namespace SnapshotRun

variable {o : SnapshotOwners} {sr : StateRefReader} {s s' : SnapshotRun}

/-- What is kept for an owner of a checkpoint. -/
def kept (snaps : BarrierSnaps) (id key : String) : Option StateBytes :=
  (snaps.lookup id).bind fun m => m.lookup key

/-- A delivery that evicts nothing adds its own entry and keeps all others. -/
theorem kept_add {snaps : BarrierSnaps} {stale id : String}
    (hfew : snaps.lookup id = none → snaps.keys.length ≤ 8) (id' key' : String) :
    kept (addBarrierSnapshot snaps stale id key snapshot) id' key' =
      if id' = id ∧ key' = key then some snapshot else kept snaps id' key' := by
  -- either way the checkpoint's map gets the new entry
  have hadd : addBarrierSnapshot snaps stale id key snapshot =
      snaps.insert id (((snaps.lookup id).getD ∅).insert key snapshot) := by
    unfold addBarrierSnapshot
    cases hid : snaps.lookup id with
    | some m => rfl
    | none =>
      have hnot : ¬ 8 < snaps.keys.length := Nat.not_lt.mpr (hfew hid)
      simp only [if_neg hnot]
      rfl
  rw [kept, hadd]
  by_cases hi : id' = id
  · subst hi
    rw [lookup_insert, bind_some]
    by_cases hk : key' = key
    · rw [if_pos ⟨rfl, hk⟩, hk, lookup_insert]
    · rw [if_neg fun h => hk h.2, lookup_insert_ne hk, kept]
      cases snaps.lookup id' with
      | none => exact lookup_empty key'
      | some m => rfl
  · rw [if_neg fun h => hi h.1, lookup_insert_ne hi, kept]

/-- Everything delivered for a checkpoint is kept until it is assembled. -/
structure Inv (o : SnapshotOwners) (sr : StateRefReader) (s : SnapshotRun) :
    Prop where
  kept_eq : ∀ id, id ∉ s.collected.map Assembled.id → ∀ key,
    kept s.barrierSnaps id key = s.delivered id key
  delivered_own : ∀ id key v, s.delivered id key = some v → (sr.stateRef v).getD key = key
  live_own : ∀ key, (sr.stateRef (s.live key)).getD key = key
  allKept : AllKept o sr s

theorem inv_initial : Inv o sr initial where
  kept_eq _ _ _ := rfl
  delivered_own _ _ _ h := absurd h (by simp [initial])
  live_own key := by rw [initial, sr.stateRef_nil]; rfl
  allKept a ha := absurd ha (by simp [initial])

theorem inv_deliver (h : Inv o sr s) {id stale : String}
    (hown : (sr.stateRef snapshot).getD key = key)
    (hfew : s.barrierSnaps.lookup id = none → s.barrierSnaps.keys.length ≤ 8) :
    Inv o sr { s with
      barrierSnaps := addBarrierSnapshot s.barrierSnaps stale id key snapshot
      delivered := update s.delivered id (update (s.delivered id) key (some snapshot)) } := by
  -- the history grows by the same entry as the kept map
  have hdel : ∀ id' key', update s.delivered id
      (update (s.delivered id) key (some snapshot)) id' key' =
        if id' = id ∧ key' = key then some snapshot else s.delivered id' key' := by
    intro id' key'
    by_cases hi : id' = id
    · subst hi
      rw [update_self]
      by_cases hk : key' = key
      · rw [if_pos ⟨rfl, hk⟩, hk, update_self]
      · rw [if_neg fun h => hk h.2, update_of_ne hk]
    · rw [if_neg fun h => hi h.1, update_of_ne hi]
  refine ⟨?_, ?_, h.live_own, h.allKept⟩
  · intro id' hid' key'
    show kept (addBarrierSnapshot s.barrierSnaps stale id key snapshot) id' key' =
      update s.delivered id _ id' key'
    rw [kept_add hfew, hdel, h.kept_eq id' hid']
  · intro id' key' v hv
    dsimp only at hv
    rw [hdel] at hv
    split at hv
    · rename_i heq
      cases hv
      rw [heq.2]
      exact hown
    · exact h.delivered_own id' key' v hv

theorem inv_collect (h : Inv o sr s) {id : String} (hid : id ∉ s.collected.map Assembled.id) :
    let r := collectSnapshots o sr.stateRef s.live s.barrierSnaps id
    Inv o sr { s with
      barrierSnaps := r.1
      collected := s.collected ++ [⟨id, s.delivered id, r.2.1, r.2.2⟩] } := by
  intro r
  -- nothing was evicted, so what is kept is what was delivered
  have hkept : ∀ key, ((s.barrierSnaps.lookup id).getD ∅).lookup key = s.delivered id key := by
    intro key
    rw [← h.kept_eq id hid key, kept]
    cases s.barrierSnaps.lookup id with
    | none => exact lookup_empty key
    | some m => rfl
  refine ⟨?_, h.delivered_own, h.live_own, ?_⟩
  · intro id' hid' key
    simp only [map_append, map_cons, map_nil, List.mem_append, mem_singleton, not_or] at hid'
    show kept (s.barrierSnaps.erase id) id' key = _
    rw [kept, lookup_erase_ne hid'.2, ← h.kept_eq id' hid'.1 key, kept]
  · intro a ha hall key hkey snapshot hsnap
    rcases List.mem_append.mp ha with ha | ha
    · exact h.allKept a ha hall key hkey snapshot hsnap
    · -- the checkpoint assembled now: the kept entries win over live ones
      obtain rfl := mem_singleton.mp ha
      have hfilled : (fillMissing s.live o.keys ((s.barrierSnaps.lookup id).getD ∅)).lookup key =
          some snapshot := by
        apply fillMissing_lookup
        rw [hkept key]
        exact hsnap
      apply extractStateDirs_keeps _ hfilled
      intro e he
      apply fillMissing_own h.live_own o.keys _ (mem_lookup_iff.mpr he)
      intro k v hv
      rw [hkept k] at hv
      exact h.delivered_own id k v hv

theorem inv_step (e : Event) (h : Inv o sr s) (hfew : FewKept s e) (hs : step o sr s e = some s') : Inv o sr s' := by
  revert hs
  fun_cases step o sr s e <;> intro hs <;> cases hs
  case case1.refl hguard => exact inv_deliver h hguard.2.2.1 hfew
  case case3.refl key snapshot hown =>
    refine ⟨h.kept_eq, h.delivered_own, ?_, h.allKept⟩
    intro key'
    by_cases hk : key' = key
    · subst hk
      simp only [update_self]
      exact hown
    · simp only [update_of_ne hk]
      exact h.live_own key'
  case case6.refl hid _ => exact inv_collect h hid

/-- As long as no first delivery finds more than eight other checkpoints kept, assembled checkpoints
    have exactly what was delivered for them. -/
theorem delivered_kept_of_few {es : List Event} (hfew : Run.Along (step o sr) FewKept initial es)
    (h : Run.exec (step o sr) initial es = some s) : AllKept o sr s :=
  (Run.exec_invariant_along (fun _ e _ => inv_step e) inv_initial hfew h).allKept

/-- Operators that deliver inline state only. -/
def inlineReader : StateRefReader := ⟨fun _ => none, rfl⟩

/-- One clone delivers, works on, and its checkpoint is assembled. -/
def oneInFlight : List Event :=
  [.deliver "cp-1-1" "worker-0" (some [1]) "", .advance "worker-0" (some [99]), .collect "cp-1-1"]

theorem delivered_kept_of_few_one :
    ∃ s, Run.exec (step ⟨[], 1⟩ inlineReader) initial oneInFlight = some s ∧
      s.collected.length = 1 ∧ AllKept ⟨[], 1⟩ inlineReader s := by
  have hlength : (Run.exec (step ⟨[], 1⟩ inlineReader) initial oneInFlight).map
      (fun s => s.collected.length) = some 1 := by decide
  obtain ⟨s, hs, hlength⟩ := map_eq_some_iff.mp hlength
  exact ⟨s, hs, hlength, delivered_kept_of_few (by decide) hs⟩

/-- One clone delivers for ten barriers; the tenth evicts the first. Then it works on, and the first
    checkpoint is assembled. -/
def tenInFlight : List Event :=
  (List.range 10).map (fun i => Event.deliver (mkID 1 (i + 1) .periodic) "worker-0"
    (some [UInt8.ofNat (i + 1)]) "cp-1-1") ++
  [.advance "worker-0" (some [99]), .collect "cp-1-1"]

/-- The assembled checkpoint holds live state instead of what was delivered. -/
theorem live_state_assembled :
    ∃ s a, Run.exec (step ⟨[], 1⟩ inlineReader) initial tenInFlight = some s ∧
      s.collected = [a] ∧ a.delivered "worker-0" = some (some [1]) ∧
      a.snaps.lookup "worker-0" = some (some [99]) ∧ ¬ AllKept ⟨[], 1⟩ inlineReader s := by
  have hfacts : (Run.exec (step ⟨[], 1⟩ inlineReader) initial tenInFlight).map (fun s =>
      s.collected.map fun a => (a.delivered "worker-0", a.snaps.lookup "worker-0")) =
        some [(some (some [1]), some (some [99]))] := by decide
  obtain ⟨s, hs, hmap⟩ := map_eq_some_iff.mp hfacts
  obtain ⟨a, hcollected, ha⟩ := map_eq_singleton_iff.mp hmap
  obtain ⟨hdelivered, hsnaps⟩ := Prod.mk.inj ha
  refine ⟨s, a, hs, hcollected, hdelivered, hsnaps, ?_⟩
  intro hall
  have hmem : a ∈ s.collected := by rw [hcollected]; exact mem_singleton_self a
  have hkeys : (⟨[], 1⟩ : SnapshotOwners).snapshotters = ["worker-0"] := by decide
  have hkeeps : a.snaps.lookup "worker-0" = some (some [1]) := by
    refine hall a hmem ?_ "worker-0" (by rw [hkeys]; simp) (some [1]) hdelivered
    intro key hkey
    rw [hkeys] at hkey
    rw [mem_singleton.mp hkey, hdelivered]
    rfl
  rw [hsnaps] at hkeeps
  simp at hkeeps

end SnapshotRun

end Weibo
