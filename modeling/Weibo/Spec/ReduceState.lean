import Weibo.Model.ValueState
import Weibo.Spec.ListRefinement

/-!
# The state of Reduce in its backend

Both backends are maps from keys to values within a namespace, so a `Reduce` that works on its
backend, call by call, does what `reduceRecord` does on the function from keys to accumulators
(`StoredReduce.reduceRecord_eq`), in whatever order the backend enumerates its keys.

A snapshot passes through JSON, whose object keys are strings of valid UTF-8: the
accumulators come back as they were exactly if their keys are such strings
(`reduce_checkpoint_fidelity`).
-/

namespace Weibo

open Function List SortedMap Transducer

/-! ## Pebble's values -/

theorem valuePrefixBytes_eq (ns : Bytes) :
    valuePrefixBytes ns = (valuePrefix :: 0 :: ns) ++ [0] := rfl

theorem valueUserKey_eq (ns key : Bytes) : valueUserKey ns key = valuePrefixBytes ns ++ key := by
  rw [valuePrefixBytes_eq, append_assoc]
  rfl

theorem valueUserKey_injective (ns : Bytes) : Injective (valueUserKey ns) := by
  intro k k' h
  rw [valueUserKey_eq, valueUserKey_eq] at h
  exact append_cancel_left h

/-- The key of an entry is what follows the prefix. -/
theorem valueUserKeyFromFull_append (ns key : Bytes) :
    valueUserKeyFromFull ns (valuePrefixBytes ns ++ key) = key := by
  rw [valueUserKeyFromFull, length_append]
  split
  · exact drop_left
  · have hlen : key.length = 0 := by omega
    exact (length_eq_zero_iff.mp hlen).symm

/-- The range of a namespace has the keys that start with its prefix. -/
theorem inRange_valuePrefix (ns x : Bytes) :
    inRange (valuePrefixBytes ns) (prefixUpperBound (valuePrefixBytes ns)) x = true ↔
      ∃ key, valueUserKey ns key = x := by
  rw [valuePrefixBytes_eq, inRange_prefix, ← valuePrefixBytes_eq]
  constructor
  · intro ⟨key, hkey⟩
    exact ⟨key, (valueUserKey_eq ns key).trans hkey⟩
  · intro ⟨key, hkey⟩
    exact ⟨key, (valueUserKey_eq ns key).symm.trans hkey⟩

namespace PebbleBackend

variable (p : PebbleBackend) (ns : Bytes)

/-- An entry of a namespace is the value of its key. -/
theorem mem_valueRange {e : Bytes × Bytes} : e ∈ p.valueRange ns ↔
      ∃ key, e.1 = valueUserKey ns key ∧ valueUserKeyFromFull ns e.1 = key ∧
        e.2 ∈ p.getValue ns key := by
  rw [valueRange, SortedMap.range, mem_filter, inRange_valuePrefix]
  constructor
  · rintro ⟨he, key, hkey⟩
    have hfull : valueUserKeyFromFull ns e.1 = key := by
      rw [← hkey, valueUserKey_eq, valueUserKeyFromFull_append]
    have hget : e.2 ∈ p.getValue ns key := by
      rw [getValue, mem_get, hkey]
      exact he
    exact ⟨key, hkey.symm, hfull, hget⟩
  · rintro ⟨key, hkey, -, hget⟩
    rw [getValue, mem_get, ← hkey] at hget
    exact ⟨hget, key, hkey.symm⟩

theorem mem_valueKeys {key : Bytes} : key ∈ p.valueKeys ns ↔ (p.getValue ns key).isSome := by
  rw [valueKeys, mem_map, Option.isSome_iff_exists]
  constructor
  · intro ⟨e, he, hkey⟩
    obtain ⟨key', _, hkey', hget⟩ := (p.mem_valueRange ns).mp he
    rw [← hkey, hkey']
    exact ⟨e.2, hget⟩
  · intro ⟨v, hget⟩
    have hfull : valueUserKeyFromFull ns (valueUserKey ns key) = key := by
      rw [valueUserKey_eq, valueUserKeyFromFull_append]
    exact ⟨(valueUserKey ns key, v), (p.mem_valueRange ns).mpr ⟨key, rfl, hfull, hget⟩, hfull⟩

/-- The keys in a range are distinct, also without the prefix. -/
theorem valueKeys_nodup : (p.valueKeys ns).Nodup := by
  have hnodup : ((p.valueRange ns).map Prod.fst).Nodup :=
    (filter_sublist.map Prod.fst).nodup p.db.keys_nodup
  have hmap : p.valueKeys ns = ((p.valueRange ns).map Prod.fst).map (valueUserKeyFromFull ns) := by
    rw [map_map]
    rfl
  rw [hmap]
  refine hnodup.map_on fun x hx y hy heq => ?_
  obtain ⟨e, he, rfl⟩ := mem_map.mp hx
  obtain ⟨e', he', rfl⟩ := mem_map.mp hy
  obtain ⟨key, hkey, hfull, _⟩ := (p.mem_valueRange ns).mp he
  obtain ⟨key', hkey', hfull', _⟩ := (p.mem_valueRange ns).mp he'
  rw [hkey, hkey', ← hfull, ← hfull', heq]

theorem snapshotAll_lookup (key : Bytes) : (p.snapshotAll ns).lookup key = p.getValue ns key := by
  apply Option.ext
  intro v
  show v ∈ (p.snapshotAll ns).lookup key ↔ v ∈ p.getValue ns key
  rw [snapshotAll, Utf8.mem_lookup_foldl_insert _ _ (p.valueKeys_nodup ns), AList.lookup_empty]
  simp only [Option.not_mem_none, and_false, or_false]
  constructor
  · intro ⟨e, he, hkey, hv⟩
    obtain ⟨key', _, hkey', hget⟩ := (p.mem_valueRange ns).mp he
    rw [← hkey, hkey', ← hv]
    exact hget
  · intro hget
    have hfull : valueUserKeyFromFull ns (valueUserKey ns key) = key := by
      rw [valueUserKey_eq, valueUserKeyFromFull_append]
    exact ⟨(valueUserKey ns key, v), (p.mem_valueRange ns).mpr ⟨key, rfl, hfull, hget⟩, hfull, rfl⟩

/-- Values set one after the other under distinct keys. -/
theorem get_foldl_set {es : List ((_ : Bytes) × Bytes)} (hnodup : es.NodupKeys)
    (db : SortedMap Bytes Bytes) (key : Bytes) :
    (es.foldl (fun db e => db.set (valueUserKey ns e.1) e.2) db).get (valueUserKey ns key) =
      (es.dlookup key).or (db.get (valueUserKey ns key)) := by
  induction es generalizing db with
  | nil => rfl
  | cons e es ih =>
    obtain ⟨k, v⟩ := e
    obtain ⟨hk, hnodup⟩ := nodupKeys_cons.mp hnodup
    rw [foldl_cons, ih hnodup, get_set]
    by_cases heq : key = k
    · subst heq
      rw [if_pos rfl, dlookup_cons_eq, dlookup_eq_none.mpr hk]
      rfl
    · rw [if_neg fun h => heq (valueUserKey_injective ns h), dlookup_cons_ne _ _ heq]

theorem getValue_restoreAll (entries : ValueMap) (key : Bytes) :
    (p.restoreAll ns entries).getValue ns key = entries.lookup key := by
  have hin := (inRange_valuePrefix ns (valueUserKey ns key)).mpr ⟨key, rfl⟩
  rw [getValue, restoreAll, get_foldl_set ns entries.nodupKeys, get_deleteRange,
    if_pos hin, Option.or_none]
  rfl

end PebbleBackend

/-! ## Either backend is a map -/

namespace ValueStore

variable (s : ValueStore) (ns : Bytes)

theorem get_set (key key' value : Bytes) :
    (s.set ns key value).get ns key' = if key' = key then some value else s.get ns key' := by
  cases s with
  | memory s =>
    show (update s ns _ ns).lookup key' = _
    rw [update_self]
    split
    case isTrue h => rw [h, AList.lookup_insert]
    case isFalse h => rw [AList.lookup_insert_ne h]; rfl
  | pebble p =>
    show (p.db.set _ _).get _ = _
    rw [get_set]
    simp only [(valueUserKey_injective ns).eq_iff]
    rfl

theorem get_clear (key key' : Bytes) :
    (s.clear ns key).get ns key' = if key' = key then none else s.get ns key' := by
  cases s with
  | memory s =>
    show (update s ns _ ns).lookup key' = _
    rw [update_self]
    split
    case isTrue h => rw [h, AList.lookup_erase]
    case isFalse h => rw [AList.lookup_erase_ne h]; rfl
  | pebble p =>
    show (p.db.delete _).get _ = _
    rw [get_delete]
    simp only [(valueUserKey_injective ns).eq_iff]
    rfl

theorem mem_keys {key : Bytes} : key ∈ s.keys ns ↔ (s.get ns key).isSome := by
  cases s with
  | memory s => exact AList.lookup_isSome.symm
  | pebble p => exact p.mem_valueKeys ns

theorem snapshotAll_lookup (key : Bytes) : (s.snapshotAll ns).lookup key = s.get ns key := by
  cases s with
  | memory s => rfl
  | pebble p => exact p.snapshotAll_lookup ns key

theorem get_restoreAll (entries : ValueMap) (key : Bytes) :
    (s.restoreAll ns entries).get ns key = entries.lookup key := by
  cases s with
  | memory s =>
    show (update s ns entries ns).lookup key = _
    rw [update_self]
  | pebble p => exact p.getValue_restoreAll ns entries key

/-- Keys cleared one after the other. -/
theorem get_foldl_clear (ks : List Bytes) (key : Bytes) :
    (ks.foldl (fun store k => store.clear ns k) s).get ns key =
      if key ∈ ks then none else s.get ns key := by
  induction ks generalizing s with
  | nil => rw [if_neg not_mem_nil]; rfl
  | cons k ks ih =>
    rw [foldl_cons, ih, get_clear]
    by_cases hk : key = k
    · simp [hk]
    · simp [hk]

end ValueStore

/-! ## Reduce on its backend -/

namespace StoredReduce

/-- The accumulators by state key, and the frontier. -/
def reduceState (s : StoredReduce) : ReduceState :=
  ⟨s.store.get reduceNamespace, s.windowFrontier⟩

/-- Clearing the stale keys that the backend lists drops the closed windows. -/
theorem evictClosedWindows_reduceState (tf : TimeFormat) (order : KeyOrder) (s : StoredReduce) :
    (s.evictClosedWindows tf order).reduceState = Weibo.evictClosedWindows tf s.reduceState := by
  have hentries : (s.evictClosedWindows tf order).store.get reduceNamespace =
      (Weibo.evictClosedWindows tf s.reduceState).entries := by
    funext key
    have hmem : key ∈ (order.1 (s.store.keys reduceNamespace)).filter (s.stale tf) ↔
        (s.store.get reduceNamespace key).isSome ∧ s.stale tf key = true := by
      rw [mem_filter, (order.2 _).mem_iff, ValueStore.mem_keys]
    rw [evictClosedWindows, ValueStore.get_foldl_clear, Weibo.evictClosedWindows]
    simp only [hmem]
    -- a key the backend does not list has no accumulator to drop
    cases hget : s.store.get reduceNamespace key with
    | none => cases hend : stateKeyWindowEnd tf key <;> simp [reduceState, hget]
    | some v =>
      cases hend : stateKeyWindowEnd tf key with
      | none => simp [reduceState, stale, hget, hend]
      | some windowEnd => simp [reduceState, stale, hget, hend]
  exact congrArg (ReduceState.mk · s.windowFrontier) hentries

theorem advanceWindowFrontier_reduceState (tf : TimeFormat) (order : KeyOrder) (s : StoredReduce)
    (r : Record) :
    (s.advanceWindowFrontier tf order r).reduceState =
      Weibo.advanceWindowFrontier tf s.reduceState r := by
  rw [advanceWindowFrontier, Weibo.advanceWindowFrontier]
  cases r.headers.lookup "window_end" with
  | none => rfl
  | some raw =>
    dsimp only
    cases tf.parse raw with
    | none => rfl
    | some windowEnd =>
      dsimp only
      by_cases hlt : s.windowFrontier < windowEnd
      · rw [if_pos hlt, if_pos (show s.reduceState.windowFrontier < windowEnd from hlt)]
        exact evictClosedWindows_reduceState tf order _
      · rw [if_neg hlt, if_neg (show ¬ s.reduceState.windowFrontier < windowEnd from hlt)]

/-- Reduce on its backend is Reduce on the accumulators. -/
theorem reduceRecord_eq (tf : TimeFormat) (fn : ReduceFn) (order : KeyOrder) (s : StoredReduce)
    (r : Record) :
    ((s.reduceRecord tf fn order r).1.reduceState, (s.reduceRecord tf fn order r).2) =
      Weibo.reduceRecord tf fn s.reduceState r := by
  rw [reduceRecord, Weibo.reduceRecord]
  dsimp only
  rw [advanceWindowFrontier_reduceState]
  have hset : (fun key => (s.store.set reduceNamespace (stateKey r)
        ((fn (s.store.get reduceNamespace (stateKey r)) r).getD [])).get reduceNamespace key) =
      update s.reduceState.entries (stateKey r)
        (some ((fn (s.reduceState.entries (stateKey r)) r).getD [])) := by
    funext key
    rw [ValueStore.get_set, update_apply]
    rfl
  exact congrArg
    (fun entries => (Weibo.advanceWindowFrontier tf ⟨entries, s.windowFrontier⟩ r, _)) hset

/-- Reduce on its backend, record by record, each with the order in which an eviction enumerates the
    keys. -/
def transducer (tf : TimeFormat) (fn : ReduceFn) :
    Transducer StoredReduce (KeyOrder × Record) Record :=
  ⟨fun s x => s.reduceRecord tf fn x.1 x.2⟩

/-- On every stream of data records it emits and holds what Reduce on the accumulators does, so
    neither the backend nor those orders can be seen from outside. -/
theorem stored_reduce_outs (tf : TimeFormat) (fn : ReduceFn) (s : StoredReduce)
    (rs : List (KeyOrder × Record)) :
    (transducer tf fn).outs s rs = outs ⟨Weibo.reduceRecord tf fn⟩ s.reduceState (rs.map Prod.snd) ∧
      ((transducer tf fn).state s rs).reduceState =
        state ⟨Weibo.reduceRecord tf fn⟩ s.reduceState (rs.map Prod.snd) := by
  induction rs generalizing s with
  | nil => exact ⟨rfl, rfl⟩
  | cons x rs ih =>
    obtain ⟨houts, hstate⟩ := ih (s.reduceRecord tf fn x.1 x.2).1
    have hstep : step ⟨Weibo.reduceRecord tf fn⟩ s.reduceState x.2 = _ :=
      (reduceRecord_eq tf fn x.1 s x.2).symm
    rw [map_cons, outs, outs, state, state, hstep]
    exact ⟨congrArg _ houts, hstate⟩

end StoredReduce

/-! ## Checkpoints -/

/-- A snapshot of any backend, restored into any backend, gives the accumulators it was taken of
    exactly if all their keys are valid UTF-8. -/
theorem reduce_checkpoint_fidelity (s s' : StoredReduce) :
    (s'.restore s.snapshot).reduceState.entries = s.reduceState.entries ↔
      ∀ k, (s.reduceState.entries k).isSome → Utf8.validUtf8 k = true := by
  have hlookup : ∀ k, (s.store.snapshotAll reduceNamespace).lookup k = s.reduceState.entries k :=
    s.store.snapshotAll_lookup reduceNamespace
  have hrestored : ∀ k, (s'.restore s.snapshot).reduceState.entries k =
      (Utf8.jsonMap (s.store.snapshotAll reduceNamespace)).lookup k :=
    s'.store.get_restoreAll reduceNamespace _
  have hmem : ∀ k, (s.reduceState.entries k).isSome ↔ k ∈ s.store.snapshotAll reduceNamespace := by
    intro k
    rw [← hlookup k]
    exact AList.lookup_isSome
  simp only [hmem]
  rw [← Utf8.lookup_jsonMap_iff, funext_iff]
  simp only [hlookup, hrestored]

/-- Two keys that are not valid UTF-8 come back as one, from either backend into either. -/
theorem reduce_checkpoint_collides :
    let keys : List (Bytes × Bytes) := [([0xff], [1]), ([0xfe], [2])]
    let fill (store : ValueStore) := keys.foldl (fun s e => s.set reduceNamespace e.1 e.2) store
    let stores : List ValueStore := [.memory fun _ => ∅, .pebble ⟨⟨[], .nil⟩, fun _ => 0⟩]
    ∀ store ∈ stores, ∀ store' ∈ stores,
      let s : StoredReduce := ⟨fill store, 0⟩
      let s' : StoredReduce := ⟨store', 0⟩
      (s.store.keys reduceNamespace).length = 2 ∧
        (s'.restore s.snapshot).store.keys reduceNamespace = [[0xef, 0xbf, 0xbd]] ∧
        s.reduceState.entries [0xff] = some [1] ∧ s.reduceState.entries [0xfe] = some [2] ∧
        (s'.restore s.snapshot).reduceState.entries [0xff] = none ∧
        (s'.restore s.snapshot).reduceState.entries [0xfe] = none := by
  simp only [forall_mem_cons, not_mem_nil, false_implies, implies_true, and_true]
  decide

end Weibo
