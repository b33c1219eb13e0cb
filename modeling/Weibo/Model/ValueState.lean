import Weibo.ForStd.Utf8
import Weibo.Model.ListState
import Weibo.Model.Operator

/-!
# Value state (`state/memory.go`, `state/pebble.go`)

A `ValueState` keeps one value per key, within a namespace. The memory backend keeps the values in
maps, the Pebble backend as entries of its store, under the key

    v 00 <namespace> 00 <key>

`SnapshotAll` copies the values of a namespace into a map, and `RestoreAll` replaces them by those
of a map. `ReduceOperator` keeps its accumulators in the namespace `reduce`; its `Snapshot` writes
the map of `SnapshotAll` as JSON, with the values in base64, and its `Restore` reads it back.

Operations on a closed backend are left out.
-/

namespace Weibo

/-- The values of a namespace by key. -/
abbrev ValueMap := AList fun _ : Bytes => Bytes

/-! ## Memory -/

/-- The values per namespace and key. -/
abbrev MemoryValues := Bytes → ValueMap

namespace MemoryValues

def get (s : MemoryValues) (ns key : Bytes) : Option Bytes := (s ns).lookup key

def set (s : MemoryValues) (ns key value : Bytes) : MemoryValues :=
  Function.update s ns ((s ns).insert key value)

def clear (s : MemoryValues) (ns key : Bytes) : MemoryValues :=
  Function.update s ns ((s ns).erase key)

def keys (s : MemoryValues) (ns : Bytes) : List Bytes := (s ns).keys

def snapshotAll (s : MemoryValues) (ns : Bytes) : ValueMap := s ns

def restoreAll (s : MemoryValues) (ns : Bytes) (entries : ValueMap) : MemoryValues :=
  Function.update s ns entries

end MemoryValues

/-! ## Pebble -/

/-- The byte `v`. -/
def valuePrefix : UInt8 := 0x76

/-- The key of a value. -/
def valueUserKey (ns key : Bytes) : Bytes := valuePrefix :: 0 :: ns ++ 0 :: key

/-- What all values of a namespace start with. -/
def valuePrefixBytes (ns : Bytes) : Bytes := valueUserKey ns []

/-- What is left of an entry's key without the namespace's prefix. -/
def valueUserKeyFromFull (ns fullKey : Bytes) : Bytes :=
  if (valuePrefixBytes ns).length < fullKey.length then fullKey.drop (valuePrefixBytes ns).length
  else []

namespace PebbleBackend

def getValue (p : PebbleBackend) (ns key : Bytes) : Option Bytes := p.db.get (valueUserKey ns key)

def setValue (p : PebbleBackend) (ns key value : Bytes) : PebbleBackend :=
  { p with db := p.db.set (valueUserKey ns key) value }

def clearValue (p : PebbleBackend) (ns key : Bytes) : PebbleBackend :=
  { p with db := p.db.delete (valueUserKey ns key) }

/-- The entries of a namespace. -/
def valueRange (p : PebbleBackend) (ns : Bytes) : List (Bytes × Bytes) :=
  p.db.range (valuePrefixBytes ns) (prefixUpperBound (valuePrefixBytes ns))

def valueKeys (p : PebbleBackend) (ns : Bytes) : List Bytes :=
  (p.valueRange ns).map fun e => valueUserKeyFromFull ns e.1

def snapshotAll (p : PebbleBackend) (ns : Bytes) : ValueMap :=
  (p.valueRange ns).foldl (fun m e => m.insert (valueUserKeyFromFull ns e.1) e.2) ∅

/-- One batch: drop the range of the namespace, then set each value. -/
def restoreAll (p : PebbleBackend) (ns : Bytes) (entries : ValueMap) : PebbleBackend :=
  { p with
    db := entries.entries.foldl (fun db e => db.set (valueUserKey ns e.1) e.2)
      (p.db.deleteRange (valuePrefixBytes ns) (prefixUpperBound (valuePrefixBytes ns))) }

end PebbleBackend

/-! ## Either backend -/

/-- The values of a `StateBackend`. -/
inductive ValueStore where
  | memory (s : MemoryValues)
  | pebble (p : PebbleBackend)

namespace ValueStore

def get : ValueStore → Bytes → Bytes → Option Bytes
  | .memory s, ns, key => s.get ns key
  | .pebble p, ns, key => p.getValue ns key

def set : ValueStore → Bytes → Bytes → Bytes → ValueStore
  | .memory s, ns, key, value => .memory (s.set ns key value)
  | .pebble p, ns, key, value => .pebble (p.setValue ns key value)

def clear : ValueStore → Bytes → Bytes → ValueStore
  | .memory s, ns, key => .memory (s.clear ns key)
  | .pebble p, ns, key => .pebble (p.clearValue ns key)

def keys : ValueStore → Bytes → List Bytes
  | .memory s, ns => s.keys ns
  | .pebble p, ns => p.valueKeys ns

def snapshotAll : ValueStore → Bytes → ValueMap
  | .memory s, ns => s.snapshotAll ns
  | .pebble p, ns => p.snapshotAll ns

def restoreAll : ValueStore → Bytes → ValueMap → ValueStore
  | .memory s, ns, entries => .memory (s.restoreAll ns entries)
  | .pebble p, ns, entries => .pebble (p.restoreAll ns entries)

end ValueStore

/-! ## Calls on a backend -/

/-- A `ValueState`: its namespace and the key set last. -/
structure ValueHandle where
  ns : Bytes
  key : Bytes
deriving DecidableEq

/-- A call on a `ValueState` with its key set. -/
inductive ValueOp where
  | get
  | set (value : Bytes)
  | clear
  | keys
  | snapshotAll
  | restoreAll (entries : ValueMap)

/-- A call of a program that uses values and lists of one backend. -/
inductive StateCall where
  | valueState (ns : Bytes)
  | setKey (h : ℕ) (k : Bytes)
  | value (h : ℕ) (op : ValueOp)
  | list (call : ListCall)

/-- An operation with what its handle is scoped to. -/
inductive StateOp where
  | value (h : ValueHandle) (op : ValueOp)
  | list (h : ListHandle) (op : ListOp)

/-- The namespace of an operation. -/
def StateOp.ns : StateOp → Bytes
  | .value h _ => h.ns
  | .list h _ => h.ns

/-- The operations of a program, with the handles that it has got so far. A new handle has the empty
    key. -/
def stateOps : List ValueHandle → List ListHandle → List StateCall → List StateOp
  | _, _, [] => []
  | vs, ls, .valueState ns :: cs => stateOps (vs ++ [⟨ns, []⟩]) ls cs
  | vs, ls, .setKey h k :: cs => stateOps (vs.modify h fun x => { x with key := k }) ls cs
  | vs, ls, .value h op :: cs =>
    match vs[h]? with
    | some x => .value x op :: stateOps vs ls cs
    | none => stateOps vs ls cs
  | vs, ls, .list (.listState ns) :: cs => stateOps vs (ls ++ [⟨ns, []⟩]) cs
  | vs, ls, .list (.setKey h k) :: cs => stateOps vs (ls.modify h fun x => { x with key := k }) cs
  | vs, ls, .list (.op h op) :: cs =>
    match ls[h]? with
    | some x => .list x op :: stateOps vs ls cs
    | none => stateOps vs ls cs

/-- What an operation returns. `get` is none if there is no value. -/
inductive StateResult where
  | done
  | value (v : Option Bytes)
  | keys (ks : List Bytes)
  | entries (m : ValueMap)
  | list (r : ListResult)
deriving DecidableEq

/-- The operations of a `StateBackend` with states in `σ`. -/
structure StateBackend (σ : Type) where
  get : σ → Bytes → Bytes → Option Bytes
  set : σ → Bytes → Bytes → Bytes → σ
  clear : σ → Bytes → Bytes → σ
  keys : σ → Bytes → List Bytes
  snapshotAll : σ → Bytes → ValueMap
  restoreAll : σ → Bytes → ValueMap → σ
  lists : ListBackend σ

namespace StateBackend

variable {σ : Type} (B : StateBackend σ)

/-- The state after an operation. -/
def step (s : σ) : StateOp → σ
  | .value h (.set value) => B.set s h.ns h.key value
  | .value h .clear => B.clear s h.ns h.key
  | .value h (.restoreAll entries) => B.restoreAll s h.ns entries
  | .value _ .get | .value _ .keys | .value _ .snapshotAll => s
  | .list h op => B.lists.step s (h, op)

/-- What an operation returns. -/
def result (s : σ) : StateOp → StateResult
  | .value h .get => .value (B.get s h.ns h.key)
  | .value h .keys => .keys (B.keys s h.ns)
  | .value h .snapshotAll => .entries (B.snapshotAll s h.ns)
  | .value _ (.set _) | .value _ .clear | .value _ (.restoreAll _) => .done
  | .list h op => .list (B.lists.result s (h, op))

/-- The state after a sequence of operations. -/
def run (s : σ) (ops : List StateOp) : σ := ops.foldl B.step s

/-- What a sequence of operations returns. -/
def results : σ → List StateOp → List StateResult
  | _, [] => []
  | s, op :: ops => B.result s op :: results (B.step s op) ops

end StateBackend

/-- `MemoryBackend`. -/
structure MemoryBackend where
  value : MemoryValues
  list : MemoryLists

def newMemoryBackend : MemoryBackend := ⟨fun _ => ∅, fun _ => ∅⟩

def memoryBackend : StateBackend MemoryBackend where
  get s := s.value.get
  set s ns key value := { s with value := s.value.set ns key value }
  clear s ns key := { s with value := s.value.clear ns key }
  keys s := s.value.keys
  snapshotAll s := s.value.snapshotAll
  restoreAll s ns entries := { s with value := s.value.restoreAll ns entries }
  lists :=
    { append := fun s h value => { s with list := memoryLists.append s.list h value }
      getAll := fun s => memoryLists.getAll s.list
      clear := fun s h => { s with list := memoryLists.clear s.list h }
      keys := fun s => memoryLists.keys s.list }

def pebbleBackend : StateBackend PebbleBackend where
  get := PebbleBackend.getValue
  set := PebbleBackend.setValue
  clear := PebbleBackend.clearValue
  keys := PebbleBackend.valueKeys
  snapshotAll := PebbleBackend.snapshotAll
  restoreAll := PebbleBackend.restoreAll
  lists := pebbleLists

/-! ## Reduce -/

/-- The namespace `reduce`. -/
def reduceNamespace : Bytes := [0x72, 0x65, 0x64, 0x75, 0x63, 0x65]

/-- The backend of a `ReduceOperator` and its frontier. -/
structure StoredReduce where
  store : ValueStore
  windowFrontier : Int

namespace StoredReduce

/-- A state key whose window ended before the frontier. -/
def stale (tf : TimeFormat) (s : StoredReduce) (k : Bytes) : Bool :=
  match stateKeyWindowEnd tf k with
  | some windowEnd => windowEnd < s.windowFrontier
  | none => false

/-- Collect the stale keys in the order the backend enumerates them, then clear each. -/
def evictClosedWindows (tf : TimeFormat) (order : KeyOrder) (s : StoredReduce) : StoredReduce :=
  { s with
    store := ((order.1 (s.store.keys reduceNamespace)).filter (s.stale tf)).foldl
      (fun store k => store.clear reduceNamespace k) s.store }

def advanceWindowFrontier (tf : TimeFormat) (order : KeyOrder) (s : StoredReduce) (r : Record) :
    StoredReduce :=
  match r.headers.lookup "window_end" with
  | none => s
  | some raw =>
    match tf.parse raw with
    | none => s
    | some windowEnd =>
      if s.windowFrontier < windowEnd then
        evictClosedWindows tf order { s with windowFrontier := windowEnd }
      else s

/-- `ReduceOperator.Process` on a data record. -/
def reduceRecord (tf : TimeFormat) (fn : ReduceFn) (order : KeyOrder) (s : StoredReduce)
    (r : Record) : StoredReduce × List Record :=
  let newAccum := (fn (s.store.get reduceNamespace (stateKey r)) r).getD []
  (advanceWindowFrontier tf order
      { s with store := s.store.set reduceNamespace (stateKey r) newAccum } r,
    [{ key := r.key, value := newAccum, timestamp := r.timestamp, offset := r.offset,
       headers := r.headers }])

/-- What `Snapshot` writes, as it is read back. -/
def snapshot (s : StoredReduce) : ValueMap := Utf8.jsonMap (s.store.snapshotAll reduceNamespace)

/-- `Restore` replaces the accumulators; the frontier stays. -/
def restore (s : StoredReduce) (entries : ValueMap) : StoredReduce :=
  { s with store := s.store.restoreAll reduceNamespace entries }

end StoredReduce

end Weibo
