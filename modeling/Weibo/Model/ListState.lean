import Mathlib.Algebra.Group.Nat.Defs
import Weibo.ForStd.SortedMap
import Weibo.Model.Record

/-!
# List state (`state/memory.go`, `state/pebble.go`)

A `ListState` keeps an append-only list of values per key, within a namespace. Its handle scopes the
calls that follow a `SetKey` to that key. The memory backend keeps the lists in maps. The Pebble
backend keeps each value as an entry of its own in a byte-ordered store, under the key

    l 00 <namespace> 00 <key> 00 <sequence number, 8 bytes>

and the next sequence number of each list in memory. `GetAll` and `Clear` work on the range of
entries that start with the list's prefix.

Pebble itself is a sorted map from byte strings to byte strings; `CheckpointTo`
copies it, and a restored or reopened backend starts from such a copy.
Operations on a closed backend are left out.
-/

namespace Weibo

/-! ## The interface -/

/-- A `ListState`: its namespace and the key set last. -/
structure ListHandle where
  ns : Bytes
  key : Bytes
deriving DecidableEq

/-- A call on a handle with its key set. -/
inductive ListOp where
  | append (value : Bytes)
  | getAll
  | clear
  | keys

/-- A call of a program: `ListState`, or `SetKey` or an operation on a handle it got before. -/
inductive ListCall where
  | listState (ns : Bytes)
  | setKey (h : ℕ) (k : Bytes)
  | op (h : ℕ) (op : ListOp)

/-- The operations of a program with what their handles are scoped to. A new handle has the empty
    key. -/
def scopedOps : List ListHandle → List ListCall → List (ListHandle × ListOp)
  | _, [] => []
  | hs, .listState ns :: cs => scopedOps (hs ++ [⟨ns, []⟩]) cs
  | hs, .setKey h k :: cs => scopedOps (hs.modify h fun x => { x with key := k }) cs
  | hs, .op h op :: cs =>
    match hs[h]? with
    | some x => (x, op) :: scopedOps hs cs
    | none => scopedOps hs cs

/-- What an operation returns. A nil slice and an empty one are the same. -/
inductive ListResult where
  | done
  | values (vs : List Bytes)
  | keys (ks : List Bytes)
deriving DecidableEq

/-- The list operations of a `StateBackend` with states in `σ`. -/
structure ListBackend (σ : Type) where
  append : σ → ListHandle → Bytes → σ
  getAll : σ → ListHandle → List Bytes
  clear : σ → ListHandle → σ
  keys : σ → Bytes → List Bytes

namespace ListBackend

variable {σ : Type} (B : ListBackend σ)

/-- The state after an operation. -/
def step (s : σ) (x : ListHandle × ListOp) : σ :=
  match x.2 with
  | .append value => B.append s x.1 value
  | .clear => B.clear s x.1
  | .getAll | .keys => s

/-- What an operation returns. -/
def result (s : σ) (x : ListHandle × ListOp) : ListResult :=
  match x.2 with
  | .append _ | .clear => .done
  | .getAll => .values (B.getAll s x.1)
  | .keys => .keys (B.keys s x.1.ns)

/-- The state after a sequence of operations. -/
def run (s : σ) (ops : List (ListHandle × ListOp)) : σ := ops.foldl B.step s

/-- What a sequence of operations returns. -/
def results : σ → List (ListHandle × ListOp) → List ListResult
  | _, [] => []
  | s, x :: ops => B.result s x :: results (B.step s x) ops

end ListBackend

/-! ## Memory -/

/-- The lists per namespace and key. -/
abbrev MemoryLists := Bytes → AList fun _ : Bytes => List Bytes

/-- The values of a key, none if there is no list. -/
def MemoryLists.getAll (s : MemoryLists) (h : ListHandle) : List Bytes :=
  ((s h.ns).lookup h.key).getD []

/-- `memoryListState`. -/
def memoryLists : ListBackend MemoryLists where
  append s h value :=
    Function.update s h.ns ((s h.ns).insert h.key (MemoryLists.getAll s h ++ [value]))
  getAll := MemoryLists.getAll
  clear s h := Function.update s h.ns ((s h.ns).erase h.key)
  keys s ns := (s ns).keys

/-! ## Pebble -/

/-- The last `n` bytes of a number, the highest first. -/
def bigEndian : ℕ → ℕ → Bytes
  | 0, _ => []
  | n + 1, x => UInt8.ofNat (x / 256 ^ n % 256) :: bigEndian n x

/-- The byte `l`. -/
def listPrefix : UInt8 := 0x6c

/-- The key of a list entry. -/
def listEntryKey (ns key : Bytes) (seq : ℕ) : Bytes :=
  listPrefix :: 0 :: ns ++ 0 :: key ++ 0 :: bigEndian 8 seq

/-- What all entries of a list start with. -/
def listPrefixBytes (ns key : Bytes) : Bytes :=
  (listEntryKey ns key 0).take ((listEntryKey ns key 0).length - 8)

/-- What all list entries of a namespace start with. -/
def listNamespacePrefix (ns : Bytes) : Bytes := listPrefix :: 0 :: ns ++ [0]

/-- The first key beyond a prefix: the last byte that is not `ff` goes up by one, and what follows
    it is dropped. -/
def prefixUpperBound (pre : Bytes) : Bytes :=
  match pre.reverse.dropWhile (· == 0xff) with
  | b :: rest => rest.reverse ++ [b + 1]
  | [] => pre ++ [0xff]

instance : Trans (fun a b : Bytes => a < b) (fun a b : Bytes => a < b) fun a b : Bytes => a < b :=
  inferInstance

instance : Std.Trichotomous fun a b : Bytes => a < b := inferInstance

/-- A store and the next sequence number of each list, a `uint64`. -/
structure PebbleBackend where
  db : SortedMap Bytes Bytes
  seqs : ListHandle → ℕ

namespace PebbleBackend

/-- `OpenPebble` on a directory with a given content. -/
def openPebble (db : SortedMap Bytes Bytes) : PebbleBackend := ⟨db, fun _ => 0⟩

/-- The content of the directory that `CheckpointTo` makes. -/
def checkpointTo (p : PebbleBackend) : SortedMap Bytes Bytes := p.db

/-- Wipe the live directory and start from a checkpoint. -/
def restoreFrom (_p : PebbleBackend) (db : SortedMap Bytes Bytes) : PebbleBackend :=
  ⟨db, fun _ => 0⟩

/-- Close the backend and open its directory again. -/
def reopen (p : PebbleBackend) : PebbleBackend := openPebble p.db

def append (p : PebbleBackend) (h : ListHandle) (value : Bytes) : PebbleBackend where
  db := p.db.set (listEntryKey h.ns h.key (p.seqs h)) value
  seqs := Function.update p.seqs h ((p.seqs h + 1) % 2 ^ 64)

def getAll (p : PebbleBackend) (h : ListHandle) : List Bytes :=
  let pre := listPrefixBytes h.ns h.key
  (p.db.range pre (prefixUpperBound pre)).map Prod.snd

def clear (p : PebbleBackend) (h : ListHandle) : PebbleBackend :=
  let pre := listPrefixBytes h.ns h.key
  { p with db := p.db.deleteRange pre (prefixUpperBound pre) }

/-- The keys of a namespace: what is left of each entry's key without the namespace's prefix and the
    last nine bytes. -/
def keys (p : PebbleBackend) (ns : Bytes) : List Bytes :=
  let pre := listNamespacePrefix ns
  ((p.db.range pre (prefixUpperBound pre)).filterMap fun e =>
    if e.1.length < pre.length + 9 then none
    else some ((e.1.take (e.1.length - 9)).drop pre.length)).eraseDups

end PebbleBackend

/-- `pebbleListState`. -/
def pebbleLists : ListBackend PebbleBackend where
  append := PebbleBackend.append
  getAll := PebbleBackend.getAll
  clear := PebbleBackend.clear
  keys := PebbleBackend.keys

end Weibo
