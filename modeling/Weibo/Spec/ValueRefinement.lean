import Weibo.Spec.ReduceState

/-!
# Values in Pebble and in memory

All namespaces of a Pebble backend, their values and their lists, share one flat set of byte keys.
Namespaces without NUL are told apart by what their keys start with, and every operation writes, and
reads, keys of its own namespace only. So an operation leaves the entries of all other namespaces as
they are, and what it returns depends on the entries of its own (`entriesOf_step`, `result_congr`).

Within a namespace both backends are maps (`Weibo.Spec.ReduceState`). A program gets the same
results from both, whatever it does to lists in between.

## Key results

- `entriesOf_step`: an operation leaves other namespaces alone
- `SameValues.step`: one operation on both backends
- `pebble_values_refine_memory`: all operations of a program
-/

namespace Weibo

open Function List ValueStore StateResult

/-! ## The keys of a space -/

/-- The values, or the lists, of a namespace. -/
@[ext]
structure Space where
  kind : UInt8
  ns : Bytes
deriving DecidableEq

namespace Space

/-- What all keys of a space start with. -/
def start (sp : Space) : Bytes := sp.kind :: 0 :: sp.ns ++ [0]

/-- Whether a key is one of a space. -/
def has (sp : Space) (k : Bytes) : Bool := sp.start.isPrefixOf k

theorem has_iff {sp : Space} {k : Bytes} : sp.has k = true ↔ sp.start <+: k :=
  isPrefixOf_iff_prefix

/-- Spaces that have no key in common: one has values and the other one lists, or their namespaces
    differ and have no NUL. -/
def Apart (sp sp' : Space) : Prop :=
  sp.kind ≠ sp'.kind ∨ 0 ∉ sp.ns ∧ 0 ∉ sp'.ns ∧ sp.ns ≠ sp'.ns

theorem Apart.has_eq_false {sp sp' : Space} (h : Apart sp sp') {k : Bytes} (hk : sp'.has k = true) : sp.has k = false := by
  rw [Bool.eq_false_iff, Ne, has_iff]
  rw [has_iff] at hk
  intro hk'
  -- one start is the start of the other one
  have hstart : ∀ {a b : Space}, a.start <+: b.start →
      a.kind = b.kind ∧ a.ns ++ [0] <+: b.ns ++ [0] := by
    intro a b hpre
    obtain ⟨hkind, hpre⟩ := cons_prefix_cons.mp hpre
    exact ⟨hkind, (cons_prefix_cons.mp hpre).2⟩
  rcases prefix_or_prefix_of_prefix hk' hk with hpre | hpre
  · obtain ⟨hkind, hns⟩ := hstart hpre
    obtain hne | ⟨hnul, hnul', hne⟩ := h
    · exact hne hkind
    · exact hne (ns_of_isPrefix hnul hnul' hns).1
  · obtain ⟨hkind, hns⟩ := hstart hpre
    obtain hne | ⟨hnul, hnul', hne⟩ := h
    · exact hne hkind.symm
    · exact hne (ns_of_isPrefix hnul' hnul hns).1.symm

theorem has_valueUserKey (ns key : Bytes) : has ⟨valuePrefix, ns⟩ (valueUserKey ns key) = true :=
  has_iff.mpr ⟨key, (valueUserKey_eq ns key).symm⟩

theorem has_entryKey (h : ListHandle) (seq : ℕ) : has ⟨listPrefix, h.ns⟩ (h.entryKey seq) = true :=
  has_iff.mpr (PebbleBackend.namespacePrefix_entryKey h seq)

theorem has_of_starts {h : ListHandle} {e : Bytes × Bytes}
    (hstarts : PebbleBackend.starts h e = true) : has ⟨listPrefix, h.ns⟩ e.1 = true := by
  refine has_iff.mpr (IsPrefix.trans ?_ (PebbleBackend.starts_iff.mp hstarts))
  rw [ListHandle.stem, start]
  exact ⟨h.key ++ [0], by simp⟩

theorem has_of_valueRange {ns k : Bytes}
    (h : SortedMap.inRange (valuePrefixBytes ns) (prefixUpperBound (valuePrefixBytes ns)) k = true) :
    has ⟨valuePrefix, ns⟩ k = true := by
  obtain ⟨key, rfl⟩ := (inRange_valuePrefix ns k).mp h
  exact has_valueUserKey ns key

end Space

/-- The space that an operation works on. -/
def StateOp.space : StateOp → Space
  | .value h _ => ⟨valuePrefix, h.ns⟩
  | .list h _ => ⟨listPrefix, h.ns⟩

variable {op : StateOp} {q : Bytes × Bytes → Bool}

theorem StateOp.apart_of_ne {op' : StateOp} (h : 0 ∉ op.ns) (h' : 0 ∉ op'.ns)
    (hne : op.space ≠ op'.space) : op.space.Apart op'.space := by
  by_cases hkind : op.space.kind = op'.space.kind
  · have hns : ∀ op : StateOp, op.space.ns = op.ns := fun op => by cases op <;> rfl
    refine .inr ⟨hns op ▸ h, hns op' ▸ h', fun heq => hne ?_⟩
    exact Space.ext hkind heq
  · exact .inl hkind

/-! ## The entries of a space -/

namespace PebbleBackend

variable {p p' : PebbleBackend} {sp : Space} {ns : Bytes}

/-- The entries of a space. -/
def entriesOf (p : PebbleBackend) (sp : Space) : List (Bytes × Bytes) :=
  p.db.entries.filter fun e => sp.has e.1

/-- Entries of a space that are picked out of all entries. -/
theorem filter_entriesOf (hq : ∀ e, q e = true → sp.has e.1 = true) :
    (p.entriesOf sp).filter q = p.db.entries.filter q := by
  rw [entriesOf, filter_filter]
  apply filter_congr
  intro e _
  cases he : q e with
  | false => rfl
  | true => rw [hq e he]; rfl

theorem filter_congr_of_entriesOf (h : p'.entriesOf sp = p.entriesOf sp)
    (hq : ∀ e, q e = true → sp.has e.1 = true) :
    p'.db.entries.filter q = p.db.entries.filter q := by
  rw [← filter_entriesOf hq, h, filter_entriesOf hq]

theorem getValue_congr (h : p'.entriesOf ⟨valuePrefix, ns⟩ = p.entriesOf ⟨valuePrefix, ns⟩)
    (key : Bytes) : p'.getValue ns key = p.getValue ns key := by
  rw [getValue, getValue, SortedMap.get, SortedMap.get, ← head?_filter, ← head?_filter,
    filter_congr_of_entriesOf h]
  intro e he
  rw [of_decide_eq_true he]
  exact Space.has_valueUserKey ns key

theorem valueRange_congr (h : p'.entriesOf ⟨valuePrefix, ns⟩ = p.entriesOf ⟨valuePrefix, ns⟩) :
    p'.valueRange ns = p.valueRange ns :=
  filter_congr_of_entriesOf h fun _ he => Space.has_of_valueRange he

theorem getAll_congr (h : p'.entriesOf ⟨listPrefix, ns⟩ = p.entriesOf ⟨listPrefix, ns⟩)
    (key : Bytes) : p'.getAll ⟨ns, key⟩ = p.getAll ⟨ns, key⟩ := by
  rw [getAll_eq, getAll_eq, filter_congr_of_entriesOf h]
  exact fun e he => Space.has_of_starts he

theorem keys_congr (h : p'.entriesOf ⟨listPrefix, ns⟩ = p.entriesOf ⟨listPrefix, ns⟩) :
    p'.keys ns = p.keys ns := by
  have hrange : p'.db.range (listNamespacePrefix ns) (prefixUpperBound (listNamespacePrefix ns)) =
      p.db.range (listNamespacePrefix ns) (prefixUpperBound (listNamespacePrefix ns)) := by
    refine filter_congr_of_entriesOf h fun e he => ?_
    rw [listNamespacePrefix, inRange_prefix] at he
    exact Space.has_iff.mpr he
  rw [keys, keys, hrange]

/-- What an operation returns depends on the entries of its space. -/
theorem result_congr (h : p'.entriesOf op.space = p.entriesOf op.space) :
    pebbleBackend.result p' op = pebbleBackend.result p op := by
  cases op with
  | value x op =>
    have hrange : p'.valueRange x.ns = p.valueRange x.ns := valueRange_congr h
    cases op with
    | get => exact congrArg value (getValue_congr h x.key)
    | keys =>
      show StateResult.keys (p'.valueKeys x.ns) = .keys (p.valueKeys x.ns)
      rw [valueKeys, valueKeys, hrange]
    | snapshotAll =>
      show entries (p'.snapshotAll x.ns) = .entries (p.snapshotAll x.ns)
      rw [snapshotAll, snapshotAll, hrange]
    | set _ | clear | restoreAll _ => rfl
  | list x op =>
    cases op with
    | getAll => exact congrArg (fun vs => list (.values vs)) (getAll_congr h x.key)
    | keys => exact congrArg (fun ks => list (.keys ks)) (keys_congr h)
    | append _ | clear => rfl

/-! ## Writing -/

section Write

variable {sp' : Space} (hapart : sp.Apart sp')

include hapart

theorem entriesOf_set {k : Bytes} (hk : sp'.has k = true) (db : SortedMap Bytes Bytes) (v : Bytes) :
    (db.set k v).entries.filter (fun e => sp.has e.1) = db.entries.filter fun e => sp.has e.1 :=
  SortedMap.filter_insertSorted_of_not (fun _ => hapart.has_eq_false hk) v db.entries

/-- Entries are dropped that belong to another space. -/
theorem entriesOf_drop (hq : ∀ e, q e = false → sp'.has e.1 = true) (es : List (Bytes × Bytes)) :
    (es.filter q).filter (fun e => sp.has e.1) = es.filter fun e => sp.has e.1 := by
  rw [filter_filter]
  apply filter_congr
  intro e _
  cases he : q e with
  | true => exact Bool.and_true _
  | false => rw [hapart.has_eq_false (hq e he)]; rfl

end Write

/-- One batch: the range is dropped, then each value is set. -/
theorem entriesOf_restoreAll (hapart : sp.Apart ⟨valuePrefix, ns⟩) (p : PebbleBackend)
    (entries : ValueMap) : (p.restoreAll ns entries).entriesOf sp = p.entriesOf sp := by
  have hsets : ∀ (es : List ((_ : Bytes) × Bytes)) (db : SortedMap Bytes Bytes),
      (es.foldl (fun db e => db.set (valueUserKey ns e.1) e.2) db).entries.filter
        (fun e => sp.has e.1) = db.entries.filter fun e => sp.has e.1 := by
    intro es
    induction es with
    | nil => exact fun _ => rfl
    | cons e es ih =>
      intro db
      rw [foldl_cons, ih]
      exact entriesOf_set hapart (Space.has_valueUserKey ns e.1) db e.2
  rw [entriesOf, restoreAll, hsets]
  refine entriesOf_drop hapart (fun e he => ?_) p.db.entries
  exact Space.has_of_valueRange (by simpa using he)

/-- An operation leaves all other spaces alone. -/
theorem entriesOf_step (hapart : sp.Apart op.space) (p : PebbleBackend) :
    (pebbleBackend.step p op).entriesOf sp = p.entriesOf sp := by
  cases op with
  | value x op =>
    cases op with
    | set v => exact entriesOf_set hapart (Space.has_valueUserKey x.ns x.key) p.db v
    | clear =>
      refine entriesOf_drop hapart (fun e he => ?_) p.db.entries
      rw [not_ne_iff.mp (of_decide_eq_false he)]
      exact Space.has_valueUserKey x.ns x.key
    | restoreAll entries => exact entriesOf_restoreAll hapart p entries
    | get | keys | snapshotAll => rfl
  | list x op =>
    cases op with
    | append v => exact entriesOf_set hapart (Space.has_entryKey x (p.seqs x)) p.db v
    | clear =>
      show (p.clear x).db.entries.filter _ = _
      rw [clear_entries]
      refine entriesOf_drop hapart (fun e he => ?_) p.db.entries
      exact Space.has_of_starts (by simpa using he)
    | getAll | keys => rfl

end PebbleBackend

/-! ## Both backends -/

theorem memory_value_step {ns : Bytes} (hne : ⟨valuePrefix, ns⟩ ≠ op.space) (m : MemoryBackend) : (memoryBackend.step m op).value ns = m.value ns := by
  cases op with
  | value x op =>
    have hns : ns ≠ x.ns := fun heq => hne (heq ▸ rfl)
    cases op with
    | set v => exact update_of_ne hns _ _
    | clear => exact update_of_ne hns _ _
    | restoreAll entries => exact update_of_ne hns _ _
    | get | keys | snapshotAll => rfl
  | list x op => cases op <;> rfl

theorem memory_list_step {ns : Bytes} (hne : ⟨listPrefix, ns⟩ ≠ op.space) (m : MemoryBackend) : (memoryBackend.step m op).list ns = m.list ns := by
  cases op with
  | value x op => cases op <;> rfl
  | list x op =>
    have hns : ns ≠ x.ns := fun heq => hne (heq ▸ rfl)
    cases op with
    | append v => exact update_of_ne hns _ _
    | clear => exact update_of_ne hns _ _
    | getAll | keys => rfl

theorem memory_result_step {read : StateOp} (hne : read.space ≠ op.space) (m : MemoryBackend) :
    memoryBackend.result (memoryBackend.step m op) read = memoryBackend.result m read := by
  cases read with
  | value x read =>
    have hvalue := memory_value_step hne m
    cases read <;> simp only [memoryBackend, StateBackend.result, MemoryValues.get,
      MemoryValues.keys, MemoryValues.snapshotAll] at hvalue ⊢ <;> rw [hvalue]
  | list x read =>
    have hlist := memory_list_step hne m
    cases read <;> simp only [memoryBackend, StateBackend.result, ListBackend.result, memoryLists,
      MemoryLists.getAll] at hlist ⊢ <;> rw [hlist]

/-- Results that a caller cannot tell apart: keys are compared as sets, maps by their lookups. What
    lists return is not compared. -/
def StateResult.Same : StateResult → StateResult → Prop
  | .done, .done => True
  | .value v, .value v' => v = v'
  | .keys ks, .keys ks' => ∀ k, k ∈ ks ↔ k ∈ ks'
  | .entries m, .entries m' => ∀ k, m.lookup k = m'.lookup k
  | .list _, .list _ => True
  | _, _ => False

/-- The values of all namespaces without NUL are the same. -/
def SameValues (m : MemoryBackend) (p : PebbleBackend) : Prop :=
  ∀ ns, 0 ∉ ns → ∀ key, m.value.get ns key = p.getValue ns key

namespace SameValues

variable {m : MemoryBackend} {p : PebbleBackend}

theorem fresh : SameValues newMemoryBackend (.openPebble .empty) := fun _ _ _ => rfl

theorem result (h : SameValues m p) (hop : ∀ x o, op = .value x o → 0 ∉ x.ns) :
    Same (memoryBackend.result m op) (pebbleBackend.result p op) := by
  cases op with
  | value x op =>
    have hx := h x.ns (hop x op rfl)
    cases op with
    | get => exact hx x.key
    | keys =>
      intro k
      show k ∈ (memory m.value).keys x.ns ↔ k ∈ (pebble p).keys x.ns
      rw [ValueStore.mem_keys, ValueStore.mem_keys]
      show (m.value.get x.ns k).isSome ↔ (p.getValue x.ns k).isSome
      rw [hx k]
    | snapshotAll =>
      intro k
      show ((memory m.value).snapshotAll x.ns).lookup k = ((pebble p).snapshotAll x.ns).lookup k
      rw [snapshotAll_lookup, snapshotAll_lookup]
      exact hx k
    | set _ | clear | restoreAll _ => trivial
  | list x op => trivial

theorem step (h : SameValues m p) (hop : ∀ x o, op = .value x o → 0 ∉ x.ns) :
    SameValues (memoryBackend.step m op) (pebbleBackend.step p op) := by
  intro ns hns key
  cases op with
  | value x op =>
    have hx : 0 ∉ x.ns := hop x op rfl
    by_cases hne : ns = x.ns
    · subst hne
      have hkey : (memory m.value).get x.ns key = (pebble p).get x.ns key :=
        h x.ns hx key
      cases op with
      | set v =>
        show ((memory m.value).set x.ns x.key v).get x.ns key =
          ((pebble p).set x.ns x.key v).get x.ns key
        rw [get_set, get_set, hkey]
      | clear =>
        show ((memory m.value).clear x.ns x.key).get x.ns key =
          ((pebble p).clear x.ns x.key).get x.ns key
        rw [get_clear, get_clear, hkey]
      | restoreAll entries =>
        show ((memory m.value).restoreAll x.ns entries).get x.ns key =
          ((pebble p).restoreAll x.ns entries).get x.ns key
        rw [get_restoreAll, get_restoreAll]
      | get | keys | snapshotAll => exact hkey
    · have hapart : Space.Apart ⟨valuePrefix, ns⟩ (StateOp.value x op).space :=
        .inr ⟨hns, hx, hne⟩
      have hne : ⟨valuePrefix, ns⟩ ≠ (StateOp.value x op).space := fun heq =>
        hne (congrArg Space.ns heq)
      rw [PebbleBackend.getValue_congr (PebbleBackend.entriesOf_step hapart p), ← h ns hns key,
        MemoryValues.get, memory_value_step hne]
      rfl
  | list x op =>
    -- values are not lists, also not those of the same name
    have hkind : valuePrefix ≠ listPrefix := by decide
    have hapart : Space.Apart ⟨valuePrefix, ns⟩ (StateOp.list x op).space := .inl hkind
    have hne : ⟨valuePrefix, ns⟩ ≠ (StateOp.list x op).space := fun heq =>
      hkind (congrArg Space.kind heq)
    rw [PebbleBackend.getValue_congr (PebbleBackend.entriesOf_step hapart p), ← h ns hns key,
      MemoryValues.get, memory_value_step hne]
    rfl

/-- A whole program. -/
theorem results (h : SameValues m p) {ops : List StateOp}
    (hops : ∀ x o, .value x o ∈ ops → 0 ∉ x.ns) :
    Forall₂ Same (memoryBackend.results m ops) (pebbleBackend.results p ops) := by
  induction ops generalizing m p with
  | nil => exact .nil
  | cons op ops ih =>
    have hop : ∀ x o, op = .value x o → 0 ∉ x.ns := fun x o heq =>
      hops x o (heq ▸ mem_cons_self)
    exact .cons (h.result hop) (ih (h.step hop) fun x o hx => hops x o (mem_cons_of_mem _ hx))

end SameValues

theorem StateBackend.run_snoc {σ : Type} (B : StateBackend σ) (s : σ) (ops : List StateOp)
    (op : StateOp) : B.run s (ops ++ [op]) = B.step (B.run s ops) op := foldl_concat ..

/-- `ValueState` on Pebble and in memory return the same to every program that uses values in
    namespaces without NUL, and lists in any way. On both backends an operation leaves all that can
    be read in another namespace as it is, and all lists if it is one on values. -/
theorem pebble_values_refine_memory (calls : List StateCall)
    (hns : ∀ x o, .value x o ∈ stateOps [] [] calls → 0 ∉ x.ns) :
    List.Forall₂ StateResult.Same (memoryBackend.results newMemoryBackend (stateOps [] [] calls))
        (pebbleBackend.results (.openPebble .empty) (stateOps [] [] calls)) ∧
      ∀ ops op read, 0 ∉ op.ns → 0 ∉ read.ns → read.space ≠ op.space →
        memoryBackend.result (memoryBackend.run newMemoryBackend (ops ++ [op])) read =
            memoryBackend.result (memoryBackend.run newMemoryBackend ops) read ∧
          pebbleBackend.result (pebbleBackend.run (.openPebble .empty) (ops ++ [op])) read =
            pebbleBackend.result (pebbleBackend.run (.openPebble .empty) ops) read := by
  constructor
  · exact SameValues.fresh.results hns
  · intro ops op read hop hread hne
    rw [StateBackend.run_snoc, StateBackend.run_snoc]
    refine ⟨memory_result_step hne _, PebbleBackend.result_congr ?_⟩
    exact PebbleBackend.entriesOf_step (StateOp.apart_of_ne hread hop hne) _

/-- Two namespaces, the first name a start of the second, and a list in one of them. A value has a
    NUL in its key. -/
theorem pebble_values_refine_memory_two :
    let calls : List StateCall := [.valueState [110], .valueState [110, 1], .setKey 0 [97, 0],
      .value 0 (.set [49]), .list (.listState [110]), .list (.op 0 (.append [50])),
      .value 1 (.restoreAll ∅), .value 0 .keys]
    (∀ x o, .value x o ∈ stateOps [] [] calls → 0 ∉ x.ns) ∧
      pebbleBackend.results (.openPebble .empty) (stateOps [] [] calls) =
        [.done, .list .done, .done, .keys [[97, 0]]] ∧
      List.Forall₂ StateResult.Same (memoryBackend.results newMemoryBackend (stateOps [] [] calls))
        (pebbleBackend.results (.openPebble .empty) (stateOps [] [] calls)) := by
  intro calls
  have hns : ∀ x o, .value x o ∈ stateOps [] [] calls → 0 ∉ x.ns := by
    intro x o hx
    have hx : .value x o ∈ [StateOp.value ⟨[110], [97, 0]⟩ (.set [49]),
      .list ⟨[110], []⟩ (.append [50]), .value ⟨[110, 1], []⟩ (.restoreAll ∅),
      .value ⟨[110], [97, 0]⟩ .keys] := hx
    simp only [mem_cons, StateOp.value.injEq, reduceCtorEq, not_mem_nil, or_false, false_or] at hx
    rcases hx with ⟨rfl, -⟩ | ⟨rfl, -⟩ | ⟨rfl, -⟩ <;> decide
  exact ⟨hns, by decide, (pebble_values_refine_memory calls hns).1⟩

end Weibo
