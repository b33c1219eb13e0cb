import Weibo.ForStd.RefStore
import Weibo.ForStd.Run
import Weibo.Model.FieldOperators

/-!
# Chains of field operators on shared objects (`workflow/operators`, `workflow/record`)

The map operators write into the objects they are given, and a `setFields` step puts the objects of
its configuration into every record. Here the objects lie in a store, as the maps of a Go program
do, and values refer to them. Arrays are not shared: nothing is ever written into them.

A chain is built once, and its configured objects are the first ones in the store. It then
handles record after record, one call of `SetField` or `DeleteField` after the other. A call
that panics ends the run.
-/

namespace Weibo

open RefStore (Slot)

/-- The objects of a program. -/
abbrev ObjectStore := RefStore.Store String Value

/-! ## Objects -/

mutual

/-- Puts the objects of a value into the store. -/
def storeValue (h : ObjectStore) : Value → ObjectStore × Slot Value
  | .object es =>
    let r := storeEntries h es
    (r.1 ++ [r.2], .ref r.1.length)
  | v => (h, .atom v)

def storeEntries (h : ObjectStore) :
    List (String × Value) → ObjectStore × List (String × Slot Value)
  | [] => (h, [])
  | e :: es =>
    let r := storeEntry h e
    let rs := storeEntries r.1 es
    (rs.1, r.2 :: rs.2)

def storeEntry (h : ObjectStore) : String × Value → ObjectStore × (String × Slot Value)
  | (k, v) =>
    let r := storeValue h v
    (r.1, k, r.2)

end

/-- Puts an object into the store. -/
def storeObject (h : ObjectStore) (es : Object) : ObjectStore × ℕ :=
  let r := storeEntries h es
  (r.1 ++ [r.2], r.1.length)

/-- What a reference stands for, unless it is part of itself. -/
def loadObject (h : ObjectStore) (r : ℕ) : Option Value := RefStore.tree id Value.object h (.ref r)

/-- `GetField`, `SetField` and `DeleteField` on an object in the store; `SetField` reports whether
    there was no error. -/
def storeGet (h : ObjectStore) (r : ℕ) (path : String) : Option (Slot Value) :=
  match splitPath path with
  | .error _ => none
  | .ok segs => RefStore.get h r segs

@[inherit_doc storeGet]
def storeSet (h : ObjectStore) (r : ℕ) (path : String) (s : Slot Value) : ObjectStore × Bool :=
  match splitPath path with
  | .error _ => (h, false)
  | .ok segs => RefStore.set s h r segs

@[inherit_doc storeGet]
def storeDelete (h : ObjectStore) (r : ℕ) (path : String) : ObjectStore :=
  match splitPath path with
  | .error _ => h
  | .ok segs => RefStore.delete h r segs

/-! ## Chains -/

/-- A map operator with its configuration. -/
inductive FieldStep where
  | select (cfg : SelectConfig)
  | rename (cfg : RenameConfig)
  | set (cfg : SetConfig)

/-- A single assignment of a map operator. -/
inductive FieldOp where
  | copy (field : String)
  | move (rn : FieldRename)
  | assign (field : String) (value : Slot Value)

/-- A map operator as it is built. `isSelect` says that it fills a new object. -/
structure BuiltStep where
  isSelect : Bool
  ops : List FieldOp

/-- The configured fields with the values that are inserted into the records. -/
def buildSets (h : ObjectStore) : List FieldSet → ObjectStore × List FieldOp
  | [] => (h, [])
  | s :: sets =>
    let r := storeValue h s.value
    let rs := buildSets r.1 sets
    (rs.1, .assign s.field r.2 :: rs.2)

/-- `BuildSelect`, `BuildRename` and `BuildSet`. -/
def buildStep (h : ObjectStore) : FieldStep → ObjectStore × BuiltStep
  | .select cfg => (h, ⟨true, cfg.fields.map .copy⟩)
  | .rename cfg => (h, ⟨false, cfg.renames.map .move⟩)
  | .set cfg =>
    let r := buildSets h cfg.sets
    (r.1, ⟨false, r.2⟩)

def buildChain (h : ObjectStore) : List FieldStep → ObjectStore × List BuiltStep
  | [] => (h, [])
  | step :: steps =>
    let r := buildStep h step
    let rs := buildChain r.1 steps
    (rs.1, r.2 :: rs.2)

/-! ## Runs -/

/-- A record whose object, if it is parsed, lies in the store. -/
structure StoredRecord extends Record where
  parsed : Option (Option ℕ) := none

/-- What the operator in charge does: nothing, pass the record on as it cannot be decoded, or write
    from one object to another. -/
inductive Work where
  | idle
  | passing
  | editing (input out : Option ℕ)

/-- The `Parsed` view of a record that leaves the chain. -/
inductive ParsedView where
  | absent
  | nilMap
  | object (v : Value)
  | cyclic

/-- A record as it leaves the chain. -/
structure ChainOutput where
  record : Record
  parsed : ParsedView

structure Worker where
  store : ObjectStore
  record : StoredRecord := {}
  work : Work := .idle
  outputs : List ChainOutput := []

inductive ChainEvent where
  | arrive (r : ParsedRecord)
  | start (isSelect : Bool)
  | op (o : FieldOp)
  | finish
  | emit

/-- One assignment. There is no store behind a panic: writing to a nil map. -/
def applyOp (h : ObjectStore) (input out : Option ℕ) : FieldOp → Option ObjectStore
  | .copy field =>
    match input.bind (storeGet h · field), out with
    | some s, some out => some (storeSet h out field s).1
    | _, _ => some h
  | .move rn =>
    match input with
    | none => some h
    | some input =>
      match storeGet h input rn.fromPath with
      | none => some h
      | some s =>
        match storeSet h input rn.toPath s with
        | (h, false) => some h
        | (h, true) => some (storeDelete h input rn.fromPath)
  | .assign field s =>
    match out, splitPath field with
    | some out, _ => some (storeSet h out field s).1
    | none, .error _ => some h
    | none, .ok _ => none

/-- The operator starts on a decoded object; a selection fills a new one. -/
def Worker.begin (w : Worker) (isSelect : Bool) (input : Option ℕ) : Worker :=
  if isSelect then
    { w with store := w.store ++ [[]], work := .editing input (some w.store.length) }
  else { w with work := .editing input input }

/-- `EncodeJSON` of an object in the store. -/
def encodeStored (marshal : Marshal) (h : ObjectStore) : Option ℕ → Option Bytes
  | none => marshal none
  | some r => (loadObject h r).bind fun v => marshal (asObject v)

def parsedView (h : ObjectStore) : Option (Option ℕ) → ParsedView
  | none => .absent
  | some none => .nilMap
  | some (some r) =>
    match loadObject h r with
    | some v => .object v
    | none => .cyclic

/-- One step of a chain at work: a record arrives, with an object of its own if it is parsed
    already; an operator starts, makes its assignments and finishes; the record leaves. -/
def Worker.step (marshal : Marshal) (w : Worker) : ChainEvent → Option Worker
  | .arrive r =>
    match r.parsed with
    | some (some es) =>
      let s := storeObject w.store es
      some { w with store := s.1, record := ⟨r.toRecord, some (some s.2)⟩, work := .idle }
    | some none => some { w with record := ⟨r.toRecord, some none⟩, work := .idle }
    | none => some { w with record := ⟨r.toRecord, none⟩, work := .idle }
  | .start isSelect =>
    match w.record.parsed with
    | some input => some (w.begin isSelect input)
    | none =>
      match decodeJSONBytes w.record.value with
      | .error _ => some { w with work := .passing }
      | .ok none => some (w.begin isSelect none)
      | .ok (some es) =>
        let s := storeObject w.store es
        some ({ w with store := s.1 }.begin isSelect (some s.2))
  | .op o =>
    match w.work with
    | .editing input out => (applyOp w.store input out o).map fun store => { w with store }
    | _ => some w
  | .finish =>
    match w.work with
    | .editing _ out =>
      match encodeStored marshal w.store out with
      | some b =>
        some { w with record := { w.record with value := b, parsed := some out }, work := .idle }
      | none => some { w with work := .idle }
    | _ => some { w with work := .idle }
  | .emit =>
    some { w with outputs := w.outputs ++
      [⟨w.record.toRecord, parsedView w.store w.record.parsed⟩] }

/-- What happens to one record. -/
def recordEvents (steps : List BuiltStep) (r : ParsedRecord) : List ChainEvent :=
  .arrive r ::
    steps.flatMap (fun step => .start step.isSelect :: step.ops.map .op ++ [.finish]) ++ [.emit]

/-- A chain that has just been built. -/
def freshWorker (chain : List FieldStep) : Worker := { store := (buildChain [] chain).1 }

/-- The outputs of a chain for a sequence of records, unless it panics. -/
def chainOutputs (marshal : Marshal) (chain : List FieldStep) (rs : List ParsedRecord) :
    Option (List ChainOutput) :=
  (Run.exec (Worker.step marshal) (freshWorker chain)
    (rs.flatMap (recordEvents (buildChain [] chain).2))).map Worker.outputs

/-! ## Writes -/

def setTarget (h : ObjectStore) (r : ℕ) (path : String) : List ℕ :=
  match splitPath path with
  | .error _ => []
  | .ok segs => (RefStore.setTarget h r segs).toList

def deleteTarget (h : ObjectStore) (r : ℕ) (path : String) : List ℕ :=
  match splitPath path with
  | .error _ => []
  | .ok segs => (RefStore.deleteTarget h r segs).toList

/-- The objects into which an assignment writes. -/
def opTargets (h : ObjectStore) (input out : Option ℕ) : FieldOp → List ℕ
  | .copy field =>
    match input.bind (storeGet h · field), out with
    | some _, some out => setTarget h out field
    | _, _ => []
  | .move rn =>
    match input with
    | none => []
    | some input =>
      match storeGet h input rn.fromPath with
      | none => []
      | some s =>
        setTarget h input rn.toPath ++
          match storeSet h input rn.toPath s with
          | (_, false) => []
          | (h, true) => deleteTarget h input rn.fromPath
  | .assign field _ =>
    match out with
    | none => []
    | some out => setTarget h out field

/-- The objects into which a step writes. -/
def stepTargets (w : Worker) : ChainEvent → List ℕ
  | .op o =>
    match w.work with
    | .editing input out => opTargets w.store input out o
    | _ => []
  | _ => []

/-- The step does not write into one of the first `c` objects. -/
def Spares (c : ℕ) (w : Worker) (e : ChainEvent) : Prop := ∀ t ∈ stepTargets w e, c ≤ t

instance (c : ℕ) (w : Worker) (e : ChainEvent) : Decidable (Spares c w e) :=
  inferInstanceAs (Decidable (∀ t ∈ stepTargets w e, c ≤ t))

end Weibo
