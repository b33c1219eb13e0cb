import Mathlib.Data.List.Basic
import Weibo.ForStd.JsonReader
import Weibo.ForStd.NestedMap
import Weibo.ForStd.Utf8
import Weibo.Model.Record

/-!
# JSON records (`workflow/record`)

The value of a record as a JSON object, whose fields are read and written by dotted paths.
`SetField` and `DeleteField` write into the object they are given, so they come with the object as
they leave it, whether they fail or not.

`encoding/json` is `JsonReader`; of its errors only the kind is kept, and its limit on the depth
of a value is left out.
-/

namespace Weibo

/-! ## Values -/

/-- A Go value of type `any`, from a record or from a workflow's configuration. A `float64` is given
    by its shortest decimal text, a value of a type that no function here looks into by what
    `fmt.Sprint` prints for it. -/
inductive Value where
  | nil
  | bool (b : Bool)
  | number (literal : String)
  | int (n : Int)
  | float (text : String)
  | string (s : String)
  | array (vs : List Value)
  | object (es : List (String × Value))
  | other (text : String)

/-- A Go `map[string]any` that is not nil. -/
abbrev Object := List (String × Value)

def asObject : Value → Option Object
  | .object es => some es
  | _ => none

/-- The objects among the values. -/
def objectView : NestedMap.View String Value where
  asObject := asObject
  ofObject := .object
  asObject_ofObject _ := rfl
  ofObject_asObject := by
    intro v es h
    unfold asObject at h
    split at h
    · rw [Option.some.inj h]
    · simp at h

/-! ## Paths -/

/-- The verb `%q`, for texts that need no escapes. -/
def quoted (s : String) : String := "\"" ++ s ++ "\""

def splitPath (path : String) : Except String (List String) :=
  if path = "" then .error "record: empty field path"
  else
    let segs := (path.toList.splitOn '.').map String.ofList
    if "" ∈ segs then
      .error ("record: invalid field path " ++ quoted path ++ " (empty segment)")
    else .ok segs

/-- `GetField`. -/
def getField (data : Object) (path : String) : Option Value :=
  match splitPath path with
  | .error _ => none
  | .ok segs => objectView.get data segs

/-- `SetField`: the object then, and the error. -/
def setField (data : Object) (path : String) (value : Value) : Object × Option String :=
  match splitPath path with
  | .error e => (data, some e)
  | .ok segs =>
    match objectView.set value data segs with
    | (data, none) => (data, none)
    | (data, some at_) =>
      (data, some ("record: cannot set " ++ quoted path ++ ": " ++ quoted (".".intercalate at_) ++
        " is not an object"))

/-- `DeleteField`: the object then, and the error. -/
def deleteField (data : Object) (path : String) : Object × Option String :=
  match splitPath path with
  | .error e => (data, some e)
  | .ok segs =>
    match objectView.delete data segs with
    | (data, none) => (data, none)
    | (data, some at_) =>
      (data, some ("record: cannot delete " ++ quoted path ++ ": " ++
        quoted (".".intercalate at_) ++ " is not an object"))

/-! ## Records -/

/-- A `JSONRecord`: a map, which may be nil. -/
abbrev JSONRecord := Option Object

/-- A record with its `Parsed` view. A view that is no object is not looked at and left out. -/
structure ParsedRecord extends Record where
  parsed : Option JSONRecord := none

/-- An error of `encoding/json`, wrapped as `record: decode json object`. -/
inductive DecodeError where
  | malformed
  | notObject

/-- `unicode.IsSpace`. -/
def isSpaceRune (c : Char) : Bool :=
  let n := c.toNat
  (9 ≤ n && n ≤ 13) || n = 0x20 || n = 0x85 || n = 0xA0 || n = 0x1680 ||
    (0x2000 ≤ n && n ≤ 0x200A) || n = 0x2028 || n = 0x2029 || n = 0x202F || n = 0x205F || n = 0x3000

/-- `len(bytes.TrimSpace(data)) == 0`. -/
def isBlank (cs : List Char) : Bool := cs.all isSpaceRune

/-- What a decoder with `UseNumber` makes of a text; of equal members the last one stays. -/
def jsonBuilder : JsonReader.Builder Value where
  null := .nil
  bool := .bool
  number := .number
  string := .string
  array := .array
  object ms := .object (ms.foldl (fun es m => NestedMap.put m.1 m.2 es) [])

/-- `decodeJSONBytes`. The decoder reads the first value of the stream; a null leaves the map
    nil. -/
def decodeJSONBytes (data : Bytes) : Except DecodeError JSONRecord :=
  let cs := Utf8.decodeUtf8 data
  if isBlank cs then .ok (some [])
  else
    match jsonBuilder.first cs with
    | none => .error .malformed
    | some (.object es, _) => .ok (some es)
    | some (.nil, _) => .ok none
    | some _ => .error .notObject

/-- `DecodeJSON`. -/
def decodeJSON (r : ParsedRecord) : Except DecodeError JSONRecord :=
  match r.parsed with
  | some data => .ok data
  | none => decodeJSONBytes r.value

end Weibo
