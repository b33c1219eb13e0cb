import Weibo.Model.JsonRecord

/-!
# Field operators (`workflow/operators`)

The operators that a declarative workflow can use without code: filters on a field, and maps that
select, rename and set fields. Each one comes with a configuration that can be validated by itself.
The functions are built without validation.

A map operator decodes the record, transforms the object and encodes the result; a record that
cannot be decoded or encoded is passed on. The objects are written in place, so a record that had an
object keeps it as the transformation leaves it even where the result is not encoded.

`json.Marshal` is a parameter, and so are the parts of the standard library that print and
parse floating-point numbers.
-/

namespace Weibo

/-! ## Comparisons -/

inductive CompareOp where
  | equals | notEquals | greaterThan | greaterThanOrEqual | lessThan | lessThanOrEqual
  | contains | exists | notExists
deriving DecidableEq

/-- The supported operators: `compareOps`. -/
def compareOps : List (String × CompareOp) :=
  [("equals", .equals), ("not_equals", .notEquals), ("greater_than", .greaterThan),
    ("greater_than_or_equal", .greaterThanOrEqual), ("less_than", .lessThan),
    ("less_than_or_equal", .lessThanOrEqual), ("contains", .contains), ("exists", .exists),
    ("not_exists", .notExists)]

/-- `CompareOp.Valid`. -/
def validOp (op : String) : Bool := (compareOps.lookup op).isSome

/-- `CompareOp.NeedsValue`. -/
def needsValue (op : String) : Bool := op ≠ "exists" && op ≠ "not_exists"

/-- What the comparisons use of `strconv` and `fmt`: `ParseFloat` with the order of the numbers, and
    `Sprint`. -/
structure Formats where
  Float64 : Type
  parseFloat : String → Option Float64
  lt : Float64 → Float64 → Bool
  eq : Float64 → Float64 → Bool
  sprint : Value → String

/-- `strconv.ParseInt(s, 10, 64)`. -/
def parseInt64 (s : String) : Option Int :=
  let (negative, ds) :=
    match s.toList with
    | '-' :: ds => (true, ds)
    | '+' :: ds => (false, ds)
    | ds => (false, ds)
  if ds.isEmpty || !ds.all Char.isDigit then none
  else
    let n : ℕ := ds.foldl (fun n c => 10 * n + (c.toNat - '0'.toNat)) 0
    let i : Int := if negative then -n else n
    if -9223372036854775808 ≤ i ∧ i ≤ 9223372036854775807 then some i else none

/-- The text of a number as a `json.Number`. -/
def asNumber : Value → Option String
  | .number literal => some literal
  | .int n => some (toString n)
  | .float text => some text
  | _ => none

section Compare

variable (lib : Formats)

def asFloat (v : Value) : Option lib.Float64 := (asNumber v).bind lib.parseFloat

def numbersEqual (a b : String) : Bool :=
  match parseInt64 a, parseInt64 b with
  | some i, some j => i = j
  | _, _ =>
    match lib.parseFloat a, lib.parseFloat b with
    | some x, some y => lib.eq x y
    | _, _ => false

def valuesEqual (a b : Value) : Bool :=
  match asNumber a, asNumber b with
  | some x, some y => numbersEqual lib x y
  | none, none =>
    match a, b with
    | .bool x, .bool y => x = y
    | .string x, .string y => x = y
    | _, _ => false
  | _, _ => false

/-- `orderedCmp`: `pred` is asked about the sign. Numbers that are neither less nor greater, such as
    NaN, count as equal. -/
def orderedCmp (a b : Value) (pred : Ordering → Bool) : Bool :=
  match asFloat lib a with
  | some x =>
    match asFloat lib b with
    | some y => pred (if lib.lt x y then .lt else if lib.lt y x then .gt else .eq)
    | none => false
  | none =>
    match a, b with
    | .string x, .string y => pred (compareOfLessAndEq x y)
    | _, _ => false

def looseString : Value → String
  | .string s => s
  | .number literal => literal
  | .nil => ""
  | v => lib.sprint v

def containsValue (field target : Value) : Bool :=
  match field with
  | .string s => decide ((looseString lib target).toList <:+: s.toList)
  | .array vs => vs.any fun e => valuesEqual lib e target
  | _ => false

/-- `Compare`, with the value of the field if it is present. -/
def compareField (op : String) (field : Option Value) (target : Value) : Except String Bool :=
  match compareOps.lookup op with
  | none => .error ("operators: unsupported comparison operator " ++ quoted op)
  | some .exists => .ok field.isSome
  | some .notExists => .ok field.isNone
  | some o =>
    match field with
    | none => .ok false
    | some v =>
      match o with
      | .equals => .ok (valuesEqual lib v target)
      | .notEquals => .ok !valuesEqual lib v target
      | .greaterThan => .ok (orderedCmp lib v target (· = .gt))
      | .greaterThanOrEqual => .ok (orderedCmp lib v target (· ≠ .lt))
      | .lessThan => .ok (orderedCmp lib v target (· = .lt))
      | .lessThanOrEqual => .ok (orderedCmp lib v target (· ≠ .gt))
      | .contains => .ok (containsValue lib v target)
      | .exists | .notExists => .error ("operators: unsupported comparison operator " ++ quoted op)

end Compare

/-! ## Filters -/

/-- An error of a `Validate` method. -/
abbrev ConfigError := String

structure FilterConfig where
  field : String
  operator : String
  value : Value := .nil

def FilterConfig.validate (cfg : FilterConfig) : Except ConfigError Unit :=
  if cfg.field = "" then .error "filter: field is required"
  else if !validOp cfg.operator then
    .error ("filter: unsupported operator " ++ quoted cfg.operator)
  else
    match cfg.value with
    | .nil =>
      if needsValue cfg.operator then
        .error ("filter: operator " ++ quoted cfg.operator ++ " requires a value")
      else .ok ()
    | _ => .ok ()

/-- What a filter's predicate gets from `Compare` for a record, if it gets there. -/
def filterCompare (lib : Formats) (cfg : FilterConfig) (r : ParsedRecord) :
    Option (Except String Bool) :=
  match decodeJSON r with
  | .error _ => none
  | .ok data => some (compareField lib cfg.operator (getField (data.getD []) cfg.field) cfg.value)

/-- `BuildFilter`. -/
def buildFilter (lib : Formats) (cfg : FilterConfig) (r : ParsedRecord) : Bool :=
  match filterCompare lib cfg r with
  | none => false
  | some (.error _) => false
  | some (.ok keep) => keep

/-! ## Maps -/

/-- Writing to a nil map. -/
inductive Panic where
  | nilMap

/-- `json.Marshal` of a record's object. -/
abbrev Marshal := JSONRecord → Option Bytes

/-- `applyMap`. The transformation yields the object it was given, as it leaves it, and the
    result. -/
def applyMap (marshal : Marshal) (r : ParsedRecord)
    (transform : JSONRecord → Except Panic (JSONRecord × JSONRecord)) :
    Except Panic ParsedRecord :=
  match decodeJSON r with
  | .error _ => .ok r
  | .ok data =>
    match transform data with
    | .error p => .error p
    | .ok (data, out) =>
      match marshal out with
      | none => .ok { r with parsed := r.parsed.map fun _ => data }
      | some b => .ok { r with value := b, parsed := some out }

structure SelectConfig where
  fields : List String

def SelectConfig.validate (cfg : SelectConfig) : Except ConfigError Unit :=
  if cfg.fields = [] then .error "select_fields: at least one field is required"
  else if "" ∈ cfg.fields then .error "select_fields: field names must not be empty"
  else .ok ()

/-- The loop of `BuildSelect`; errors of `SetField` are ignored. -/
def selectFields (fields : List String) (data : Object) : Object :=
  fields.foldl (fun out f =>
    match getField data f with
    | some v => (setField out f v).1
    | none => out) []

/-- `BuildSelect`. Reading a nil map is reading an empty one. -/
def buildSelect (marshal : Marshal) (cfg : SelectConfig) (r : ParsedRecord) :
    Except Panic ParsedRecord :=
  applyMap marshal r fun data => .ok (data, some (selectFields cfg.fields (data.getD [])))

structure FieldRename where
  fromPath : String
  toPath : String

structure RenameConfig where
  renames : List FieldRename

/-- The number of the first entry that a check refuses. -/
def firstRefused {α : Type} (check : α → Bool) (l : List α) : Option ℕ :=
  l.findIdx? fun a => !check a

def RenameConfig.validate (cfg : RenameConfig) : Except ConfigError Unit :=
  if cfg.renames.isEmpty then .error "rename_fields: at least one rename is required"
  else
    match firstRefused (fun rn => rn.fromPath ≠ "" && rn.toPath ≠ "") cfg.renames with
    | some i => .error ("rename_fields: renames[" ++ toString i ++ "] needs both from and to")
    | none => .ok ()

/-- One rename: a source that is absent and a destination that cannot be written leave the object as
    it is. -/
def renameField (data : Object) (rn : FieldRename) : Object :=
  match getField data rn.fromPath with
  | none => data
  | some v =>
    match setField data rn.toPath v with
    | (data, some _) => data
    | (data, none) => (deleteField data rn.fromPath).1

/-- The loop of `BuildRename`. -/
def renameFields (renames : List FieldRename) (data : Object) : Object :=
  renames.foldl renameField data

/-- `BuildRename`. A nil map has no field to rename. -/
def buildRename (marshal : Marshal) (cfg : RenameConfig) (r : ParsedRecord) :
    Except Panic ParsedRecord :=
  applyMap marshal r fun data =>
    let data := data.map (renameFields cfg.renames)
    .ok (data, data)

structure FieldSet where
  field : String
  value : Value

structure SetConfig where
  sets : List FieldSet

def SetConfig.validate (cfg : SetConfig) : Except ConfigError Unit :=
  if cfg.sets.isEmpty then .error "set_fields: at least one set is required"
  else
    match firstRefused (fun s => s.field ≠ "") cfg.sets with
    | some i => .error ("set_fields: sets[" ++ toString i ++ "] field is required")
    | none => .ok ()

/-- One `SetField` of `BuildSet`, whose error is ignored. Behind the check of the path the first
    thing it does to a nil map is to write. -/
def assignField (data : JSONRecord) (s : FieldSet) : Except Panic JSONRecord :=
  match data with
  | some data => .ok (some (setField data s.field s.value).1)
  | none =>
    match splitPath s.field with
    | .error _ => .ok none
    | .ok _ => .error .nilMap

/-- `BuildSet`. -/
def buildSet (marshal : Marshal) (cfg : SetConfig) (r : ParsedRecord) :
    Except Panic ParsedRecord :=
  applyMap marshal r fun data =>
    match cfg.sets.foldlM assignField data with
    | .error p => .error p
    | .ok data => .ok (data, data)

end Weibo
