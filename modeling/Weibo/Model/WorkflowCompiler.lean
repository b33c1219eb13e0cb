import Weibo.ForStd.LexPath
import Weibo.Model.Workflow

/-!
# Compiling workflows (`workflow/compiler`)

`CompileWorkflow` validates a workflow, puts the secrets in, creates the source and the environment,
applies the operators to the stream and creates the sink. Of the source, the environment and the
sink only the checks that can fail are here. The operators come with the configurations from which
their functions are built.

The creation of directories, the secrets and the case mappings of package `strings` are
parameters.
-/

namespace Weibo

namespace Workflow

/-- What the compiler uses of the operating system and of package `strings`. -/
structure Host where
  mkdirAll : MkdirAll
  toLower : String → String
  toUpper : String → String

/-- A `Compiler`: `Resolve` of its secrets, and the root of the directories of its jobs. -/
structure Compiler where
  resolve : String → Option String
  baseDataDir : String := ""

/-! ## Secrets (`resolve.go`) -/

def hasReference (s : List Char) : Bool := decide (['$', '{'] <:+: s)

def isNameChar (c : Char) : Bool := isLetterOrDigit c || c = '_'

/-- The name in a reference at the start of a text, by the expression
    `\$\{([A-Za-z_][A-Za-z0-9_]*)\}`. -/
def secretRef : List Char → Option (List Char)
  | '$' :: '{' :: cs =>
    let name := cs.takeWhile isNameChar
    match name, cs.dropWhile isNameChar with
    | c :: _, '}' :: _ => if c.isDigit then none else some name
    | _, _ => none
  | _ => none

/-- `ReplaceAllStringFunc` behind the first `n` characters, which belong to a reference. The name
    that does not resolve is the error. -/
def replaceRefs (resolve : String → Option String) : ℕ → List Char → Except String (List Char)
  | _, [] => .ok []
  | n + 1, _ :: cs => replaceRefs resolve n cs
  | 0, c :: cs =>
    match secretRef (c :: cs) with
    | none => (replaceRefs resolve 0 cs).map (c :: ·)
    | some name =>
      match resolve (String.ofList name) with
      | none => .error (String.ofList name)
      -- behind the dollar sign there are the name and two braces
      | some secret => (replaceRefs resolve (name.length + 2) cs).map (secret.toList ++ ·)

def resolveOne (resolve : String → Option String) (field value : String) : Except String String :=
  if !hasReference value.toList then .ok value
  else
    match replaceRefs resolve 0 value.toList with
    | .error name => .error (field ++ ": secret " ++ quoted name ++ " could not be resolved")
    | .ok out =>
      if hasReference out then .error (field ++ ": invalid secret reference syntax")
      else .ok (String.ofList out)

def resolveSASL (resolve : String → Option String) (s : SASLSpec) : Except String SASLSpec := do
  let username ← resolveOne resolve "username" s.username
  let password ← resolveOne resolve "password" s.password
  return { s with username, password }

/-- A configuration that may be missing. -/
def resolveOption {α : Type} (f : α → Except String α) : Option α → Except String (Option α)
  | none => .ok none
  | some a => (f a).map some

def resolveSource (resolve : String → Option String) (src : SourceSpec) :
    Except String SourceSpec := do
  let kafka ← resolveOption (fun k : KafkaSourceSpec => do
    let sasl ← resolveOption (resolveSASL resolve) k.sasl
    return { k with sasl }) src.kafka
  return { src with kafka }

def resolveSink (resolve : String → Option String) (snk : SinkSpec) : Except String SinkSpec :=
  if snk.type = "kafka" then do
    let kafka ← resolveOption (fun k : KafkaSinkSpec => do
      let sasl ← resolveOption (resolveSASL resolve) k.sasl
      return { k with sasl }) snk.kafka
    return { snk with kafka }
  else if snk.type = "txnKafka" ∨ snk.type = "transactional_kafka" then do
    let txnKafka ← resolveOption (fun k : TxnKafkaSinkSpec => do
      let sasl ← resolveOption (resolveSASL resolve) k.sasl
      return { k with sasl }) snk.txnKafka
    return { snk with txnKafka }
  else if snk.type = "postgres" then do
    let postgres ← resolveOption (fun p : PostgresSinkSpec => do
      let dsn ← resolveOne resolve "dsn" p.dsn
      return { p with dsn }) snk.postgres
    return { snk with postgres }
  else .ok snk

/-- `resolveSecrets`: a copy of the workflow with its secrets. -/
def resolveSecrets (resolve : String → Option String) (wf : Workflow) : Except String Workflow := do
  let source ← resolveSource resolve wf.source
  let sink ← resolveSink resolve wf.sink
  return { wf with source, sink }

/-! ## Sources (`source.go`) -/

/-- `strings.TrimSpace`. -/
def trimSpace (s : String) : String :=
  String.ofList (((s.toList.dropWhile isSpaceRune).reverse.dropWhile isSpaceRune).reverse)

/-- The error of a condition that holds. -/
def failIf (bad : Bool) (msg : String) : Except String Unit := if bad then .error msg else .ok ()

def compileSASL (host : Host) (s : SASLSpec) : Except String Unit := do
  failIf (hasReference s.username.toList)
    "compiler: SASL username contains an unresolved secret reference"
  failIf (hasReference s.password.toList)
    "compiler: SASL password contains an unresolved secret reference"
  failIf (host.toUpper (trimSpace s.mechanism) ∉ ["PLAIN", "SCRAM-SHA-256", "SCRAM-SHA-512"])
    ("compiler: unsupported SASL mechanism " ++ quoted s.mechanism ++
      " (plain, scram-sha-256, scram-sha-512)")

/-- A configuration that is compiled if it is there. -/
def compileOption {α : Type} (f : α → Except String Unit) : Option α → Except String Unit
  | none => .ok ()
  | some a => f a

def compileDeserializer (host : Host) (format : String) : Except String Unit :=
  failIf (host.toLower format ∉ ["", "json"])
    ("compiler: unknown deserialize format " ++ quoted format ++ " (only \"json\" is built in)")

def compileKafkaSource (host : Host) : Option KafkaSourceSpec → Except String Unit
  | none => .error "compiler: kafka source configuration is required"
  | some k => do
    failIf k.brokers.isEmpty "compiler: kafka source requires at least one broker"
    failIf (k.topic = "" && k.topics.isEmpty) "compiler: kafka source requires a topic or topics"
    failIf k.parallel ("compiler: parallel kafka sources are not supported declaratively " ++
      "(they connect at construction); use a consumer group (groupID)")
    failIf (k.groupID = "") "compiler: kafka source requires a groupID (consumer-group mode)"
    failIf (host.toLower k.startFrom ∉ ["", "earliest", "latest"])
      ("compiler: unknown startFrom " ++ quoted k.startFrom ++ " (earliest or latest)")
    compileDeserializer host k.deserialize
    compileOption (fun w : WatermarkSpec => failIf (w.maxOutOfOrderness ≤ 0)
      "compiler: watermark maxOutOfOrderness must be greater than zero") k.watermark
    compileOption (compileSASL host) k.sasl

def compileSource (host : Host) (spec : SourceSpec) : Except String Unit :=
  if spec.type = "" then .error "compiler: source type is required"
  else if spec.type = "kafka" then compileKafkaSource host spec.kafka
  else if spec.type = "slice" ∨ spec.type = "generator" then .ok ()
  else .error ("compiler: unsupported source type " ++ quoted spec.type)

/-! ## The environment (`runtime.go`) -/

def defaultDataRoot : String := "./data"

def sanitizeName (name : String) : String :=
  let isDefault (s : String) : Bool := s ∈ ["", ".", ".."]
  let name := trimSpace name
  if isDefault name then "default"
  else
    let safe := String.ofList (name.toList.map fun c =>
      if isLetterOrDigit c || c = '_' || c = '-' || c = '.' then c else '_')
    if isDefault safe then "default" else safe

/-- `filepath.Join` of two elements. -/
def joinPath (dir t : String) : String := String.ofList (LexPath.join dir.toList t.toList).text

def jobDir (configured dataRoot name resource : String) : String :=
  if configured ≠ "" then joinPath configured name else joinPath (joinPath dataRoot name) resource

/-- The root of the directories of the jobs. -/
def dataRootOrDefault (dataRoot : String) : String :=
  if dataRoot = "" then defaultDataRoot else dataRoot

def createDir (host : Host) (what dir : String) : Except String Unit :=
  match host.mkdirAll dir with
  | none => .ok ()
  | some err => .error ("compiler: create " ++ what ++ " dir " ++ quoted dir ++ ": " ++ err)

def compileRuntime (host : Host) (workflowName dataRoot : String) :
    Option EnvSpec → Except String Unit :=
  compileOption fun rt => do
    let dataRoot := dataRootOrDefault dataRoot
    let name := sanitizeName workflowName
    failIf (rt.bufferSize < 0) "compiler: runtime bufferSize must not be negative"
    compileOption (fun c : CheckpointSpec => do
      failIf (c.interval ≤ 0) "compiler: checkpoint interval must be greater than zero"
      createDir host "checkpoint" (jobDir c.dir dataRoot name "checkpoints")) rt.checkpointing
    compileOption (fun s : StateSpec =>
      if s.backend = "" ∨ s.backend = "memory" then .ok ()
      else if s.backend = "pebble" then
        createDir host "state" (jobDir s.dir dataRoot name "state")
      else .error ("compiler: unsupported state backend " ++ quoted s.backend ++
        " (memory or pebble)")) rt.state

def checkpointDir (workflowName dataRoot : String) (rt : Option EnvSpec) : String :=
  match rt.bind EnvSpec.checkpointing with
  | none => ""
  | some c =>
    if c.interval ≤ 0 then ""
    else jobDir c.dir (dataRootOrDefault dataRoot) (sanitizeName workflowName) "checkpoints"

/-! ## Operators (`operators.go`) -/

/-- A reducer: a count, or the sum of a field. -/
inductive Aggregation where
  | count
  | sum (field : String)

/-- What an operator of the stream is built from. -/
inductive BuiltOperator where
  | filter (cfg : Weibo.FilterConfig)
  | select (cfg : Weibo.SelectConfig)
  | rename (cfg : Weibo.RenameConfig)
  | set (cfg : Weibo.SetConfig)
  | keyBy (field : String) (partitions : Int)
  | reduce (agg : Aggregation)
  | window (assigner : WindowAssigner) (idleTimeout : Option Int)

def partitionsOrDefault (n : Int) : Int := if n ≤ 0 then 16 else n

def buildReducer (cfg : ReduceConfig) : Except String Aggregation :=
  if cfg.function = "count" then .ok .count
  else if cfg.function = "sum" then
    if cfg.field = "" then .error "reduce sum requires a field" else .ok (.sum cfg.field)
  else .error ("unsupported reduce function " ++ quoted cfg.function ++ " (count or sum)")

def buildWindowAssigner (cfg : WindowConfig) : Except String WindowAssigner :=
  let offset := if 0 < cfg.offset then cfg.offset else 0
  if cfg.type = "tumbling" then
    if cfg.size ≤ 0 then .error "tumbling window requires a positive size"
    else .ok (tumbling cfg.size offset)
  else if cfg.type = "sliding" then
    if h : cfg.size ≤ 0 ∨ cfg.slide ≤ 0 then
      .error "sliding window requires positive size and slide"
    else .ok (sliding cfg.size cfg.slide offset (Int.not_le.mp (not_or.mp h).2))
  else if cfg.type = "session" then
    if cfg.gap ≤ 0 then .error "session window requires a positive gap" else .ok (session cfg.gap)
  else .error ("unsupported window type " ++ quoted cfg.type ++ " (tumbling, sliding, session)")

/-- `applyOperator`, for the step's block. The field operators are built as they are configured. -/
def applyOperator (op : Operator) : Except String BuiltOperator :=
  match op.block with
  | some (.filter f) => .ok (.filter ⟨f.field, f.operator, f.value⟩)
  | some (.selectFields s) => .ok (.select ⟨s.fields⟩)
  | some (.renameFields r) =>
    .ok (.rename ⟨r.renames.map fun rn => ⟨rn.fromPath, rn.toPath⟩⟩)
  | some (.setFields s) => .ok (.set ⟨s.sets.map fun fs => ⟨fs.field, fs.value⟩⟩)
  | some (.keyBy k) => .ok (.keyBy k.field (partitionsOrDefault k.partitions))
  | some (.reduce r) => (buildReducer r).map .reduce
  | some (.window w) =>
    (buildWindowAssigner w).map fun assigner =>
      .window assigner (if 0 < w.idleTimeout then some w.idleTimeout else none)
  | some (.process _) | some (.map _) | some (.flatMap _) =>
    .error ("ref-based operators (map/flatMap/process) require a function registry, " ++
      "which the declarative compiler does not provide")
  | none => .error ("operator " ++ quoted op.type ++ " has no recognized config block")

/-- `applyOperators` from step number `i` on: the operators with their labels. -/
def applyOperators (i : ℕ) : List Operator → Except String (List (BuiltOperator × String))
  | [] => .ok []
  | op :: ops =>
    match applyOperator op with
    | .error e =>
      .error ("compiler: pipeline[" ++ toString i ++ "] " ++ quoted op.id ++ ": " ++ e)
    | .ok built => (applyOperators (i + 1) ops).map ((built, op.id) :: ·)

/-! ## Sinks (`sink.go`) -/

def isIdentStart (c : Char) : Bool := c.isAlpha || c = '_'

/-- The expression `^[A-Za-z_][A-Za-z0-9_]*$`. -/
def matchesColumn (s : List Char) : Bool :=
  match s with
  | [] => false
  | c :: cs => isIdentStart c && cs.all isNameChar

/-- The expression for tables: a column's, or two of them with a dot between. -/
def matchesTable (s : List Char) : Bool :=
  match s.splitOn '.' with
  | [table] => matchesColumn table
  | [schema, table] => matchesColumn schema && matchesColumn table
  | _ => false

def compileAcks (host : Host) (acks : String) : Except String Unit :=
  failIf (host.toLower acks ∉ ["", "leader", "one", "none", "all"])
    ("compiler: unknown requiredAcks " ++ quoted acks ++ " (none, leader, all)")

def compileSerializer (host : Host) (format : String) : Except String Unit :=
  failIf (host.toLower format ∉ ["", "json"])
    ("compiler: unknown serialize format " ++ quoted format ++ " (only \"json\" is built in)")

def compileFailurePolicy (host : Host) (onError : String) : Except String Unit := do
  failIf (host.toLower onError = "dlq")
    "compiler: onError \"dlq\" is not supported declaratively yet"
  failIf (host.toLower onError ∉ ["", "drop", "fail"])
    ("compiler: unknown onError " ++ quoted onError ++ " (drop or fail)")

def compileKafkaSink (host : Host) : Option KafkaSinkSpec → Except String Unit
  | none => .error "compiler: kafka sink configuration is required"
  | some k => do
    failIf k.brokers.isEmpty "compiler: kafka sink requires at least one broker"
    failIf (k.topic = "") "compiler: kafka sink requires a topic"
    compileAcks host k.acks
    compileSerializer host k.serialize
    compileFailurePolicy host k.onError
    compileOption (compileSASL host) k.sasl

def compileTxnKafkaSink (host : Host) : Option TxnKafkaSinkSpec → Except String Unit
  | none => .error "compiler: transactional kafka sink configuration is required"
  | some t => do
    failIf t.brokers.isEmpty "compiler: transactional kafka sink requires at least one broker"
    failIf (t.topic = "") "compiler: transactional kafka sink requires a topic"
    failIf (t.transactionalID = "") "compiler: transactional kafka sink requires a transactionalID"
    compileSerializer host t.serialize
    compileOption (compileSASL host) t.sasl

/-- The first entry of a list that is refused. -/
def refuse (bad : String → Bool) (msg : String → String) (cols : List String) :
    Except String Unit :=
  match cols.find? bad with
  | none => .ok ()
  | some col => .error (msg col)

def validateColumnList (label : String) : List String → Except String Unit :=
  refuse (fun col => !matchesColumn col.toList) fun col => "compiler: unsafe " ++ label ++ " " ++
    quoted col

/-- `BuildPostgresMapper`; Go looks at the entries in any order. -/
def buildPostgresMapper (table : String) (mapping : GoMap String) : Except String Unit := do
  failIf (!matchesTable table.toList) ("compiler: unsafe postgres table name " ++ quoted table)
  mapping.entries.forM fun e => do
    failIf (e.1 = "") "compiler: postgres mapping has an empty field name"
    failIf (!matchesColumn e.2.toList) ("compiler: unsafe postgres column name " ++ quoted e.2)

def compilePostgresSink (host : Host) : Option PostgresSinkSpec → Except String Unit
  | none => .error "compiler: postgres sink configuration is required"
  | some p => do
    failIf (p.dsn = "") "compiler: postgres sink requires a dsn"
    failIf (hasReference p.dsn.toList)
      "compiler: postgres sink dsn contains an unresolved secret reference"
    failIf (p.table = "") "compiler: postgres sink requires a table"
    failIf (!matchesTable p.table.toList)
      ("compiler: unsafe postgres table name " ++ quoted p.table)
    failIf p.mapping.entries.isEmpty
      "compiler: postgres sink requires a non-empty field→column mapping"
    failIf (p.mode ∉ ["", "insert", "upsert"])
      ("compiler: unsupported postgres mode " ++ quoted p.mode ++ " (insert or upsert)")
    validateColumnList "postgres conflict column" p.conflictColumns
    validateColumnList "postgres update column" p.updateColumns
    failIf (p.mode = "upsert" && p.conflictColumns.isEmpty)
      "compiler: postgres upsert requires at least one conflict column"
    failIf (p.mode ≠ "upsert" && (!p.conflictColumns.isEmpty || !p.updateColumns.isEmpty))
      "compiler: postgres conflict/update columns require upsert mode"
    refuse (fun _ => true) (fun col => "compiler: postgres conflict column " ++ quoted col ++
      " is not present in mapping") (unmappedColumns p.mapping p.conflictColumns)
    refuse (fun _ => true) (fun col => "compiler: postgres update column " ++ quoted col ++
      " is not present in mapping") (unmappedColumns p.mapping p.updateColumns)
    buildPostgresMapper p.table p.mapping
    compileFailurePolicy host p.onError

def compileSink (host : Host) (spec : SinkSpec) : Except String Unit :=
  if spec.type = "" then .error "compiler: sink type is required"
  else if spec.type = "kafka" then compileKafkaSink host spec.kafka
  else if spec.type = "txnKafka" ∨ spec.type = "transactional_kafka" then
    compileTxnKafkaSink host spec.txnKafka
  else if spec.type = "postgres" then compilePostgresSink host spec.postgres
  else if spec.type = "stdout" ∨ spec.type = "blackhole" then .ok ()
  else .error ("compiler: unsupported sink type " ++ quoted spec.type)

/-! ## The compiler (`compiler.go`) -/

inductive DeliveryGuarantee where
  | atMostOnce | atLeastOnce | exactlyOnce

/-- `deliveryGuarantee` of the compiler: what a compiled workflow provides. -/
def providedGuarantee (wf : Workflow) : DeliveryGuarantee :=
  let sinkTxn : Bool := wf.sink.type = "txnKafka" || wf.sink.type = "transactional_kafka"
  if exactlyOnceSource wf.source && sinkTxn && checkpointingOn wf.env then .exactlyOnce
  else if checkpointingOn wf.env then .atLeastOnce
  else .atMostOnce

/-- `PipelineGraph`: the types of the source and the sink, and ids and types of the steps. -/
structure PipelineGraph where
  source : String
  operators : List (String × String)
  sink : String

structure CompiledWorkflow where
  operators : List (BuiltOperator × String)
  name : String
  graph : PipelineGraph
  delivery : DeliveryGuarantee
  checkpointDir : String

inductive CompileError where
  | invalid (errs : List ValidationError)
  | failed (msg : String)

/-- An error of one of the compiler's steps. -/
def orFail {α : Type} : Except String α → Except CompileError α
  | .ok a => .ok a
  | .error e => .error (.failed e)

/-- `CompileWorkflow`. -/
def compileWorkflow (host : Host) (c : Compiler) (spec : Option Workflow) :
    Except CompileError CompiledWorkflow :=
  match spec with
  | none => .error (.failed "compiler: nil workflow")
  | some wf =>
    let errs := validate host.mkdirAll wf
    if errs ≠ [] then .error (.invalid errs)
    else do
      let wf ← orFail ((resolveSecrets c.resolve wf).mapError ("compiler: resolve secrets: " ++ ·))
      orFail (compileSource host wf.source)
      orFail (compileRuntime host wf.name c.baseDataDir wf.env)
      let operators ← orFail (applyOperators 0 wf.pipeline)
      orFail (compileSink host wf.sink)
      return {
        operators
        name := wf.name
        graph := ⟨wf.source.type, wf.pipeline.map fun op => (op.id, op.type), wf.sink.type⟩
        delivery := providedGuarantee wf
        checkpointDir := checkpointDir wf.name c.baseDataDir wf.env }

end Workflow

end Weibo
