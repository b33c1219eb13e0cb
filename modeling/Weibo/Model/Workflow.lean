import Weibo.Model.FieldOperators
import Weibo.Model.Planner

/-!
# Workflows (`workflow/spec.go`, `workflow/validate.go`)

A workflow as it is written down, and the checks that it has to pass before it is compiled. All
problems are reported together, each with its place in the document. The only thing that a check
does is to create the directories that are configured; `MkdirAll` is a parameter and reports an
error if there is one.

Durations are nanoseconds. What no check and no step of the compiler reads is left out: the
labels of the operators, and the settings that are handed on to the Kafka and Postgres clients.
-/

namespace Weibo

/-! ## The document -/

namespace Workflow

structure CheckpointSpec where
  interval : Int
  dir : String := ""

structure StateSpec where
  backend : String
  dir : String := ""

structure EnvSpec where
  bufferSize : Int := 0
  checkpointing : Option CheckpointSpec := none
  state : Option StateSpec := none

structure RecordSpec where
  key : String := ""
  value : String

structure SASLSpec where
  mechanism : String
  username : String
  password : String

structure WatermarkSpec where
  maxOutOfOrderness : Int

structure KafkaSourceSpec where
  brokers : List String
  topic : String := ""
  topics : List String := []
  groupID : String := ""
  startFrom : String := ""
  exactlyOnce : Bool := false
  parallel : Bool := false
  watermark : Option WatermarkSpec := none
  deserialize : String := ""
  sasl : Option SASLSpec := none

structure SourceSpec where
  type : String
  kafka : Option KafkaSourceSpec := none
  records : List RecordSpec := []

structure FilterConfig where
  field : String
  operator : String
  value : Value := .nil

structure SelectConfig where
  fields : List String

structure RenameSpec where
  fromPath : String
  toPath : String

structure RenameConfig where
  renames : List RenameSpec

structure SetSpec where
  field : String
  value : Value

structure SetConfig where
  sets : List SetSpec

structure KeyByConfig where
  field : String
  partitions : Int := 0

structure ReduceConfig where
  function : String
  field : String := ""

structure WindowConfig where
  type : String
  size : Int := 0
  slide : Int := 0
  gap : Int := 0
  offset : Int := 0
  idleTimeout : Int := 0

structure RefConfig where
  ref : String

/-- A step of the pipeline: exactly one configuration block, the one of its type, should be
    there. -/
structure Operator where
  id : String
  type : String
  filter : Option FilterConfig := none
  selectFields : Option SelectConfig := none
  renameFields : Option RenameConfig := none
  setFields : Option SetConfig := none
  keyBy : Option KeyByConfig := none
  reduce : Option ReduceConfig := none
  window : Option WindowConfig := none
  map : Option RefConfig := none
  flatMap : Option RefConfig := none
  process : Option RefConfig := none

structure KafkaSinkSpec where
  brokers : List String
  topic : String
  acks : String := ""
  serialize : String := ""
  onError : String := ""
  sasl : Option SASLSpec := none

structure TxnKafkaSinkSpec where
  brokers : List String
  topic : String
  transactionalID : String
  serialize : String := ""
  sasl : Option SASLSpec := none

structure PostgresSinkSpec where
  dsn : String
  table : String
  mapping : GoMap String
  mode : String := ""
  conflictColumns : List String := []
  updateColumns : List String := []
  onError : String := ""

structure SinkSpec where
  type : String
  kafka : Option KafkaSinkSpec := none
  txnKafka : Option TxnKafkaSinkSpec := none
  postgres : Option PostgresSinkSpec := none

end Workflow

structure Workflow where
  name : String
  version : String := ""
  env : Option Workflow.EnvSpec := none
  source : Workflow.SourceSpec
  pipeline : List Workflow.Operator := []
  sink : Workflow.SinkSpec

namespace Workflow

/-! ## Structure -/

def supportedVersions : List String := ["", "1"]

def supportedSourceTypes : List String := ["kafka", "slice", "generator"]

def supportedSinkTypes : List String := ["kafka", "txnKafka", "postgres", "stdout", "blackhole"]

def supportedOperatorTypes : List (String × OperatorType) :=
  [("filter", .filter), ("selectFields", .selectFields), ("renameFields", .renameFields),
    ("setFields", .setFields), ("keyBy", .keyBy), ("reduce", .reduce), ("window", .window),
    ("map", .map), ("flatMap", .flatMap), ("process", .process)]

def isLetterOrDigit (c : Char) : Bool := c.isAlpha || c.isDigit

/-- The expression `^[A-Za-z0-9][A-Za-z0-9_.-]*$`. -/
def matchesName (s : String) : Bool :=
  match s.toList with
  | [] => false
  | c :: cs => isLetterOrDigit c && cs.all fun d => isLetterOrDigit d || d = '_' || d = '.' || d = '-'

/-- An error if a condition holds: `validator.add`. -/
def addIf (bad : Bool) (path msg : String) : List ValidationError := if bad then [⟨path, msg⟩] else []

/-- The names of the blocks that are there. -/
def Operator.configBlocks (op : Operator) : List String :=
  (if op.filter.isSome then ["filter"] else []) ++
    (if op.selectFields.isSome then ["selectFields"] else []) ++
    (if op.renameFields.isSome then ["renameFields"] else []) ++
    (if op.setFields.isSome then ["setFields"] else []) ++
    (if op.keyBy.isSome then ["keyBy"] else []) ++
    (if op.reduce.isSome then ["reduce"] else []) ++
    (if op.window.isSome then ["window"] else []) ++
    (if op.map.isSome then ["map"] else []) ++
    (if op.flatMap.isSome then ["flatMap"] else []) ++
    (if op.process.isSome then ["process"] else [])

/-- The step as the check of the order sees it. That check does nothing for a type it does not know,
    as for a filter. -/
def Operator.entry (op : Operator) : WorkflowOperator :=
  ⟨op.id, (supportedOperatorTypes.lookup op.type).getD .filter⟩

def Operator.path (i : ℕ) (op : Operator) : String := opPath i op.entry

/-- The id of step number `i`, when the ids of the steps before it are `ids`. -/
def idErrors (ids : List (String × ℕ)) (i : ℕ) (op : Operator) : List ValidationError :=
  if op.id = "" then [⟨op.path i, "operator id is required"⟩]
  else
    match ids.lookup op.id with
    | some prev => [⟨op.path i, "duplicate operator id " ++ quoted op.id ++
        " (also used by pipeline[" ++ toString prev ++ "])"⟩]
    | none => []

/-- The type of step number `i` and its block. -/
def blockErrors (i : ℕ) (op : Operator) : List ValidationError :=
  if op.type = "" then [⟨op.path i, "operator type is required"⟩]
  else if (supportedOperatorTypes.lookup op.type).isNone then
    [⟨op.path i, "unsupported operator type " ++ quoted op.type⟩]
  else
    match op.configBlocks with
    | [] => [⟨op.path i, "operator type " ++ quoted op.type ++ " requires a " ++ quoted op.type ++
        " config block"⟩]
    | [block] =>
      addIf (block ≠ op.type) (op.path i)
        ("operator type " ++ quoted op.type ++ " does not match config block " ++ quoted block)
    | blocks => [⟨op.path i, "operator has multiple config blocks [" ++ " ".intercalate blocks ++
        "] (expected only " ++ quoted op.type ++ ")"⟩]

/-- The loop of `structural` over the pipeline. -/
def stepErrors (ids : List (String × ℕ)) (i : ℕ) : List Operator → List ValidationError
  | [] => []
  | op :: ops =>
    let ids' := if op.id = "" ∨ (ids.lookup op.id).isSome then ids else ids ++ [(op.id, i)]
    idErrors ids i op ++ blockErrors i op ++ stepErrors ids' (i + 1) ops

def structural (wf : Workflow) : List ValidationError :=
  addIf (wf.version ∉ supportedVersions) "version"
    ("unsupported workflow version " ++ quoted wf.version ++ " (supported: empty or \"1\")") ++
  (if wf.name = "" then [⟨"name", "workflow name is required"⟩]
    else addIf (!matchesName wf.name) "name"
      ("invalid workflow name " ++ quoted wf.name ++ " (letters, digits, and _.- only)")) ++
  (if wf.source.type = "" then [⟨"source", "source is required"⟩]
    else addIf (wf.source.type ∉ supportedSourceTypes) "source.type"
      ("unsupported source type " ++ quoted wf.source.type)) ++
  (if wf.sink.type = "" then [⟨"sink", "sink is required"⟩]
    else addIf (wf.sink.type ∉ supportedSinkTypes) "sink.type"
      ("unsupported sink type " ++ quoted wf.sink.type)) ++
  stepErrors [] 0 wf.pipeline

/-! ## Configuration -/

/-- `os.MkdirAll`: the error, if there is one. -/
abbrev MkdirAll := String → Option String

def ensureDir (mkdirAll : MkdirAll) (path dir : String) : List ValidationError :=
  match mkdirAll dir with
  | none => []
  | some err => [⟨path, "directory " ++ quoted dir ++ " cannot be created: " ++ err⟩]

def envConfig (mkdirAll : MkdirAll) : Option EnvSpec → List ValidationError
  | none => []
  | some env =>
    addIf (env.bufferSize < 0) "env.bufferSize" "buffer size must not be negative" ++
    (match env.checkpointing with
      | none => []
      | some c =>
        addIf (c.interval ≤ 0) "env.checkpointing.interval"
          "checkpoint interval must be greater than zero" ++
        if c.dir ≠ "" then ensureDir mkdirAll "env.checkpointing.dir" c.dir else []) ++
    match env.state with
    | none => []
    | some s =>
      if s.backend = "memory" then []
      else if s.backend = "pebble" then
        if s.dir ≠ "" then ensureDir mkdirAll "env.state.dir" s.dir else []
      else if s.backend = "" then
        [⟨"env.state.backend", "a backend is required (memory or pebble)"⟩]
      else [⟨"env.state.backend", "unsupported state backend " ++ quoted s.backend ++
        " (memory or pebble)"⟩]

def sourceConfig (src : SourceSpec) : List ValidationError :=
  if src.type ≠ "kafka" then []
  else
    match src.kafka with
    | none => [⟨"source.kafka", "kafka source configuration is required"⟩]
    | some k =>
      addIf k.brokers.isEmpty "source.kafka.brokers" "at least one broker is required" ++
      addIf (k.topic = "" && k.topics.isEmpty) "source.kafka.topic"
        "a topic (or topics) is required" ++
      addIf (k.parallel && k.groupID ≠ "") "source.kafka"
        "parallel and groupID are mutually exclusive" ++
      match k.watermark with
      | none => []
      | some w => addIf (w.maxOutOfOrderness ≤ 0) "source.kafka.watermark.maxOutOfOrderness"
          "must be greater than zero"

/-- The columns of a list that are not in the mapping. -/
def unmappedColumns (mapping : GoMap String) (cols : List String) : List String :=
  cols.filter fun col => col ∉ mapping.entries.map Sigma.snd

def postgresConfig (path : String) (p : PostgresSinkSpec) : List ValidationError :=
  addIf (p.dsn = "") (path ++ ".postgres.dsn") "a dsn is required" ++
  addIf (p.table = "") (path ++ ".postgres.table") "a table is required" ++
  addIf p.mapping.entries.isEmpty (path ++ ".postgres.mapping")
    "a non-empty field→column mapping is required" ++
  (if p.mode = "" ∨ p.mode = "insert" then
    addIf (!p.conflictColumns.isEmpty || !p.updateColumns.isEmpty) (path ++ ".postgres.mode")
      "conflict/update columns require upsert mode"
    else if p.mode = "upsert" then
      addIf p.conflictColumns.isEmpty (path ++ ".postgres.conflictColumns")
        "upsert requires at least one conflict column"
    else [⟨path ++ ".postgres.mode", "unsupported postgres mode " ++ quoted p.mode ++
      " (insert or upsert)"⟩]) ++
  (unmappedColumns p.mapping p.conflictColumns).map (fun col =>
    ⟨path ++ ".postgres.conflictColumns", "conflict column " ++ quoted col ++
      " is not present in mapping"⟩) ++
  (unmappedColumns p.mapping p.updateColumns).map (fun col =>
    ⟨path ++ ".postgres.updateColumns", "update column " ++ quoted col ++
      " is not present in mapping"⟩)

def sinkConfig (path : String) (snk : SinkSpec) : List ValidationError :=
  if snk.type = "kafka" then
    match snk.kafka with
    | none => [⟨path ++ ".kafka", "kafka sink configuration is required"⟩]
    | some k =>
      addIf k.brokers.isEmpty (path ++ ".kafka.brokers") "at least one broker is required" ++
      addIf (k.topic = "") (path ++ ".kafka.topic") "a topic is required"
  else if snk.type = "txnKafka" then
    match snk.txnKafka with
    | none => [⟨path ++ ".txnKafka", "transactional kafka sink configuration is required"⟩]
    | some k =>
      addIf k.brokers.isEmpty (path ++ ".txnKafka.brokers") "at least one broker is required" ++
      addIf (k.topic = "") (path ++ ".txnKafka.topic") "a topic is required" ++
      addIf (k.transactionalID = "") (path ++ ".txnKafka.transactionalID")
        "a transactional id is required for transactional Kafka"
  else if snk.type = "postgres" then
    match snk.postgres with
    | none => [⟨path ++ ".postgres", "postgres sink configuration is required"⟩]
    | some p => postgresConfig path p
  else []

def windowConfig (path : String) (w : WindowConfig) : List ValidationError :=
  if w.type = "" then
    [⟨path ++ ".type", "a window type is required (tumbling, sliding, or session)"⟩]
  else if w.type = "tumbling" then
    addIf (w.size ≤ 0) (path ++ ".size") "window size must be greater than zero"
  else if w.type = "sliding" then
    addIf (w.size ≤ 0) (path ++ ".size") "window size must be greater than zero" ++
    addIf (w.slide ≤ 0) (path ++ ".slide") "window slide must be greater than zero" ++
    addIf (0 < w.size && 0 < w.slide && w.size < w.slide) (path ++ ".slide")
      "window slide must be less than or equal to size"
  else if w.type = "session" then
    addIf (w.gap ≤ 0) (path ++ ".gap") "session gap must be greater than zero"
  else [⟨path ++ ".type", "unsupported window type " ++ quoted w.type⟩]

def reduceConfig (path : String) (r : ReduceConfig) : List ValidationError :=
  if r.function = "count" then []
  else if r.function = "sum" then addIf (r.field = "") (path ++ ".field") "sum requires a field"
  else if r.function = "" then
    [⟨path ++ ".function", "a function is required (count or sum)"⟩]
  else [⟨path ++ ".function", "unsupported reduce function " ++ quoted r.function ++
    " (count or sum)"⟩]

def refConfig (path : String) (r : RefConfig) : List ValidationError :=
  addIf (r.ref = "") (path ++ ".ref") "a function ref is required"

/-- A configuration block. -/
inductive Block where
  | filter (cfg : FilterConfig)
  | selectFields (cfg : SelectConfig)
  | renameFields (cfg : RenameConfig)
  | setFields (cfg : SetConfig)
  | keyBy (cfg : KeyByConfig)
  | reduce (cfg : ReduceConfig)
  | window (cfg : WindowConfig)
  | process (cfg : RefConfig)
  | map (cfg : RefConfig)
  | flatMap (cfg : RefConfig)

/-- The block of a step: the first one that is there, in the order in which `configuration` and the
    compiler look for it. -/
def Operator.block (op : Operator) : Option Block :=
  (op.filter.map .filter).or <| (op.selectFields.map .selectFields).or <|
  (op.renameFields.map .renameFields).or <| (op.setFields.map .setFields).or <|
  (op.keyBy.map .keyBy).or <| (op.reduce.map .reduce).or <| (op.window.map .window).or <|
  (op.process.map .process).or <| (op.map.map .map).or (op.flatMap.map .flatMap)

def blockConfig (path : String) : Block → List ValidationError
  | .filter f =>
    addIf (f.field = "") (path ++ ".filter.field") "a field is required" ++
    addIf (f.operator = "") (path ++ ".filter.operator") "an operator is required"
  | .selectFields s =>
    addIf s.fields.isEmpty (path ++ ".selectFields.fields") "at least one field is required"
  | .renameFields r =>
    addIf r.renames.isEmpty (path ++ ".renameFields.renames") "at least one rename is required"
  | .setFields s =>
    addIf s.sets.isEmpty (path ++ ".setFields.sets") "at least one set is required"
  | .keyBy k =>
    addIf (k.field = "") (path ++ ".keyBy.field") "a key field is required" ++
    addIf (k.partitions < 0) (path ++ ".keyBy.partitions") "partitions must not be negative"
  | .reduce r => reduceConfig (path ++ ".reduce") r
  | .window w => windowConfig (path ++ ".window") w
  | .process r => refConfig (path ++ ".process") r
  | .map r => refConfig (path ++ ".map") r
  | .flatMap r => refConfig (path ++ ".flatMap") r

/-- The loop of `configuration` over the pipeline. -/
def pipelineConfig (i : ℕ) : List Operator → List ValidationError
  | [] => []
  | op :: ops =>
    (match op.block with
      | none => []
      | some block => blockConfig (op.path i) block) ++ pipelineConfig (i + 1) ops

def configuration (mkdirAll : MkdirAll) (wf : Workflow) : List ValidationError :=
  envConfig mkdirAll wf.env ++ sourceConfig wf.source ++ sinkConfig "sink" wf.sink ++
    pipelineConfig 0 wf.pipeline

/-! ## Delivery guarantee -/

def exactlyOnceSource (src : SourceSpec) : Bool :=
  src.type = "kafka" && src.kafka.any KafkaSourceSpec.exactlyOnce

def checkpointingOn (env : Option EnvSpec) : Bool :=
  (env.bind EnvSpec.checkpointing).any fun c => 0 < c.interval

def deliveryGuarantee (wf : Workflow) : List ValidationError :=
  let srcEO := exactlyOnceSource wf.source
  let sinkTxn : Bool := wf.sink.type = "txnKafka"
  if !srcEO && !sinkTxn then []
  else
    addIf (!srcEO) "source" "exactly-once requires a Kafka source with exactlyOnce: true" ++
    addIf (!sinkTxn) "sink" "exactly-once requires a txnKafka (transactional) sink" ++
    addIf (!checkpointingOn wf.env) "env.checkpointing"
      "exactly-once requires checkpointing to be enabled with a positive interval"

/-- `Validate`: every problem of a workflow. -/
def validate (mkdirAll : MkdirAll) (wf : Workflow) : List ValidationError :=
  structural wf ++ configuration mkdirAll wf ++
    pipelineErrors 0 false false (wf.pipeline.map Operator.entry) ++ deliveryGuarantee wf

end Workflow

end Weibo
