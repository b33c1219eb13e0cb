import Weibo.ForStd.Grouping
import Weibo.ForStd.Quoting
import Weibo.Model.Record

/-!
# Writing a batch to Postgres (`sink/postgres.go`)

The flush function of the Postgres sink. `insertBatch` groups the rows of a batch by table and
columns and writes each group with one multi-value INSERT, which is tried again when it fails.

The connection pool is outside of this repository: what `Exec` returns, whether
the context is done during a pause, and what the failure policy makes of a
record are given by `PostgresEnv`.  Names and SQL texts are lists of characters.
-/

namespace Weibo

/-- How rows are written; `unset` is the empty string. -/
inductive PostgresWriteMode where
  | unset
  | insert
  | upsert
deriving DecidableEq, Repr

/-- The settings of the sink that its flush function reads. -/
structure PostgresSinkConfig where
  mode : PostgresWriteMode := .insert
  conflictCols : List (List Char) := []
  updateCols : List (List Char) := []
  maxRetries : Int := 3

/-- A mapped record waiting to be inserted. `mapRecord` declines a record without a table or
    columns, and one with a value too many or too few. -/
structure PendingRow (V : Type) where
  table : List Char
  columns : List (List Char)
  values : List V
  record : Record
  table_ne : table ≠ []
  columns_ne : columns ≠ []
  length_eq : columns.length = values.length

/-- Run the mapper on a record. -/
def mapRecord {V : Type} (mapper : Record → List Char × List (List Char) × List V) (r : Record) :
    Option (PendingRow V) :=
  let mapped := mapper r
  if h : mapped.1 ≠ [] ∧ mapped.2.1 ≠ [] ∧ mapped.2.1.length = mapped.2.2.length then
    some ⟨mapped.1, mapped.2.1, mapped.2.2, r, h.1, h.2.1, h.2.2⟩
  else none

/-- What the text of a statement is built from. -/
structure PostgresWriteQuery where
  table : List Char
  columns : List (List Char)
  rowCount : ℕ
  mode : PostgresWriteMode
  conflictColumns : List (List Char)
  updateColumns : List (List Char)

/-- The quoted name of a table, with the parts of a qualified name quoted one by one. -/
def quotePostgresTable (table : List Char) : List Char :=
  ['.'].intercalate ((table.splitOn '.').map (Quoting.quote '"'))

/-- Write a comma ahead of every entry but the first. -/
def comma (i : ℕ) : List Char := if 0 < i then [','] else []

/-- Write the placeholders of one row; the second component is the number of the next
    placeholder. -/
def writePlaceholders (cols : ℕ) (sb : List Char × ℕ) : List Char × ℕ :=
  (List.range cols).foldl
    (fun sb j => (sb.1 ++ comma j ++ '$' :: (Nat.repr sb.2).toList, sb.2 + 1)) sb

/-- Write the rows of the VALUES clause. -/
def writeRows (cols rowCount : ℕ) (sb : List Char × ℕ) : List Char × ℕ :=
  (List.range rowCount).foldl
    (fun sb i =>
      let row := writePlaceholders cols (sb.1 ++ comma i ++ ['('], sb.2)
      (row.1 ++ [')'], row.2)) sb

/-- The columns an upsert sets: the configured ones, else every inserted column that is not part of
    the conflict target. -/
def PostgresWriteQuery.updates (q : PostgresWriteQuery) : List (List Char) :=
  if q.updateColumns.isEmpty then q.columns.filter fun col => !q.conflictColumns.contains col
  else q.updateColumns

/-- The ON CONFLICT clause of an upsert. -/
def PostgresWriteQuery.onConflict (q : PostgresWriteQuery) : List Char :=
  " ON CONFLICT (".toList ++ Quoting.rawQuoteAll '"' ',' q.conflictColumns ++ ")".toList ++
    if q.updates.isEmpty then " DO NOTHING".toList
    else " DO UPDATE SET ".toList ++ [','].intercalate (q.updates.map fun col =>
      Quoting.rawQuote '"' col ++ "=EXCLUDED.".toList ++ Quoting.rawQuote '"' col)

/-- The text of a multi-value INSERT or UPSERT. The columns are put in quotes as they are. -/
def buildPostgresWriteQuery (q : PostgresWriteQuery) : List Char :=
  let mode := if q.mode = .unset then .insert else q.mode
  let head := "INSERT INTO ".toList ++ quotePostgresTable q.table ++ " (".toList ++
    Quoting.rawQuoteAll '"' ',' q.columns ++ ") VALUES ".toList
  (writeRows q.columns.length q.rowCount (head, 1)).1 ++
    if mode = .upsert then q.onConflict else []

/-- What the rows of one INSERT have in common: the table, and the columns joined with commas. -/
structure GroupKey where
  table : List Char
  columns : List Char
deriving DecidableEq, Repr

variable {V : Type}

def PendingRow.key (row : PendingRow V) : GroupKey :=
  ⟨row.table, [','].intercalate row.columns⟩

/-- A call of `insertGroupWithRetry`. -/
structure GroupInsert (V : Type) where
  table : List Char
  columns : List (List Char)
  rows : List (PendingRow V)

/-- The calls of `insertGroupWithRetry` for a batch, if none returns an error: one for each group,
    with the columns of its first row. -/
def insertGroups (rows : List (PendingRow V)) : List (GroupInsert V) :=
  (Grouping.groupBy PendingRow.key rows).members.map fun g =>
    ⟨g.1.table, (g.2.head?.map PendingRow.columns).getD [], g.2⟩

/-- What is sent to the database. -/
structure PgStatement (V : Type) where
  query : List Char
  args : List V

namespace GroupInsert

/-- The text of the statement of a group. -/
def query (cfg : PostgresSinkConfig) (g : GroupInsert V) : List Char :=
  buildPostgresWriteQuery
    { table := g.table, columns := g.columns, rowCount := g.rows.length, mode := cfg.mode
      conflictColumns := cfg.conflictCols, updateColumns := cfg.updateCols }

/-- The values of all rows, one after the other. -/
def args (g : GroupInsert V) : List V := g.rows.flatMap PendingRow.values

def statement (cfg : PostgresSinkConfig) (g : GroupInsert V) : PgStatement V :=
  ⟨g.query cfg, g.args⟩

end GroupInsert

/-- What the outside does during one flush. The first argument counts the groups, the second the
    attempts. -/
structure PostgresEnv (V : Type) where
  /-- The error of `pool.Exec`. -/
  exec : ℕ → ℕ → Option String
  /-- The error of the context if it is done during the pause after an attempt. -/
  ctxErr : ℕ → ℕ → Option String
  /-- What the failure policy returns for a record. -/
  failurePolicy : Record → Option String

/-- How the attempts of a group ended. -/
inductive Attempts where
  | inserted
  | exhausted (lastErr : Option String)
  | ctxDone (err : String)
deriving DecidableEq, Repr

/-- The attempts from `attempt` on when `left` of them remain: how many were made, and how they
    ended. -/
def runAttempts (exec ctxErr : ℕ → Option String) :
    ℕ → ℕ → Option String → ℕ × Attempts
  | 0, _, lastErr => (0, .exhausted lastErr)
  | left + 1, attempt, _ =>
    match exec attempt with
    | none => (1, .inserted)
    | some err =>
      -- no pause after the last attempt
      match if left = 0 then none else ctxErr attempt with
      | some ctx => (1, .ctxDone ctx)
      | none =>
        let rest := runAttempts exec ctxErr left (attempt + 1) (some err)
        (rest.1 + 1, rest.2)

/-- Insert a group: the statements sent, and the error returned. -/
def insertGroupWithRetry (cfg : PostgresSinkConfig) (env : PostgresEnv V) (i : ℕ)
    (g : GroupInsert V) : List (PgStatement V) × Option String :=
  let tried := runAttempts (env.exec i) (env.ctxErr i) (cfg.maxRetries + 1).toNat 0 none
  let sent := List.replicate tried.1 (g.statement cfg)
  match tried.2 with
  | .inserted => (sent, none)
  | .ctxDone err => (sent, some err)
  | .exhausted lastErr =>
    -- the failure policy sees the rows in order, up to the first error
    (sent, (g.rows.findSome? fun row => env.failurePolicy row.record).map fun ferr =>
      "postgres insert into " ++ String.ofList g.table ++ ": " ++ lastErr.getD "%!w(<nil>)" ++
        " (failure policy: " ++ ferr ++ ")")

/-- Insert the groups from number `i` on, up to the first error. -/
def insertFrom (cfg : PostgresSinkConfig) (env : PostgresEnv V) :
    ℕ → List (GroupInsert V) → List (PgStatement V) × Option String
  | _, [] => ([], none)
  | i, g :: gs =>
    let first := insertGroupWithRetry cfg env i g
    match first.2 with
    | some err =>
      (first.1, some ("postgres insert into " ++ String.ofList g.table ++ ": " ++ err))
    | none =>
      let rest := insertFrom cfg env (i + 1) gs
      (first.1 ++ rest.1, rest.2)

/-- Flush a batch: the statements sent, and the error returned. -/
def insertBatch (cfg : PostgresSinkConfig) (env : PostgresEnv V) (rows : List (PendingRow V)) :
    List (PgStatement V) × Option String :=
  insertFrom cfg env 0 (insertGroups rows)

end Weibo
