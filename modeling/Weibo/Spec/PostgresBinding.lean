import Weibo.Model.PostgresSink

/-!
# Which column a value of a Postgres batch is bound to

A statement reads as an INSERT into some columns if its text is that of the quoted column names,
with every quote inside a name doubled (`Reads`). The sink writes the columns of the first row of a
group, and between quotes as they are. So every value is bound to its own column exactly if the rows
of a group really have the same columns, and no column name contains a quote
(`bindsOwnColumns_iff`). A group is made of the rows with the same table and the same columns joined
with commas, and the join forgets where a comma comes from.

The loops that number the placeholders are replaced by a closed form first
(`writeRows_eq`).
-/

namespace Weibo

open List

/-! ## The text of a statement -/

/-- The placeholder of column `c` in row `r`. -/
def placeholder (cols r c : ℕ) : List Char := '$' :: (Nat.repr (r * cols + c + 1)).toList

/-- The VALUES clause of `rowCount` rows. -/
def valuesClause (cols rowCount : ℕ) : List Char :=
  [','].intercalate ((List.range rowCount).map fun r =>
    '(' :: [','].intercalate ((List.range cols).map fun c => placeholder cols r c) ++ [')'])

theorem intercalate_concat (l : List (List Char)) (a : List Char) :
    [','].intercalate (l ++ [a]) = [','].intercalate l ++ comma l.length ++ a := by
  induction l with
  | nil => simp [intercalate, comma]
  | cons b l ih =>
    cases l with
    | nil => simp [intercalate, comma]
    | cons b' l =>
      simp only [intercalate, cons_append, comma] at ih ⊢
      simp [intersperse] at ih ⊢
      exact ih

theorem writePlaceholders_eq (cols : ℕ) (sb : List Char) (n : ℕ) : writePlaceholders cols (sb, n) =
      (sb ++ [','].intercalate ((range cols).map fun c => '$' :: (Nat.repr (n + c)).toList),
        n + cols) := by
  unfold writePlaceholders
  induction cols with
  | zero => simp [intercalate]
  | succ cols ih =>
    rw [range_succ, foldl_append, ih, map_append, map_cons, map_nil, intercalate_concat]
    simp only [foldl_cons, foldl_nil, length_map, length_range, append_assoc]
    rfl

/-- The loops write the VALUES clause. -/
theorem writeRows_eq (cols rowCount : ℕ) (sb : List Char) : writeRows cols rowCount (sb, 1) =
      (sb ++ valuesClause cols rowCount, rowCount * cols + 1) := by
  unfold writeRows valuesClause
  induction rowCount with
  | zero => simp [intercalate]
  | succ n ih =>
    rw [range_succ, foldl_append, ih, map_append, map_cons, map_nil, intercalate_concat]
    simp only [foldl_cons, foldl_nil, writePlaceholders_eq, length_map,
      length_range, append_assoc, Prod.mk.injEq]
    refine ⟨?_, by rw [Nat.succ_mul]; omega⟩
    simp [placeholder, Nat.add_right_comm _ 1]

/-- The text up to the list of columns. -/
def insertHead (parts : List (List Char)) : List Char :=
  "INSERT INTO ".toList ++ Quoting.quoteAll '"' '.' parts ++ " (".toList

/-- The text is that of an INSERT into the given columns of the table with the given parts of its
    name, with placeholders for `rowCount` rows; a clause may follow. -/
def Reads (query : List Char) (parts columns : List (List Char)) (rowCount : ℕ) : Prop :=
  ∃ rest, query = insertHead parts ++ (Quoting.quoteAll '"' ',' columns ++
    ')' :: (" VALUES ".toList ++ valuesClause columns.length rowCount ++ rest))

/-- The text of a statement, with its columns between quotes as they are. -/
theorem buildPostgresWriteQuery_eq (q : PostgresWriteQuery) :
    ∃ rest, buildPostgresWriteQuery q = insertHead (q.table.splitOn '.') ++
      (Quoting.rawQuoteAll '"' ',' q.columns ++
        ')' :: (" VALUES ".toList ++ valuesClause q.columns.length q.rowCount ++ rest)) := by
  unfold buildPostgresWriteQuery insertHead
  dsimp only
  rw [writeRows_eq]
  refine ⟨if (if q.mode = .unset then .insert else q.mode) = PostgresWriteMode.upsert then
    q.onConflict else [], ?_⟩
  rw [show ") VALUES ".toList = ')' :: " VALUES ".toList from rfl]
  simp only [append_assoc, cons_append]
  rfl

/-- A statement reads as one into the columns it was built for exactly if none of them contains a
    quote. -/
theorem reads_own_iff (q : PostgresWriteQuery) :
    Reads (buildPostgresWriteQuery q) (q.table.splitOn '.') q.columns q.rowCount ↔
      ∀ col ∈ q.columns, '"' ∉ col := by
  obtain ⟨rest, hq⟩ := buildPostgresWriteQuery_eq q
  constructor
  · rintro ⟨rest', hreads⟩
    have h := append_cancel_left (hq.symm.trans hreads)
    exact Quoting.quote_notMem_of_rawQuoteAll (by decide) (by decide) h
  · intro hcols
    exact ⟨rest, by rw [hq, Quoting.rawQuoteAll_of_notMem hcols]⟩

/-- A text reads in one way only. -/
theorem reads_unique {query : List Char} {parts columns columns' : List (List Char)} {n n' : ℕ}
    (hne : columns ≠ []) (hne' : columns' ≠ []) (h : Reads query parts columns n)
    (h' : Reads query parts columns' n') : columns = columns' := by
  obtain ⟨rest, hq⟩ := h
  obtain ⟨rest', hq'⟩ := h'
  exact Quoting.quoteAll_inj (by decide) (by decide) (by decide) hne hne'
    (append_cancel_left (hq.symm.trans hq'))

/-! ## The groups -/

variable {V : Type} {rows : List (PendingRow V)}

/-- Every row of a batch is in exactly one statement, which keeps the order of its rows; the
    statement is an INSERT into the table and the columns of each of its rows; and the argument at
    the placeholder of column `c` in row `r` is that value of the row. -/
structure BindsOwnColumns (cfg : PostgresSinkConfig) (rows : List (PendingRow V)) : Prop where
  partition : Partitions rows ((insertGroups rows).map GroupInsert.rows)
  names : ∀ g ∈ insertGroups rows, ∀ row ∈ g.rows,
    Reads (g.query cfg) (row.table.splitOn '.') row.columns g.rows.length
  args : ∀ g ∈ insertGroups rows, ∀ (r : ℕ) (row : PendingRow V), g.rows[r]? = some row →
    ∀ c < row.columns.length, g.args[r * row.columns.length + c]? = row.values[c]?

/-- What a group is. -/
theorem mem_insertGroups {g : GroupInsert V} (h : g ∈ insertGroups rows) :
    ∃ first rest, g.rows = first :: rest ∧ g.columns = first.columns ∧ g.table = first.table ∧
      g.rows = rows.filter fun row => row.key = first.key := by
  unfold insertGroups at h
  rw [Grouping.groupBy_members, map_map] at h
  obtain ⟨k, hk, rfl⟩ := mem_map.mp h
  obtain ⟨row, hrow, rfl⟩ := mem_map.mp (((Grouping.groupBy_order _ _).2 k).mp hk)
  dsimp only [Function.comp]
  cases hrows : rows.filter fun a => a.key = row.key with
  | nil =>
    -- the group of a row is not empty
    have hmem : row ∈ rows.filter fun a => a.key = row.key := by simp [hrow]
    rw [hrows] at hmem
    cases hmem
  | cons first rest =>
    have hfirst : first ∈ rows.filter fun a => a.key = row.key := by
      rw [hrows]
      exact mem_cons_self
    have hkey : first.key = row.key := by simpa using (mem_filter.mp hfirst).2
    refine ⟨first, rest, rfl, rfl, ?_, ?_⟩
    · exact (congrArg GroupKey.table hkey).symm
    · rw [hkey, hrows]

/-- Every row has a group. -/
theorem exists_insertGroup {row : PendingRow V} (h : row ∈ rows) :
    ∃ g ∈ insertGroups rows, g.rows = rows.filter fun a => a.key = row.key := by
  unfold insertGroups
  rw [Grouping.groupBy_members, map_map]
  refine ⟨_, mem_map_of_mem (a := row.key) ?_, rfl⟩
  exact ((Grouping.groupBy_order _ _).2 _).mpr (mem_map_of_mem h)

theorem insertGroups_partitions (rows : List (PendingRow V)) :
    Partitions rows ((insertGroups rows).map GroupInsert.rows) := by
  have h := Grouping.groupBy_partitions PendingRow.key rows
  unfold insertGroups
  rw [map_map]
  exact h

/-- Lists of one length put together. -/
theorem getElem?_flatMap {α β : Type*} {f : α → List β} {n : ℕ} {l : List α}
    (hlen : ∀ a ∈ l, (f a).length = n) {r c : ℕ} {a : α} (hr : l[r]? = some a) (hc : c < n) :
    (l.flatMap f)[r * n + c]? = (f a)[c]? := by
  induction l generalizing r with
  | nil => cases hr
  | cons b l ih =>
    have hb : (f b).length = n := hlen b mem_cons_self
    rw [flatMap_cons]
    cases r with
    | zero =>
      obtain rfl : b = a := Option.some.inj hr
      rw [Nat.zero_mul, Nat.zero_add, getElem?_append_left (by omega)]
    | succ r =>
      have hsplit : (r + 1) * n + c = (f b).length + (r * n + c) := by
        rw [hb, Nat.succ_mul]
        omega
      rw [hsplit, getElem?_append_right (Nat.le_add_right ..), Nat.add_sub_cancel_left]
      exact ih (fun a ha => hlen a (mem_cons_of_mem b ha)) hr

/-- If a batch is bound as it should be, the rows of a group have the columns of its first row, and
    no quotes in them. -/
theorem BindsOwnColumns.group {cfg : PostgresSinkConfig} (h : BindsOwnColumns cfg rows)
    {g : GroupInsert V} (hg : g ∈ insertGroups rows) {row : PendingRow V} (hrow : row ∈ g.rows) :
    row.columns = g.columns ∧ ∀ col ∈ g.columns, '"' ∉ col := by
  obtain ⟨first, rest, hrows, hcols, htable, hfilter⟩ := mem_insertGroups hg
  have hfirst : first ∈ g.rows := by rw [hrows]; exact mem_cons_self
  have hreads := h.names g hg first hfirst
  rw [← hcols, ← htable] at hreads
  have htable' : row.table = g.table := by
    rw [hfilter] at hrow
    have hkey : row.key = first.key := by simpa using (mem_filter.mp hrow).2
    rw [htable]
    exact congrArg GroupKey.table hkey
  have hreads' := h.names g hg row hrow
  rw [htable'] at hreads'
  have hne : g.columns ≠ [] := by rw [hcols]; exact first.columns_ne
  exact ⟨reads_unique row.columns_ne hne hreads' hreads, (reads_own_iff _).mp hreads⟩

/-- Two rows of a batch with the same key have the same columns. -/
theorem BindsOwnColumns.columns_eq {cfg : PostgresSinkConfig}
    (h : BindsOwnColumns cfg rows) {row row' : PendingRow V} (hrow : row ∈ rows)
    (hrow' : row' ∈ rows) (hkey : row.key = row'.key) : row.columns = row'.columns := by
  obtain ⟨g, hg, hrows⟩ := exists_insertGroup hrow
  have hmem : row ∈ g.rows := by simp [hrows, hrow]
  have hmem' : row' ∈ g.rows := by simp [hrows, hrow', hkey]
  rw [(h.group hg hmem).1, (h.group hg hmem').1]

/-- A batch binds every value to its own column exactly if rows with the same table and the same
    columns joined with commas have the same columns, and no column name contains a quote. -/
theorem bindsOwnColumns_iff (cfg : PostgresSinkConfig) (rows : List (PendingRow V)) :
    BindsOwnColumns cfg rows ↔
      (∀ row ∈ rows, ∀ row' ∈ rows, row.table = row'.table →
        [','].intercalate row.columns = [','].intercalate row'.columns →
          row.columns = row'.columns) ∧
      ∀ row ∈ rows, ∀ col ∈ row.columns, '"' ∉ col := by
  constructor
  · intro h
    refine ⟨fun row hrow row' hrow' htable hjoin => ?_, fun row hrow col hcol => ?_⟩
    · refine h.columns_eq hrow hrow' ?_
      rw [PendingRow.key, PendingRow.key, htable, hjoin]
    · obtain ⟨g, hg, hrows⟩ := exists_insertGroup hrow
      have hmem : row ∈ g.rows := by simp [hrows, hrow]
      obtain ⟨hcols, hquotes⟩ := h.group hg hmem
      exact hquotes col (hcols ▸ hcol)
  · rintro ⟨hsame, hquotes⟩
    -- all rows of a group have its columns
    have hgroup : ∀ g ∈ insertGroups rows, ∀ row ∈ g.rows,
        row ∈ rows ∧ row.columns = g.columns ∧ row.table = g.table := by
      intro g hg row hrow
      obtain ⟨first, rest, hrows, hcols, htable, hfilter⟩ := mem_insertGroups hg
      have hfirst : first ∈ g.rows := by rw [hrows]; exact mem_cons_self
      rw [hfilter] at hrow hfirst
      obtain ⟨hin, hkey⟩ := mem_filter.mp hrow
      have hkey : row.key = first.key := by simpa using hkey
      refine ⟨hin, ?_, ?_⟩
      · rw [hcols]
        exact hsame row hin first (mem_filter.mp hfirst).1 (congrArg GroupKey.table hkey)
          (congrArg GroupKey.columns hkey)
      · rw [htable]
        exact congrArg GroupKey.table hkey
    refine ⟨insertGroups_partitions rows, fun g hg row hrow => ?_, fun g hg r row hr c hc => ?_⟩
    · obtain ⟨hin, hcols, htable⟩ := hgroup g hg row hrow
      rw [hcols, htable]
      exact (reads_own_iff _).mpr (hcols ▸ hquotes row hin)
    · obtain ⟨-, hcols, -⟩ := hgroup g hg row (mem_of_getElem? hr)
      refine getElem?_flatMap (fun row' hrow' => ?_) hr hc
      rw [← row'.length_eq, (hgroup g hg row' hrow').2.1, hcols]

/-- A row with one column whose name contains a comma. -/
def latLongRow : PendingRow String where
  table := "places".toList
  columns := ["lat,long".toList]
  values := ["48.1,11.5"]
  record := {}
  table_ne := List.cons_ne_nil _ _
  columns_ne := List.cons_ne_nil _ _
  length_eq := rfl

/-- A row of the same table with two columns. -/
def latAndLongRow : PendingRow String where
  table := "places".toList
  columns := ["lat".toList, "long".toList]
  values := ["52.5", "13.4"]
  record := {}
  table_ne := List.cons_ne_nil _ _
  columns_ne := List.cons_ne_nil _ _
  length_eq := rfl

/-- Both rows go into one statement with one column, and three arguments for its two
    placeholders. -/
theorem insertBatch_mixes_columns :
    (insertGroups [latLongRow, latAndLongRow]).map
        (fun g => (g.columns.map String.ofList, g.rows.length, g.args)) =
      [(["lat,long"], 2, ["48.1,11.5", "52.5", "13.4"])] ∧
      ¬ BindsOwnColumns {} [latLongRow, latAndLongRow] := by
  refine ⟨by decide, fun h => ?_⟩
  have hcols : latLongRow.columns = latAndLongRow.columns :=
    h.columns_eq (by simp) (by simp) (by decide)
  exact absurd hcols (by decide)

end Weibo
