import Weibo.Model.WorkflowCompiler

/-!
# Configurations of compiled workflows

The field operators have checks of their own that the compiler does not make. What it does check is
in `Validate`, so a workflow that compiles has valid configurations only if it passes the rest of
these checks, too.

## Key result

- `compiled_valid_iff`: when the operators of a compiled workflow are valid
-/

namespace Weibo

open List

/-! ## The checks of the operators -/

theorem FilterConfig.validate_iff (cfg : FilterConfig) :
    cfg.validate = .ok () ↔ cfg.field ≠ "" ∧ validOp cfg.operator = true ∧
      (cfg.value = .nil → needsValue cfg.operator = false) := by
  unfold validate
  by_cases hfield : cfg.field = ""
  · simp [hfield]
  by_cases hop : validOp cfg.operator = true
  · rw [if_neg hfield, if_neg (by simp [hop])]
    split
    · rename_i hvalue
      cases hneeds : needsValue cfg.operator with
      | false => simp [hfield, hop]
      | true => simp [hvalue]
    · rename_i hvalue
      exact iff_of_true rfl ⟨hfield, hop, fun h => absurd h hvalue⟩
  · simp [hfield, hop]

theorem SelectConfig.validate_iff (cfg : SelectConfig) :
    cfg.validate = .ok () ↔ cfg.fields ≠ [] ∧ "" ∉ cfg.fields := by
  unfold validate
  split_ifs with hnil hempty
  · simp [hnil]
  · simp [hempty]
  · simp [hnil, hempty]

theorem firstRefused_eq_none {α : Type} {check : α → Bool} {l : List α} :
    firstRefused check l = none ↔ ∀ a ∈ l, check a = true := by
  simp [firstRefused, findIdx?_eq_none_iff]

theorem RenameConfig.validate_iff (cfg : RenameConfig) :
    cfg.validate = .ok () ↔
      cfg.renames ≠ [] ∧ ∀ rn ∈ cfg.renames, rn.fromPath ≠ "" ∧ rn.toPath ≠ "" := by
  unfold validate
  by_cases hnil : cfg.renames = []
  · simp [hnil]
  rw [if_neg (by simp [hnil])]
  split
  · rename_i i hi
    refine iff_of_false (by simp) fun h => ?_
    rw [firstRefused_eq_none.mpr (by simpa using h.2)] at hi
    simp at hi
  · rename_i hi
    exact iff_of_true rfl ⟨hnil, by simpa using firstRefused_eq_none.mp hi⟩

theorem SetConfig.validate_iff (cfg : SetConfig) :
    cfg.validate = .ok () ↔ cfg.sets ≠ [] ∧ ∀ s ∈ cfg.sets, s.field ≠ "" := by
  unfold validate
  by_cases hnil : cfg.sets = []
  · simp [hnil]
  rw [if_neg (by simp [hnil])]
  split
  · rename_i i hi
    refine iff_of_false (by simp) fun h => ?_
    rw [firstRefused_eq_none.mpr (by simpa using h.2)] at hi
    simp at hi
  · rename_i hi
    exact iff_of_true rfl ⟨hnil, by simpa using firstRefused_eq_none.mp hi⟩

theorem validOp_iff {op : String} : validOp op = true ↔ op ∈ compareOps.map Prod.fst :=
  NestedMap.isSome_lookup_iff

theorem needsValue_eq_false {op : String} :
    needsValue op = false ↔ op = "exists" ∨ op = "not_exists" := by
  simp only [needsValue, Bool.and_eq_false_iff, decide_eq_false_iff_not, not_not]

/-- With a supported operator there is no error. -/
theorem compareField_ne_error {op : String} (h : validOp op = true) (lib : Formats)
    (field : Option Value) (target : Value) (e : String) :
    compareField lib op field target ≠ .error e := by
  obtain ⟨o, ho⟩ := Option.isSome_iff_exists.mp h
  rw [compareField, ho]
  cases field with
  | none => cases o <;> simp
  | some v => cases o <;> simp

namespace Workflow

/-! ## Compiled workflows -/

/-- The configuration passes the check of its operator. -/
def BuiltOperator.Valid : BuiltOperator → Prop
  | .filter cfg => cfg.validate = .ok ()
  | .select cfg => cfg.validate = .ok ()
  | .rename cfg => cfg.validate = .ok ()
  | .set cfg => cfg.validate = .ok ()
  | .keyBy .. | .reduce .. | .window .. => True

/-- What a compiled workflow should have: valid configurations, with which no filter comes to an
    operator that it does not support. -/
structure CompiledValid (lib : Formats) (cw : CompiledWorkflow) : Prop where
  valid : ∀ op ∈ cw.operators, op.1.Valid
  supported : ∀ cfg label, (.filter cfg, label) ∈ cw.operators →
    ∀ r e, filterCompare lib cfg r ≠ some (.error e)

/-- What `Validate` does not check in a block: that a filter's operator is a supported one and has a
    value if it needs one, and that no field that is listed is empty. -/
def Block.Complete : Block → Prop
  | .filter f => f.operator ∈ compareOps.map Prod.fst ∧
      (f.value = .nil → f.operator = "exists" ∨ f.operator = "not_exists")
  | .selectFields s => ∀ f ∈ s.fields, f ≠ ""
  | .renameFields r => ∀ rn ∈ r.renames, rn.fromPath ≠ "" ∧ rn.toPath ≠ ""
  | .setFields s => ∀ fs ∈ s.sets, fs.field ≠ ""
  | .keyBy _ | .reduce _ | .window _ | .process _ | .map _ | .flatMap _ => True

@[simp] theorem addIf_eq_nil {bad : Bool} {path msg : String} :
    addIf bad path msg = [] ↔ bad = false := by
  unfold addIf
  split <;> simp [*]

theorem blockConfig_of_pipelineConfig {i : ℕ} {ops : List Operator}
    (h : pipelineConfig i ops = []) :
    ∀ op ∈ ops, ∀ b, op.block = some b → ∃ path, blockConfig path b = [] := by
  induction ops generalizing i with
  | nil => simp
  | cons op ops ih =>
    obtain ⟨hop, hops⟩ := append_eq_nil_iff.mp h
    intro op' hmem b hb
    cases mem_cons.mp hmem with
    | inl heq =>
      subst heq
      simp only [hb] at hop
      exact ⟨_, hop⟩
    | inr hmem => exact ih hops op' hmem b hb

theorem resolveSecrets_pipeline {resolve : String → Option String} {wf wf' : Workflow}
    (h : resolveSecrets resolve wf = .ok wf') : wf'.pipeline = wf.pipeline := by
  unfold resolveSecrets at h
  simp only [bind, Except.bind, pure, Except.pure] at h
  split at h
  · simp at h
  · split at h
    · simp at h
    · rw [← Except.ok.inj h]

/-- What has been checked and built when a workflow is compiled. -/
theorem compileWorkflow_ok {host : Host} {c : Compiler} {wf : Workflow} {cw : CompiledWorkflow}
    (h : compileWorkflow host c (some wf) = .ok cw) :
    validate host.mkdirAll wf = [] ∧ applyOperators 0 wf.pipeline = .ok cw.operators := by
  unfold compileWorkflow at h
  simp only [bind, Except.bind, pure, Except.pure] at h
  split at h
  · simp at h
  rename_i herrs
  refine ⟨not_not.mp herrs, ?_⟩
  -- all steps succeed, and only the operators are looked at
  cases hresolve : resolveSecrets c.resolve wf with
  | error e => simp [hresolve, Except.mapError, orFail] at h
  | ok wf' =>
    rw [← resolveSecrets_pipeline hresolve]
    cases hsource : compileSource host wf'.source with
    | error e => simp [hresolve, Except.mapError, orFail, hsource] at h
    | ok =>
      cases hruntime : compileRuntime host wf'.name c.baseDataDir wf'.env with
      | error e => simp [hresolve, Except.mapError, orFail, hsource, hruntime] at h
      | ok =>
        cases hoperators : applyOperators 0 wf'.pipeline with
        | error e => simp [hresolve, Except.mapError, orFail, hsource, hruntime, hoperators] at h
        | ok operators =>
          cases hsink : compileSink host wf'.sink with
          | error e =>
            simp [hresolve, Except.mapError, orFail, hsource, hruntime, hoperators, hsink] at h
          | ok =>
            simp only [hresolve, Except.mapError, orFail, hsource, hruntime, hoperators, hsink,
              Except.ok.injEq] at h
            rw [← h]

/-- The operators that are built are those of the pipeline, in order. -/
theorem applyOperators_ok {i : ℕ} {ops : List Operator} {built : List (BuiltOperator × String)}
    (h : applyOperators i ops = .ok built) :
    List.Forall₂ (fun op b => applyOperator op = .ok b.1 ∧ b.2 = op.id) ops built := by
  induction ops generalizing i built with
  | nil =>
    cases h
    exact .nil
  | cons op ops ih =>
    unfold applyOperators at h
    split at h
    · simp at h
    rename_i b hb
    cases hrest : applyOperators (i + 1) ops with
    | error e => simp [hrest, Except.map] at h
    | ok rest =>
      simp only [hrest, Except.map, Except.ok.injEq] at h
      rw [← h]
      exact .cons ⟨hb, rfl⟩ (ih hrest)

/-- What is built from a block that passes `Validate` is valid exactly if the block passes the rest
    of the checks. -/
theorem valid_iff_complete {op : Operator} {built : BuiltOperator}
    (hbuilt : applyOperator op = .ok built)
    (hconfig : ∀ b, op.block = some b → ∃ path, blockConfig path b = []) :
    built.Valid ↔ ∀ b, op.block = some b → b.Complete := by
  unfold applyOperator at hbuilt
  cases hblock : op.block with
  | none => simp [hblock] at hbuilt
  | some b =>
    obtain ⟨path, hpath⟩ := hconfig b hblock
    simp only [Option.some.injEq, forall_eq']
    rw [hblock] at hbuilt
    cases b with
    | filter f =>
      cases hbuilt
      simp only [blockConfig, append_eq_nil_iff, addIf_eq_nil, decide_eq_false_iff_not] at hpath
      simp only [BuiltOperator.Valid, FilterConfig.validate_iff, validOp_iff, needsValue_eq_false,
        Block.Complete]
      exact and_iff_right hpath.1
    | selectFields s =>
      cases hbuilt
      simp only [blockConfig, addIf_eq_nil, isEmpty_eq_false_iff] at hpath
      simp only [BuiltOperator.Valid, SelectConfig.validate_iff, Block.Complete]
      rw [and_iff_right hpath]
      exact ⟨fun h f hf hempty => h (hempty ▸ hf), fun h hmem => h "" hmem rfl⟩
    | renameFields r =>
      cases hbuilt
      simp only [blockConfig, addIf_eq_nil, isEmpty_eq_false_iff] at hpath
      simp [BuiltOperator.Valid, RenameConfig.validate_iff, Block.Complete, hpath]
    | setFields s =>
      cases hbuilt
      simp only [blockConfig, addIf_eq_nil, isEmpty_eq_false_iff] at hpath
      simp [BuiltOperator.Valid, SetConfig.validate_iff, Block.Complete, hpath]
    | keyBy k =>
      cases hbuilt
      exact Iff.rfl
    | reduce r =>
      cases hagg : buildReducer r with
      | error e => simp [hagg, Except.map] at hbuilt
      | ok agg =>
        simp only [hagg, Except.map, Except.ok.injEq] at hbuilt
        rw [← hbuilt]
        exact Iff.rfl
    | window w =>
      cases hassigner : buildWindowAssigner w with
      | error e => simp [hassigner, Except.map] at hbuilt
      | ok assigner =>
        simp only [hassigner, Except.map, Except.ok.injEq] at hbuilt
        rw [← hbuilt]
        exact Iff.rfl
    | process r => simp at hbuilt
    | map r => simp at hbuilt
    | flatMap r => simp at hbuilt

/-- The same for all steps of a pipeline. -/
theorem forall_valid_iff {ops : List Operator} {built : List (BuiltOperator × String)}
    (hbuilt : List.Forall₂ (fun op b => applyOperator op = .ok b.1 ∧ b.2 = op.id) ops built)
    (hconfig : ∀ op ∈ ops, ∀ b, op.block = some b → ∃ path, blockConfig path b = []) :
    (∀ b ∈ built, b.1.Valid) ↔ ∀ op ∈ ops, ∀ b, op.block = some b → b.Complete := by
  induction hbuilt with
  | nil => simp
  | cons hop _ ih =>
    have hstep := valid_iff_complete hop.1 (hconfig _ mem_cons_self)
    have ih := ih fun op hmem => hconfig op (mem_cons_of_mem _ hmem)
    rw [forall_mem_cons, forall_mem_cons, hstep, ih]

/-- The operators of a compiled workflow are valid exactly if its blocks pass the checks that the
    compiler does not make. -/
theorem compiled_valid_iff {host : Host} {c : Compiler} {wf : Workflow} {cw : CompiledWorkflow}
    (lib : Formats) (h : compileWorkflow host c (some wf) = .ok cw) :
    CompiledValid lib cw ↔ ∀ op ∈ wf.pipeline, ∀ b, op.block = some b → b.Complete := by
  obtain ⟨hvalidate, hbuilt⟩ := compileWorkflow_ok h
  have hconfig : pipelineConfig 0 wf.pipeline = [] := by
    simp only [validate, configuration, append_eq_nil_iff] at hvalidate
    exact hvalidate.1.1.2.2
  have hiff := forall_valid_iff (applyOperators_ok hbuilt) (blockConfig_of_pipelineConfig hconfig)
  rw [← hiff]
  refine ⟨CompiledValid.valid, fun hvalid => ⟨hvalid, fun cfg label hmem r e => ?_⟩⟩
  have hop := ((FilterConfig.validate_iff cfg).mp (hvalid _ hmem)).2.1
  unfold filterCompare
  split
  · simp
  · rw [Ne, Option.some.injEq]
    exact compareField_ne_error hop lib _ _ e

/-- A workflow that keeps the paid orders, once its filter's operator is spelled as given. -/
def paidOrders (operator : String) : Workflow where
  name := "paid-orders"
  source := { type := "slice" }
  pipeline := [{ id := "paid", type := "filter", filter := some ⟨"status", operator, .string "paid"⟩ }]
  sink := { type := "stdout" }

/-- A machine on which every directory can be created. -/
def anyHost : Host := ⟨fun _ => none, String.toLower, String.toUpper⟩

/-- With a supported operator. -/
theorem compiled_valid_equals :
    ∃ cw, compileWorkflow anyHost ⟨fun _ => none, ""⟩ (some (paidOrders "equals")) = .ok cw ∧
      ∀ lib, CompiledValid lib cw := by
  obtain ⟨cw, hcw⟩ : ∃ cw, compileWorkflow anyHost ⟨fun _ => none, ""⟩
      (some (paidOrders "equals")) = .ok cw := ⟨_, rfl⟩
  refine ⟨cw, hcw, fun lib => (compiled_valid_iff lib hcw).mpr fun op hop b hb => ?_⟩
  obtain rfl := mem_singleton.mp hop
  cases hb
  exact ⟨by decide, fun h => by simp at h⟩

/-- With an operator that does not exist the workflow compiles, and its filter drops every record
    that it can decode. -/
theorem compiled_with_unsupported_operator :
    ∃ cw, compileWorkflow anyHost ⟨fun _ => none, ""⟩ (some (paidOrders "eq")) = .ok cw ∧
      cw.operators = [(.filter ⟨"status", "eq", .string "paid"⟩, "paid")] ∧
      ¬ (Weibo.FilterConfig.mk "status" "eq" (.string "paid")).validate = .ok () ∧
      ∀ lib, ¬ CompiledValid lib cw ∧
        ∀ r data, decodeJSON r = .ok data →
          filterCompare lib ⟨"status", "eq", .string "paid"⟩ r =
            some (.error "operators: unsupported comparison operator \"eq\"") ∧
          buildFilter lib ⟨"status", "eq", .string "paid"⟩ r = false := by
  have hinvalid : ¬ (Weibo.FilterConfig.mk "status" "eq" (.string "paid")).validate = .ok () := by
    rw [FilterConfig.validate_iff]
    exact fun h => absurd h.2.1 (by decide)
  refine ⟨_, rfl, rfl, hinvalid, fun lib => ⟨fun h => ?_, fun r data hdata => ?_⟩⟩
  · exact hinvalid (h.valid _ mem_cons_self)
  · have hcompare : filterCompare lib ⟨"status", "eq", .string "paid"⟩ r =
        some (.error "operators: unsupported comparison operator \"eq\"") := by
      rw [filterCompare, hdata]
      rfl
    exact ⟨hcompare, by rw [buildFilter, hcompare]⟩

end Workflow

end Weibo
