import Weibo.Model.ObjectStore

/-!
# Records that do not influence each other

A chain leaves the objects of the records it has handled in the store. No later record refers to
them, so a run goes on as it would in a store without them, as long as the configured objects, which
all records share, are what they were. This is so if no call of `SetField` or `DeleteField` writes
into them.

## Key result

- `records_isolated`: then every record is handled as by a chain of its own
-/

namespace Weibo

open List Option Worker RefStore Nat

open RefStore (Slot Closed graft shift shiftEntries)

/-! ## Putting objects into a store -/

/-- What is put into a store refers to the store. -/
structure Added (h h' : ObjectStore) : Prop where
  closed : Closed h → Closed h'
  le : h.length ≤ h'.length
  take : ∀ c ≤ h.length, h'.take c = h.take c

theorem Added.refl (h : ObjectStore) : Added h h := ⟨id, le_refl _, fun _ _ => rfl⟩

theorem Added.trans {h h' h'' : ObjectStore} (h₁ : Added h h') (h₂ : Added h' h'') : Added h h'' :=
  ⟨fun hh => h₂.closed (h₁.closed hh), le_trans h₁.le h₂.le, fun c hc => by
    rw [h₂.take c (le_trans hc h₁.le), h₁.take c hc]⟩

theorem Added.append {h h' : ObjectStore} (hs : Added h h') {es : List (String × Slot Value)}
    (hes : Closed h → ∀ e ∈ es, e.2.Below h'.length) : Added h (h' ++ [es]) where
  closed hh := (hs.closed hh).append (hes hh)
  le := le_trans hs.le (by simp)
  take c hc := by
    rw [take_append_of_le_length (le_trans hc hs.le), hs.take c hc]

mutual

theorem storeValue_added (h : ObjectStore) (v : Value) : Added h (storeValue h v).1 ∧
      (Closed h → (storeValue h v).2.Below (storeValue h v).1.length) := by
  match v with
  | .object es =>
    obtain ⟨hs, hbelow⟩ := storeEntries_added h es
    exact ⟨hs.append hbelow, fun _ => by simp [storeValue, Slot.Below]⟩
  | .nil | .bool _ | .number _ | .int _ | .float _ | .string _ | .array _ | .other _ =>
    exact ⟨.refl h, fun _ => trivial⟩

theorem storeEntries_added (h : ObjectStore) (es : List (String × Value)) :
    Added h (storeEntries h es).1 ∧
      (Closed h → ∀ e ∈ (storeEntries h es).2, e.2.Below (storeEntries h es).1.length) := by
  match es with
  | [] => exact ⟨.refl h, fun _ e he => by simp [storeEntries] at he⟩
  | e :: es =>
    obtain ⟨hs, hbelow⟩ := storeEntry_added h e
    obtain ⟨hs', hbelow'⟩ := storeEntries_added (storeEntry h e).1 es
    refine ⟨hs.trans hs', fun hh e' he' => ?_⟩
    cases mem_cons.mp he' with
    | inl heq =>
      subst heq
      exact (hbelow hh).mono hs'.le
    | inr hmem => exact hbelow' (hs.closed hh) e' hmem

theorem storeEntry_added (h : ObjectStore) (e : String × Value) : Added h (storeEntry h e).1 ∧
      (Closed h → (storeEntry h e).2.2.Below (storeEntry h e).1.length) := by
  match e with
  | (k, v) => exact storeValue_added h v

end

/-! ## Other objects in the store -/

section Graft

variable {c : ℕ} {others h : ObjectStore}

mutual

theorem storeValue_graft {h : ObjectStore} (hc : c ≤ h.length) (v : Value) :
    storeValue (graft c others h) v =
      (graft c others (storeValue h v).1, (storeValue h v).2.shift c others.length) := by
  match v with
  | .object es =>
    have hle := le_trans hc (storeEntries_added h es).1.le
    simp only [storeValue, storeEntries_graft hc es, graft_append hle, Slot.shift, shift_length hle]
  | .nil | .bool _ | .number _ | .int _ | .float _ | .string _ | .array _ | .other _ => rfl

theorem storeEntries_graft {h : ObjectStore} (hc : c ≤ h.length) (es : List (String × Value)) :
    storeEntries (graft c others h) es =
      (graft c others (storeEntries h es).1, shiftEntries c others.length (storeEntries h es).2) := by
  match es with
  | [] => rfl
  | e :: es =>
    have hle := le_trans hc (storeEntry_added h e).1.le
    simp only [storeEntries, storeEntry_graft hc e, storeEntries_graft hle es]
    rfl

theorem storeEntry_graft {h : ObjectStore} (hc : c ≤ h.length) (e : String × Value) :
    storeEntry (graft c others h) e = (graft c others (storeEntry h e).1, (storeEntry h e).2.1,
        (storeEntry h e).2.2.shift c others.length) := by
  match e with
  | (k, v) => simp only [storeEntry, storeValue_graft hc v]

end

theorem storeObject_graft (hc : c ≤ h.length) (es : Object) : storeObject (graft c others h) es =
      (graft c others (storeObject h es).1, shift c others.length (storeObject h es).2) := by
  have hle := le_trans hc (storeEntries_added h es).1.le
  simp [storeObject, storeEntries_graft hc es, graft_append hle, shift_length hle]

theorem storeObject_added (h : ObjectStore) (es : Object) : Added h (storeObject h es).1 :=
  (storeEntries_added h es).1.append (storeEntries_added h es).2

theorem sizeOf_lt_object (es : Object) (e : String × Value) (he : e ∈ es) :
    sizeOf e.2 < sizeOf (Value.object es) := by
  have hmem := sizeOf_lt_of_mem he
  obtain ⟨k, v⟩ := e
  simp only [Prod.mk.sizeOf_spec, Value.object.sizeOf_spec] at hmem ⊢
  omega

theorem loadObject_graft (hc : c ≤ h.length) (r : ℕ) :
    loadObject (graft c others h) (shift c others.length r) = loadObject h r :=
  tree_graft id sizeOf_lt_object hc (.ref r)

theorem storeGet_graft (hc : c ≤ h.length) (r : ℕ) (path : String) :
    storeGet (graft c others h) (shift c others.length r) path =
      (storeGet h r path).map (Slot.shift c others.length) := by
  unfold storeGet
  split
  · rfl
  · exact get_graft hc r _

theorem storeSet_graft (hc : c ≤ h.length) (r : ℕ) (path : String) (s : Slot Value) :
    storeSet (graft c others h) (shift c others.length r) path (s.shift c others.length) =
      (graft c others (storeSet h r path s).1, (storeSet h r path s).2) := by
  unfold storeSet
  split
  · rfl
  · exact set_graft hc s r _

theorem storeDelete_graft (hc : c ≤ h.length) (r : ℕ) (path : String) :
    storeDelete (graft c others h) (shift c others.length r) path =
      graft c others (storeDelete h r path) := by
  unfold storeDelete
  split
  · rfl
  · exact delete_graft hc r _

theorem length_le_storeSet (h : ObjectStore) (r : ℕ) (path : String) (s : Slot Value) :
    h.length ≤ (storeSet h r path s).1.length := by
  unfold storeSet
  split
  · exact le_refl _
  · exact length_le_set s h r _

theorem length_storeDelete (h : ObjectStore) (r : ℕ) (path : String) :
    (storeDelete h r path).length = h.length := by
  unfold storeDelete
  split
  · rfl
  · exact length_delete h r _

/-- What an assignment inserts is one of the first `c` objects, if it is one. -/
def FieldOp.Below (c : ℕ) : FieldOp → Prop
  | .copy _ | .move _ => True
  | .assign _ s => s.Below c

theorem applyOp_graft (hc : c ≤ h.length) (input out : Option ℕ) {o : FieldOp} (ho : o.Below c) :
    applyOp (graft c others h) (input.map (shift c others.length)) (out.map (shift c others.length))
      o = (applyOp h input out o).map (graft c others) := by
  cases o with
  | copy field =>
    cases input with
    | none => rfl
    | some input =>
      simp only [applyOp, map_some, bind_some, storeGet_graft hc]
      cases storeGet h input field with
      | none => rfl
      | some s =>
        cases out with
        | none => rfl
        | some out => simp [storeSet_graft hc]
  | move rn =>
    cases input with
    | none => rfl
    | some input =>
      simp only [applyOp, map_some, storeGet_graft hc]
      cases storeGet h input rn.fromPath with
      | none => rfl
      | some s =>
        simp only [map_some, storeSet_graft hc]
        have hle := length_le_storeSet h input rn.toPath s
        cases hset : storeSet h input rn.toPath s with
        | mk h' ok =>
          rw [hset] at hle
          cases ok with
          | false => rfl
          | true => simp [storeDelete_graft (le_trans hc hle)]
  | assign field s =>
    cases out with
    | none =>
      simp only [applyOp, map_none]
      cases splitPath field <;> rfl
    | some out =>
      have hs : s.shift c others.length = s := Slot.shift_of_below ho _
      have hset := @storeSet_graft c others _ hc out field s
      rw [hs] at hset
      simp [applyOp, hset]

/-! ### Steps -/

def Work.shift (c g : ℕ) : Work → Work
  | .idle => .idle
  | .passing => .passing
  | .editing input out => .editing (input.map (RefStore.shift c g)) (out.map (RefStore.shift c g))

/-- A worker with other objects in its store and earlier outputs. -/
def Worker.graft (c : ℕ) (others : ObjectStore) (before : List ChainOutput) (w : Worker) :
    Worker where
  store := RefStore.graft c others w.store
  record := { w.record with parsed := w.record.parsed.map (Option.map (shift c others.length)) }
  work := w.work.shift c others.length
  outputs := before ++ w.outputs

def ChainEvent.Below (c : ℕ) : ChainEvent → Prop
  | .op o => o.Below c
  | _ => True

theorem encodeStored_graft (hc : c ≤ h.length) (marshal : Marshal) (out : Option ℕ) :
    encodeStored marshal (graft c others h) (out.map (shift c others.length)) =
      encodeStored marshal h out := by
  cases out with
  | none => rfl
  | some r => simp [encodeStored, loadObject_graft hc]

theorem parsedView_graft (hc : c ≤ h.length) (parsed : Option (Option ℕ)) :
    parsedView (graft c others h) (parsed.map (Option.map (shift c others.length))) =
      parsedView h parsed := by
  match parsed with
  | none | some none => rfl
  | some (some r) => simp [parsedView, loadObject_graft hc]

variable {w : Worker} {before : List ChainOutput}

theorem begin_graft (hc : c ≤ w.store.length) (isSelect : Bool) (input : Option ℕ) :
    (w.graft c others before).begin isSelect (input.map (shift c others.length)) =
      (w.begin isSelect input).graft c others before := by
  cases isSelect with
  | false => rfl
  | true =>
    simp only [Worker.begin, Worker.graft, if_true, Work.shift, map_some,
      shift_length hc, graft_append hc]
    rfl

/-- A step is the same one whatever else is in the store. -/
theorem step_graft (marshal : Marshal) (hc : c ≤ w.store.length) {e : ChainEvent} (he : e.Below c) :
    step marshal (w.graft c others before) e =
      (Worker.step marshal w e).map (Worker.graft c others before) := by
  cases e with
  | arrive r =>
    match hp : r.parsed with
    | some (some es) =>
      have hstore := @storeObject_graft c others _ hc es
      simp [Worker.step, hp, Worker.graft, hstore, Work.shift]
    | some none | none => simp [Worker.step, hp, Worker.graft, Work.shift]
  | start isSelect =>
    match hp : w.record.parsed with
    | some input =>
      have hp' : (w.graft c others before).record.parsed = some (input.map (shift c others.length)) :=
        by simp [Worker.graft, hp]
      simp [step, hp, hp', begin_graft hc]
    | none =>
      have hp' : (w.graft c others before).record.parsed = none := by simp [Worker.graft, hp]
      have hv : (w.graft c others before).record.value = w.record.value := rfl
      simp only [step, hp, hp', hv]
      match decodeJSONBytes w.record.value with
      | .error _ => rfl
      | .ok none => exact congrArg some (begin_graft hc isSelect none)
      | .ok (some es) =>
        have hle := le_trans hc (storeObject_added w.store es).le
        have hbegin := @begin_graft c others { w with store := (storeObject w.store es).1 } before hle
          isSelect (some (storeObject w.store es).2)
        simp only [map_some, ← hbegin]
        simp only [Worker.graft, storeObject_graft hc]
  | op o =>
    cases hw : w.work with
    | idle | passing => simp [Worker.step, hw, Worker.graft, Work.shift]
    | editing input out =>
      simp only [Worker.step, hw, Worker.graft, Work.shift, applyOp_graft hc input out he]
      cases applyOp w.store input out o <;> rfl
  | finish =>
    cases hw : w.work with
    | idle | passing => simp [Worker.step, hw, Worker.graft, Work.shift]
    | editing input out =>
      simp only [Worker.step, hw, Worker.graft, Work.shift, encodeStored_graft hc]
      cases encodeStored marshal w.store out <;> rfl
  | emit => simp [Worker.step, Worker.graft, parsedView_graft hc]

end Graft

/-! ## Configured objects -/

theorem FieldOp.Below.mono {o : FieldOp} {n m : ℕ} (h : o.Below n) (hnm : n ≤ m) : o.Below m := by
  cases o with
  | copy _ | move _ => trivial
  | assign _ s => exact Slot.Below.mono h hnm

theorem buildSets_added (h : ObjectStore) (sets : List FieldSet) : Added h (buildSets h sets).1 ∧
      (Closed h → ∀ o ∈ (buildSets h sets).2, o.Below (buildSets h sets).1.length) := by
  induction sets generalizing h with
  | nil => exact ⟨.refl h, fun _ o ho => by simp [buildSets] at ho⟩
  | cons s sets ih =>
    obtain ⟨hs, hbelow⟩ := storeValue_added h s.value
    obtain ⟨hs', hbelow'⟩ := ih (storeValue h s.value).1
    refine ⟨hs.trans hs', fun hh o ho => ?_⟩
    cases mem_cons.mp ho with
    | inl heq =>
      subst heq
      exact (hbelow hh).mono hs'.le
    | inr hmem => exact hbelow' (hs.closed hh) o hmem

theorem buildStep_added (h : ObjectStore) (step : FieldStep) : Added h (buildStep h step).1 ∧
      (Closed h → ∀ o ∈ (buildStep h step).2.ops, o.Below (buildStep h step).1.length) := by
  cases step with
  | select cfg | rename cfg =>
    refine ⟨.refl h, fun _ o ho => ?_⟩
    obtain ⟨_, _, rfl⟩ := mem_map.mp ho
    trivial
  | set cfg => exact buildSets_added h cfg.sets

theorem buildChain_added (h : ObjectStore) (chain : List FieldStep) :
    Added h (buildChain h chain).1 ∧ (Closed h →
      ∀ step ∈ (buildChain h chain).2, ∀ o ∈ step.ops, o.Below (buildChain h chain).1.length) := by
  induction chain generalizing h with
  | nil => exact ⟨.refl h, fun _ step hstep => by simp [buildChain] at hstep⟩
  | cons step chain ih =>
    obtain ⟨hs, hbelow⟩ := buildStep_added h step
    obtain ⟨hs', hbelow'⟩ := ih (buildStep h step).1
    refine ⟨hs.trans hs', fun hh step' hstep => ?_⟩
    cases mem_cons.mp hstep with
    | inl heq =>
      subst heq
      exact fun o ho => (hbelow hh o ho).mono hs'.le
    | inr hmem => exact hbelow' (hs.closed hh) step' hmem

theorem closed_nil : Closed ([] : ObjectStore) := fun es hes => by simp at hes

theorem buildChain_closed (chain : List FieldStep) : Closed (buildChain [] chain).1 :=
  (buildChain_added [] chain).1.closed closed_nil

theorem recordEvents_below (chain : List FieldStep) (r : ParsedRecord) :
    ∀ e ∈ recordEvents (buildChain [] chain).2 r, e.Below (buildChain [] chain).1.length := by
  intro e he
  have hbelow := (buildChain_added [] chain).2 closed_nil
  cases e with
  | arrive _ | start _ | finish | emit => trivial
  | op o =>
    simp only [recordEvents, mem_cons, List.mem_append, mem_flatMap, List.mem_map, reduceCtorEq,
      not_mem_nil, false_or, or_false, ChainEvent.op.injEq, exists_eq_right] at he
    obtain ⟨step, hstep, ho⟩ := he
    exact hbelow step hstep o ho

/-! ## Writes -/

/-- What becomes of a store when the objects in `targets` are written to. -/
structure Written (targets : List ℕ) (h h' : ObjectStore) : Prop where
  le : h.length ≤ h'.length
  take : ∀ c ≤ h.length, (∀ t ∈ targets, c ≤ t) → h'.take c = h.take c

theorem Written.refl (h : ObjectStore) : Written [] h h := ⟨le_refl _, fun _ _ _ => rfl⟩

theorem Written.trans {ts ts' : List ℕ} {h h' h'' : ObjectStore} (h₁ : Written ts h h')
    (h₂ : Written ts' h' h'') : Written (ts ++ ts') h h'' where
  le := le_trans h₁.le h₂.le
  take c hc ht := by
    rw [h₂.take c (le_trans hc h₁.le) fun t hmem => ht t (mem_append_right ts hmem),
      h₁.take c hc fun t hmem => ht t (mem_append_left ts' hmem)]

theorem written_storeSet (h : ObjectStore) (r : ℕ) (path : String) (s : Slot Value) :
    Written (setTarget h r path) h (storeSet h r path s).1 := by
  refine ⟨length_le_storeSet h r path s, fun c hc ht => ?_⟩
  unfold storeSet
  unfold setTarget at ht
  split
  · rfl
  · rename_i hsegs
    simp only [hsegs, mem_toList] at ht
    exact take_set hc ht

theorem written_storeDelete (h : ObjectStore) (r : ℕ) (path : String) :
    Written (deleteTarget h r path) h (storeDelete h r path) := by
  refine ⟨le_of_eq (length_storeDelete h r path).symm, fun c hc ht => ?_⟩
  unfold storeDelete
  unfold deleteTarget at ht
  split
  · rfl
  · rename_i hsegs
    simp only [hsegs, mem_toList] at ht
    exact take_delete ht

/-- An assignment writes into its targets only. -/
theorem written_applyOp {h h' : ObjectStore} {input out : Option ℕ} {o : FieldOp}
    (happly : applyOp h input out o = some h') : Written (opTargets h input out o) h h' := by
  cases o with
  | copy field =>
    simp only [applyOp] at happly
    simp only [opTargets]
    split at happly <;> cases happly
    · exact written_storeSet h _ field _
    · exact .refl h
  | move rn =>
    cases input with
    | none =>
      cases happly
      exact .refl h
    | some input =>
      simp only [applyOp] at happly
      simp only [opTargets]
      cases hget : storeGet h input rn.fromPath with
      | none =>
        simp only [hget, some.injEq] at happly
        exact happly ▸ .refl h
      | some s =>
        have hset := written_storeSet h input rn.toPath s
        cases hs : storeSet h input rn.toPath s with
        | mk h₁ ok =>
          rw [hs] at hset
          cases ok with
          | false =>
            simp only [hget, hs, some.injEq] at happly ⊢
            exact happly ▸ hset.trans (.refl h₁)
          | true =>
            simp only [hget, hs, some.injEq] at happly ⊢
            exact happly ▸ hset.trans (written_storeDelete h₁ input rn.fromPath)
  | assign field s =>
    cases out with
    | some out =>
      cases happly
      exact written_storeSet h out field s
    | none =>
      simp only [applyOp] at happly
      split at happly
      · contradiction
      · cases happly
        exact .refl h
      · contradiction

theorem Added.written {h h' : ObjectStore} (hs : Added h h') : Written [] h h' :=
  ⟨hs.le, fun c hc _ => hs.take c hc⟩

theorem begin_written (w : Worker) (isSelect : Bool) (input : Option ℕ) :
    Written [] w.store (w.begin isSelect input).store := by
  cases isSelect with
  | false => exact .refl _
  | true => exact ((Added.refl w.store).append fun _ e he => by simp at he).written

variable {w w' : Worker}

theorem step_written {marshal : Marshal} {e : ChainEvent}
    (hstep : step marshal w e = some w') : Written (stepTargets w e) w.store w'.store := by
  revert hstep
  fun_cases step marshal w e <;> intro hstep <;> try cases hstep
  case case1.refl => exact (storeObject_added w.store _).written
  case case4.refl | case6.refl => exact begin_written w _ _
  case case7.refl isSelect _ es _ _ =>
    have hbegin := begin_written { w with store := (storeObject w.store es).1 } isSelect
      (some (storeObject w.store es).2)
    exact (storeObject_added w.store es).written.trans hbegin
  case case8 hw =>
    obtain ⟨h', happly, rfl⟩ := map_eq_some_iff.mp hstep
    simp only [stepTargets, hw]
    exact written_applyOp happly
  case case9.refl hw =>
    rw [stepTargets]
    split
    · exact absurd ‹_› (hw _ _)
    · exact .refl _
  all_goals exact .refl _

/-! ## Runs -/

section Runs

variable (marshal : Marshal)

theorem exec_graft {c : ℕ} (others : ObjectStore) (before : List ChainOutput)
    (hc : c ≤ w.store.length) {es : List ChainEvent} (hes : ∀ e ∈ es, e.Below c) :
    Run.exec (step marshal) (w.graft c others before) es =
      (Run.exec (step marshal) w es).map (graft c others before) := by
  induction es generalizing w with
  | nil => rfl
  | cons e es ih =>
    have he := hes e mem_cons_self
    rw [Run.exec_cons, Run.exec_cons, step_graft marshal hc he]
    cases hstep : step marshal w e with
    | none => rfl
    | some w' =>
      have hle := (step_written hstep).le
      exact ih (le_trans hc hle) fun e' he' => hes e' (mem_cons_of_mem e he')

variable {marshal} {chain : List FieldStep}

/-- The configured objects stay in place as long as no step writes into them. -/
theorem exec_store {store : ObjectStore} {es : List ChainEvent} (hw : store <+: w.store)
    (hspares : Run.Along (step marshal) (Spares store.length) w es)
    (hexec : Run.exec (step marshal) w es = some w') : store <+: w'.store := by
  refine Run.exec_invariant_along (I := fun w => store <+: w.store)
    (fun w e w' hw hsp hstep => ?_) hw hspares hexec
  have htake := (step_written hstep).take store.length hw.length_le hsp
  rw [prefix_iff_eq_take.mp hw, ← htake]
  exact take_prefix _ _

theorem step_arrive_congr (hstore : w.store = w'.store)
    (houtputs : w.outputs = w'.outputs) (r : ParsedRecord) :
    step marshal w (.arrive r) = step marshal w' (.arrive r) := by
  simp only [step, hstore, houtputs]

/-- A record is handled as by a chain of its own while the configured objects are in place. -/
theorem exec_recordEvents (hw : (buildChain [] chain).1 <+: w.store) (r : ParsedRecord) :
    (Run.exec (step marshal) w (recordEvents (buildChain [] chain).2 r)).map outputs =
      (chainOutputs marshal chain [r]).map (w.outputs ++ ·) := by
  obtain ⟨others, hothers⟩ := hw
  -- the objects of earlier records lie behind those of the configuration
  have hstore : w.store =
      ((freshWorker chain).graft (buildChain [] chain).1.length others w.outputs).store := by
    rw [← hothers]
    exact (graft_of_closed (buildChain_closed chain)).symm
  have hgraft := exec_graft marshal (c := (buildChain [] chain).1.length) others w.outputs
    (w := freshWorker chain) (le_refl _) (recordEvents_below chain r)
  have hcongr : Run.exec (step marshal) w (recordEvents (buildChain [] chain).2 r) =
      Run.exec (step marshal)
        ((freshWorker chain).graft (buildChain [] chain).1.length others w.outputs)
        (recordEvents (buildChain [] chain).2 r) := by
    simp only [recordEvents, cons_append, Run.exec_cons]
    rw [step_arrive_congr hstore (append_nil _).symm r]
  rw [hcongr, hgraft, chainOutputs, flatMap_singleton, Option.map_map, Option.map_map]
  rfl

theorem exec_records (hw : (buildChain [] chain).1 <+: w.store) {rs : List ParsedRecord}
    (hspares : Run.Along (step marshal) (Spares (buildChain [] chain).1.length) w
      (rs.flatMap (recordEvents (buildChain [] chain).2))) :
    (Run.exec (step marshal) w (rs.flatMap (recordEvents (buildChain [] chain).2))).map outputs =
      (rs.mapM fun r => chainOutputs marshal chain [r]).map (w.outputs ++ flatten ·) := by
  induction rs generalizing w with
  | nil => simp
  | cons r rs ih =>
    rw [flatMap_cons] at hspares ⊢
    obtain ⟨hfirst, hrest⟩ := hspares.append
    have hr := @exec_recordEvents w marshal chain hw r
    rw [Run.exec_append, mapM_cons]
    cases hexec : Run.exec (step marshal) w (recordEvents (buildChain [] chain).2 r) with
    | none =>
      rw [hexec, map_none, eq_comm, map_eq_none_iff] at hr
      simp [hr]
    | some w' =>
      rw [hexec, map_some, eq_comm, map_eq_some_iff] at hr
      obtain ⟨out, hout, houtputs⟩ := hr
      rw [bind_some, ih (exec_store hw hfirst hexec) (hrest w' hexec), hout, ← houtputs]
      cases rs.mapM fun r => chainOutputs marshal chain [r] <;> simp

/-- Every record is handled as by a chain of its own if no step writes into an object of the
    configuration. -/
theorem records_isolated {rs : List ParsedRecord}
    (hspares : Run.Along (Worker.step marshal) (Spares (buildChain [] chain).1.length)
      (freshWorker chain) (rs.flatMap (recordEvents (buildChain [] chain).2))) :
    chainOutputs marshal chain rs =
      (rs.mapM fun r => chainOutputs marshal chain [r]).map List.flatten :=
  exec_records prefix_rfl hspares

/-- Two orders that are tagged and then cut down to the tag. -/
theorem records_isolated_tagged :
    let chain : List FieldStep :=
      [.set ⟨[⟨"meta", .object [("source", .string "web")]⟩]⟩,
        .rename ⟨[⟨"customer_id", "customer.id"⟩]⟩, .select ⟨["meta.source", "customer"]⟩]
    let rs : List ParsedRecord :=
      [{ parsed := some (some [("customer_id", .number "7")]) }, { parsed := some (some []) }]
    chainOutputs (fun _ => some []) chain rs =
      (rs.mapM fun r => chainOutputs (fun _ => some []) chain [r]).map flatten := by
  intro chain rs
  exact records_isolated (by decide)

/-- The customer of the first order is in the configured object by the time that the second order
    gets it. -/
theorem customer_of_earlier_record :
    let chain : List FieldStep :=
      [.set ⟨[⟨"meta", .object [("source", .string "web")]⟩]⟩,
        .rename ⟨[⟨"customer_id", "meta.customer_id"⟩]⟩]
    let r₁ : ParsedRecord := { parsed := some (some [("customer_id", .number "7")]) }
    let r₂ : ParsedRecord := { parsed := some (some []) }
    let output (customer : List (String × Value)) : ChainOutput :=
      ⟨{}, .object (.object [("meta", .object (("source", .string "web") :: customer))])⟩
    chainOutputs (fun _ => some []) chain [r₂] = some [output []] ∧
      chainOutputs (fun _ => some []) chain [r₁, r₂] =
        some [output [("customer_id", .number "7")], output [("customer_id", .number "7")]] ∧
      chainOutputs (fun _ => some []) chain [r₁, r₂] ≠
        ([r₁, r₂].mapM fun r => chainOutputs (fun _ => some []) chain [r]).map flatten := by
  intro chain r₁ r₂ output
  refine ⟨rfl, rfl, fun h => ?_⟩
  have hsame : some [output [("customer_id", .number "7")], output [("customer_id", .number "7")]] =
      some [output [("customer_id", .number "7")], output []] := h
  simp [output] at hsame

end Runs

end Weibo
