import Mathlib.Data.List.Chain
import Mathlib.Data.List.Forall2
import Weibo.Model.Planner

/-!
# Planning preserves the program

Every stage between the source and the sink covers a consecutive piece of the list of labelled
operators (`Covers`), and the pieces make up the whole list.

`BuildPlan` makes one pass.  `Stages` says what holds of the stages it has made
so far, and `Stages.snoc` adds one more.  The operators of the pending group are
not in a stage yet, so the invariant of the loop keeps them apart (`Inv`);
`flush_inv` turns them into a stage.  Names and owner ids are written from a kind
and a counter that only grows, so a new one is different from all before it.
-/

namespace Weibo

open List Nat
open String (toList_append)

/-! ## Names -/

/-- A kind of stage and its number. -/
inductive StageKey where
  | source
  | sink
  | stateless (n : ℕ)
  | keyed (n : ℕ)
  | channel (n : ℕ)
deriving DecidableEq

/-- The names of a kind and a number. That of a channel stage also says which operator it runs. -/
def StageKey.Names : StageKey → String → Prop
  | .source, s => s = "source"
  | .sink, s => s = "sink"
  | .stateless n, s => s = s!"stateless-{n}"
  | .keyed n, s => s = s!"keyed-{n}"
  | .channel n, s => ∃ op : StatefulOperator, s = "op-" ++ op.name ++ s!"-{n}"

/-- An operator with a state of its own: one outside a keyed stage, or a clone. -/
inductive OwnerKey where
  | op (i : ℕ)
  | worker (idx : ℕ)
deriving DecidableEq

/-- The id under which its state is kept. -/
def OwnerKey.text : OwnerKey → String
  | .op i => s!"op-{i}"
  | .worker idx => s!"worker-{idx}"

theorem numbered_inj {s : String} {m n : ℕ} (h : s ++ toString m = s ++ toString n) : m = n := by
  have hlist := congrArg String.toList h
  rw [toList_append, toList_append] at hlist
  exact repr_injective (String.toList_inj.mp (append_cancel_left hlist))

/-- How the names of a kind begin. -/
def StageKey.lead : StageKey → List Char
  | .source => ['s', 'o']
  | .sink => ['s', 'i']
  | .stateless _ => ['s', 't']
  | .keyed _ => ['k', 'e']
  | .channel _ => ['o', 'p']

theorem StageKey.Names.lead_eq {k : StageKey} {s : String} (h : k.Names s) :
    s.toList.take 2 = k.lead := by
  cases k with
  | source => rw [show s = "source" from h]; rfl
  | sink => rw [show s = "sink" from h]; rfl
  | stateless n =>
    rw [show s = "stateless-" ++ toString n from h, toList_append]
    rfl
  | keyed n =>
    rw [show s = "keyed-" ++ toString n from h, toList_append]
    rfl
  | channel n =>
    obtain ⟨op, rfl⟩ := h
    rw [toList_append, toList_append]
    rfl

/-- A name tells the kind and the number. -/
theorem StageKey.names_unique {a b : StageKey} {s : String} (ha : a.Names s) (hb : b.Names s) :
    a = b := by
  have hlead := ha.lead_eq.symm.trans hb.lead_eq
  cases a with
  | source => cases b <;> first | rfl | simp [lead] at hlead
  | sink => cases b <;> first | rfl | simp [lead] at hlead
  | stateless n =>
    cases b with
    | stateless n' => rw [numbered_inj (s := "stateless-") (ha.symm.trans hb)]
    | _ => simp [lead] at hlead
  | keyed n =>
    cases b with
    | keyed n' => rw [numbered_inj (s := "keyed-") (ha.symm.trans hb)]
    | _ => simp [lead] at hlead
  | channel n =>
    cases b with
    | channel n' =>
      obtain ⟨op, rfl⟩ := ha
      obtain ⟨op', hb⟩ := hb
      have hinitial : ∀ (op : StatefulOperator) (n : ℕ),
          ("op-" ++ op.name ++ s!"-{n}").toList.take 4 =
            'o' :: 'p' :: '-' :: op.name.toList.take 1 := by
        intro op n
        rw [toList_append, toList_append]
        cases op <;> simp [StatefulOperator.name]
      have hname : op.name = op'.name := by
        have htake := (hinitial op n).symm.trans ((congrArg (fun s => s.toList.take 4) hb).trans
          (hinitial op' n'))
        cases op <;> cases op' <;>
          first | rfl | simp [StatefulOperator.name] at htake
      rw [hname, String.append_right_inj] at hb
      rw [numbered_inj (s := "-") hb]
    | _ => simp [lead] at hlead

theorem OwnerKey.text_inj {a b : OwnerKey} (h : a.text = b.text) : a = b := by
  have hop : ∀ i, (text (.op i)).toList.take 1 = ['o'] := by
    intro i
    rw [show text (.op i) = "op-" ++ toString i from rfl, toList_append]
    rfl
  have hworker : ∀ i, (text (.worker i)).toList.take 1 = ['w'] := by
    intro i
    rw [show text (.worker i) = "worker-" ++ toString i from rfl, toList_append]
    rfl
  cases a with
  | op i =>
    cases b with
    | op j => rw [numbered_inj (s := "op-") h]
    | worker j =>
      have := hop i
      rw [h, hworker] at this
      simp at this
  | worker i =>
    cases b with
    | worker j => rw [numbered_inj (s := "worker-") h]
    | op j =>
      have := hop j
      rw [← h, hworker] at this
      simp at this

theorem exists_of_forall₂_mem {α β : Type*} {R : α → β → Prop} {l : List α} {l' : List β}
    (h : Forall₂ R l l') {b : β} (hb : b ∈ l') : ∃ a ∈ l, R a b := by
  induction h with
  | nil => cases hb
  | cons hab _ ih =>
    rcases mem_cons.mp hb with rfl | hb
    · exact ⟨_, mem_cons_self, hab⟩
    · obtain ⟨a, ha, hR⟩ := ih hb
      exact ⟨a, mem_cons_of_mem _ ha, hR⟩

/-- What is named after different things has different names. -/
theorem nodup_of_forall₂ {α β : Type*} {R : α → β → Prop} {l : List α} {l' : List β}
    (h : Forall₂ R l l') (hR : ∀ a a' b, R a b → R a' b → a = a') (hl : l.Nodup) :
    l'.Nodup := by
  induction h with
  | nil => exact nodup_nil
  | @cons a b l l' hab hrest ih =>
    rw [nodup_cons] at hl ⊢
    refine ⟨fun hb => hl.1 ?_, ih hl.2⟩
    obtain ⟨a', ha', hb'⟩ := exists_of_forall₂_mem hrest hb
    exact hR a' a b hb' hab ▸ ha'

/-! ## Stages -/

namespace PlannedStage

/-- The operators of a stage: those of a group, a `KeyBy` and the stateful operators behind it, or a
    single one. -/
def operators : PlannedStage → List Operator
  | .source | .sink => []
  | .stateless _ ops _ _ => ops.map fun op => .single op.1 op.2
  | .keyed _ kb workers => .keyBy kb :: (workers.headD []).map fun clone => .stateful clone.1
  | .channel _ op _ _ => [.stateful op]

/-- `Name`. -/
def name : PlannedStage → String
  | .source => "source"
  | .sink => "sink"
  | .stateless stageName _ _ _ | .keyed stageName _ _ | .channel stageName _ _ _ => stageName

/-- The ids under which the operators of a stage keep their state. -/
def owners : PlannedStage → List String
  | .source | .sink | .stateless _ _ _ _ => []
  | .keyed _ _ workers => workers.flatten.map Prod.snd
  | .channel _ _ _ ownerID => [ownerID]

/-- A stage runs a piece of the list of labelled operators. -/
inductive Covers : PlannedStage → List (Operator × String) → Prop
  | stateless {stageName : String} {ops : List (SingleProcessor × Int)} {labels : List String}
      {par : ℕ} {piece : List (Operator × String)} (hne : ops ≠ [])
      (hops : piece.map Prod.fst = ops.map fun op => .single op.1 op.2)
      (hlabels : piece.map Prod.snd = labels) (hpar : ∀ op ∈ ops, parallelism op.2 = par) :
      Covers (.stateless stageName ops labels par) piece
  | keyed {stageName : String} {kb : KeyByOperator}
      {workers : List (List (StatefulOperator × String))} {label : String}
      {taken : List (Operator × String)} (hpos : 0 < kb.partitions)
      (hworkers : workers.length = kb.partitions.toNat)
      (hchain : ∀ chain ∈ workers, taken.map Prod.fst = chain.map fun clone => .stateful clone.1) :
      Covers (.keyed stageName kb workers) ((.keyBy kb, label) :: taken)
  | channel {stageName : String} {op : StatefulOperator} {label ownerID : String} :
      Covers (.channel stageName op label ownerID) [(.stateful op, label)]

/-- Stateless stages next to each other run with a different number of workers. -/
def Differ : PlannedStage → PlannedStage → Prop
  | .stateless _ _ _ par, .stateless _ _ _ par' => par ≠ par'
  | _, _ => True

theorem Covers.operators_eq {s : PlannedStage} {piece : List (Operator × String)}
    (h : Covers s piece) : s.operators = piece.map Prod.fst := by
  cases h with
  | stateless hne hops hlabels hpar => exact hops.symm
  | keyed hpos hworkers hchain =>
    rename_i kb workers label taken
    cases workers with
    | nil => simp at hworkers; omega
    | cons chain rest =>
      simp only [operators, headD_cons, map_cons]
      rw [hchain chain mem_cons_self]
  | channel => rfl

variable {stages : List PlannedStage}

theorem operators_of_forall₂ {pieces : List (List (Operator × String))}
    (h : Forall₂ Covers stages pieces) :
    stages.flatMap operators = pieces.flatten.map Prod.fst := by
  induction h with
  | nil => rfl
  | cons hs _ ih => rw [flatMap_cons, ih, hs.operators_eq, flatten_cons, map_append]

end PlannedStage

open PlannedStage

/-- How many names and ids of each kind have been given out. -/
structure PlanCounts where
  stateless : ℕ
  keyed : ℕ
  channel : ℕ
  index : ℕ
  workers : ℕ

namespace PlanCounts

/-- The name has been given out. -/
def HasStage (c : PlanCounts) : StageKey → Prop
  | .source => True
  | .sink => False
  | .stateless n => n < c.stateless
  | .keyed n => n < c.keyed
  | .channel n => n < c.channel

def HasOwner (c : PlanCounts) : OwnerKey → Prop
  | .op i => i < c.index
  | .worker idx => idx < c.workers

/-- No counter goes back. -/
structure Le (c c' : PlanCounts) : Prop where
  stateless : c.stateless ≤ c'.stateless
  keyed : c.keyed ≤ c'.keyed
  channel : c.channel ≤ c'.channel
  index : c.index ≤ c'.index
  workers : c.workers ≤ c'.workers

variable {c c' : PlanCounts}

theorem Le.hasStage (h : c.Le c') {k : StageKey} (hk : c.HasStage k) : c'.HasStage k := by
  have := h.stateless
  have := h.keyed
  have := h.channel
  cases k with
  | source => trivial
  | sink => exact hk
  | stateless n | keyed n | channel n => simp only [HasStage] at hk ⊢; omega

theorem Le.hasOwner (h : c.Le c') {k : OwnerKey} (hk : c.HasOwner k) : c'.HasOwner k := by
  have := h.index
  have := h.workers
  cases k with
  | op i | worker idx => simp only [HasOwner] at hk ⊢; omega

end PlanCounts

/-- What holds of the stages made from the operators `done`. -/
structure Stages (stages : List PlannedStage) (done : List (Operator × String))
    (c : PlanCounts) : Prop where
  covers : ∃ pieces, List.Forall₂ Covers stages pieces ∧ pieces.flatten = done
  chain : stages.IsChain Differ
  names : ∃ keys : List StageKey, List.Forall₂ StageKey.Names keys (stages.map name) ∧
    keys.Nodup ∧ .source ∉ keys ∧ ∀ k ∈ keys, c.HasStage k
  owners : ∃ keys : List OwnerKey, stages.flatMap owners = keys.map OwnerKey.text ∧
    keys.Nodup ∧ ∀ k ∈ keys, c.HasOwner k

theorem Stages.nil (c : PlanCounts) : Stages [] [] c where
  covers := ⟨[], .nil, rfl⟩
  chain := .nil
  names := ⟨[], .nil, nodup_nil, not_mem_nil, fun _ h => nomatch h⟩
  owners := ⟨[], rfl, nodup_nil, fun _ h => nomatch h⟩

variable {done : List (Operator × String)} {errs : BackendErrors} {b b' : PlanBuild} {index : ℕ}

theorem Stages.mono (h : Stages stages done c) (hle : c.Le c') : Stages stages done c' where
  covers := h.covers
  chain := h.chain
  names := by
    obtain ⟨keys, hnames, hnodup, hsource, hbelow⟩ := h.names
    exact ⟨keys, hnames, hnodup, hsource, fun k hk => hle.hasStage (hbelow k hk)⟩
  owners := by
    obtain ⟨keys, howners, hnodup, hbelow⟩ := h.owners
    exact ⟨keys, howners, hnodup, fun k hk => hle.hasOwner (hbelow k hk)⟩

/-- One more stage, with a name and owner ids that have not been given out. -/
theorem Stages.snoc {piece : List (Operator × String)} (h : Stages stages done c) (hle : c.Le c')
    {s : PlannedStage} (hcovers : Covers s piece)
    (hdiffer : ∀ last ∈ stages.getLast?, Differ last s) (key : StageKey) (hname : key.Names s.name)
    (hnew : ¬ c.HasStage key) (hgiven : c'.HasStage key) (keys : List OwnerKey)
    (howners : s.owners = keys.map OwnerKey.text) (hnodup : keys.Nodup)
    (hnewOwners : ∀ k ∈ keys, ¬ c.HasOwner k) (hgivenOwners : ∀ k ∈ keys, c'.HasOwner k) : Stages (stages ++ [s]) (done ++ piece) c' where
  covers := by
    obtain ⟨pieces, hall, rfl⟩ := h.covers
    refine ⟨pieces ++ [piece], rel_append hall (.cons hcovers .nil), ?_⟩
    rw [flatten_append, flatten_singleton]
  chain := by
    refine h.chain.append (.singleton _) fun last hlast y hy => ?_
    obtain rfl : s = y := Option.some.inj hy
    exact hdiffer last hlast
  names := by
    obtain ⟨given, hnames, hgivenNodup, hsource, hbelow⟩ := h.names
    refine ⟨given ++ [key], ?_, ?_, ?_, ?_⟩
    · rw [map_append]
      exact rel_append hnames (.cons hname .nil)
    · refine nodup_append.mpr ⟨hgivenNodup, nodup_singleton _, ?_⟩
      rintro k hk k' hk' rfl
      obtain rfl := mem_singleton.mp hk'
      exact hnew (hbelow k hk)
    · intro hmem
      rcases mem_append.mp hmem with hmem | hmem
      · exact hsource hmem
      · obtain rfl := mem_singleton.mp hmem
        exact hnew trivial
    · intro k hk
      rcases mem_append.mp hk with hk | hk
      · exact hle.hasStage (hbelow k hk)
      · obtain rfl := mem_singleton.mp hk
        exact hgiven
  owners := by
    obtain ⟨given, hgivenOwn, hgivenNodup, hbelow⟩ := h.owners
    refine ⟨given ++ keys, ?_, ?_, ?_⟩
    · rw [flatMap_append, hgivenOwn, flatMap_singleton, howners, map_append]
    · refine nodup_append.mpr ⟨hgivenNodup, hnodup, ?_⟩
      rintro k hk k' hk' rfl
      exact hnewOwners k hk' (hbelow k hk)
    · intro k hk
      rcases mem_append.mp hk with hk | hk
      · exact hle.hasOwner (hbelow k hk)
      · exact hgivenOwners k hk

/-! ## Clones -/

/-- The clones of a worker are the operators, with the next worker ids. -/
theorem cloneChain_ok {ops : List StatefulOperator} {idx next : ℕ}
    {chain : List (StatefulOperator × String)} (h : cloneChain errs ops idx = .ok (chain, next)) :
    chain.map Prod.fst = ops ∧
      chain.map Prod.snd = (range' idx ops.length).map (OwnerKey.text ∘ .worker) ∧
      next = idx + ops.length := by
  induction ops generalizing idx chain next with
  | nil =>
    cases h
    exact ⟨rfl, rfl, rfl⟩
  | cons op ops ih =>
    simp only [cloneChain] at h
    split at h
    · cases h
    split at h
    · cases h
    rename_i rest next' hrest
    cases h
    obtain ⟨hops, hids, hnext⟩ := ih hrest
    refine ⟨by rw [map_cons, hops], ?_, by rw [hnext, length_cons]; omega⟩
    rw [map_cons, hids, length_cons, range'_succ, map_cons]
    rfl

/-- Every worker has the same operators, and no two clones the same id. -/
theorem newKeyedStage_ok {ops : List StatefulOperator} {n idx next : ℕ}
    {workers : List (List (StatefulOperator × String))}
    (h : newKeyedStage errs ops n idx = .ok (workers, next)) :
    workers.length = n ∧ (∀ chain ∈ workers, chain.map Prod.fst = ops) ∧
      workers.flatten.map Prod.snd = (range' idx (n * ops.length)).map (OwnerKey.text ∘ .worker) ∧
      next = idx + n * ops.length := by
  induction n generalizing idx workers next with
  | zero =>
    cases h
    exact ⟨rfl, by simp, by simp, by simp⟩
  | succ n ih =>
    simp only [newKeyedStage] at h
    split at h
    · cases h
    rename_i chain next' hchain
    split at h
    · cases h
    rename_i rest next'' hrest
    cases h
    obtain ⟨hops, hids, hnext⟩ := cloneChain_ok hchain
    obtain ⟨hlen, hall, hrestIds, hlast⟩ := ih hrest
    refine ⟨by rw [length_cons, hlen], ?_, ?_, ?_⟩
    · intro c hc
      rcases mem_cons.mp hc with rfl | hc
      · exact hops
      · exact hall c hc
    · rw [flatten_cons, map_append, hids, hrestIds, hnext, ← map_append,
        range'_append_1, succ_mul, add_comm (n * _)]
    · rw [hlast, hnext, succ_mul]
      omega

/-- What a `KeyBy` takes is the list of stateful operators right behind it. -/
theorem takeStateful_spec (l : List (Operator × String)) :
    (l.take (takeStateful l).length).map Prod.fst = (takeStateful l).map .stateful := by
  induction l with
  | nil => rfl
  | cons x l ih =>
    obtain ⟨op, label⟩ := x
    cases op with
    | stateful op => simp [takeStateful, ih]
    | keyBy kb => rfl
    | single op par => rfl

/-! ## The loop -/

namespace PlanBuild

/-- The names and ids given out before operator number `index`. -/
def counts (b : PlanBuild) (index : ℕ) : PlanCounts :=
  ⟨b.statelessCount, b.keyedCount, b.channelCount, index, b.workerOps⟩

/-- The operators of the pending group. -/
structure Pending (b : PlanBuild) (piece : List (Operator × String)) : Prop where
  ops : piece.map Prod.fst = b.group.map fun op => .single op.1 op.2
  labels : piece.map Prod.snd = b.groupLabels
  par : ∀ op ∈ b.group, parallelism op.2 = b.groupPar

/-- The last stage is not one that the pending group belongs to. -/
def Apart (b : PlanBuild) (stages : List PlannedStage) : Prop :=
  ∀ stageName ops labels par, stages.getLast? = some (.stateless stageName ops labels par) →
    b.group ≠ [] ∧ par ≠ b.groupPar

/-- The invariant of the loop: `done` are the operators that are in a stage or in the pending
    group. -/
def Inv (b : PlanBuild) (done : List (Operator × String)) (index : ℕ) : Prop :=
  ∃ stages flushed piece, b.stages = .source :: stages ∧ done = flushed ++ piece ∧
    Stages stages flushed (b.counts index) ∧ b.Pending piece ∧ b.Apart stages

theorem start_inv : start.Inv [] 0 :=
  ⟨[], [], [], rfl, rfl, .nil _, ⟨rfl, rfl, fun _ h => nomatch h⟩, fun _ _ _ _ h => nomatch h⟩

variable (h : b.Inv done index)

include h

/-- After a flush all operators are in a stage, and the last stage is that of the pending group if
    there was one. -/
theorem flush_inv :
    ∃ stages, b.flush.stages = .source :: stages ∧ b.flush.group = [] ∧
      b.flush.groupLabels = [] ∧ Stages stages done (b.flush.counts index) ∧
      ∀ stageName ops labels par, stages.getLast? = some (.stateless stageName ops labels par) →
        b.group ≠ [] ∧ par = b.groupPar := by
  obtain ⟨stages, flushed, piece, hstages, rfl, hok, hpending, hapart⟩ := h
  cases hgroup : b.group with
  | nil =>
    have hpiece : piece = [] := by
      have := hpending.ops
      rw [hgroup] at this
      exact map_eq_nil_iff.mp this
    have hlabels : b.groupLabels = [] := by rw [← hpending.labels, hpiece]; rfl
    have hflush : b.flush = b := by simp [flush, hgroup]
    rw [hflush, hpiece, append_nil]
    refine ⟨stages, hstages, hgroup, hlabels, hok, fun n ops ls par hlast => ?_⟩
    exact absurd hgroup (hapart n ops ls par hlast).1
  | cons op ops =>
    have hflush : b.flush = { b with
        stages := b.stages ++
          [.stateless s!"stateless-{b.statelessCount}" b.group b.groupLabels b.groupPar]
        statelessCount := b.statelessCount + 1, group := [], groupLabels := [] } := by
      simp only [flush, hgroup]
    rw [hflush]
    refine ⟨stages ++ [.stateless s!"stateless-{b.statelessCount}" b.group b.groupLabels b.groupPar],
      by simp only [hstages]; rfl, rfl, rfl, ?_, ?_⟩
    · have hle : (b.counts index).Le
          ⟨b.statelessCount + 1, b.keyedCount, b.channelCount, index, b.workerOps⟩ :=
        ⟨le_succ _, le_refl _, le_refl _, le_refl _, le_refl _⟩
      refine hok.snoc hle
        (.stateless (by rw [hgroup]; exact cons_ne_nil _ _) hpending.ops hpending.labels
          hpending.par) ?_ (.stateless b.statelessCount) rfl (lt_irrefl _)
        (lt_succ_self _) [] rfl nodup_nil (by simp) (by simp)
      intro last hlast
      cases last with
      | stateless n ops' ls par => exact (hapart n ops' ls par hlast).2
      | _ => trivial
    · intro n ops' ls par hlast
      rw [getLast?_concat] at hlast
      cases hlast
      exact ⟨cons_ne_nil _ _, rfl⟩

theorem keyed_inv {taken : List (Operator × String)}
    {kb : KeyByOperator} {label : String} {stateful : List StatefulOperator}
    (htaken : taken.map Prod.fst = stateful.map .stateful)
    (hb : b.keyed errs kb stateful = .ok b') :
    b'.Inv (done ++ (.keyBy kb, label) :: taken) index := by
  unfold keyed at hb
  split at hb
  · cases hb
  rename_i hpos
  obtain ⟨stages, hstages, hgroup, hlabels, hok, -⟩ := flush_inv h
  dsimp only at hb
  split at hb
  · cases hb
  rename_i workers next hnew
  cases hb
  obtain ⟨hlen, hchain, hids, hnext⟩ := newKeyedStage_ok hnew
  refine ⟨stages ++ [.keyed s!"keyed-{b.flush.keyedCount}" kb workers],
    done ++ (.keyBy kb, label) :: taken, [], by simp only [hstages]; rfl,
    (append_nil _).symm, ?_, ⟨by simp [hgroup], by simp [hlabels], by simp [hgroup]⟩, ?_⟩
  · have hle : (b.flush.counts index).Le ⟨b.flush.statelessCount, b.flush.keyedCount + 1,
        b.flush.channelCount, index, next⟩ :=
      ⟨Nat.le_refl _, Nat.le_succ _, Nat.le_refl _, Nat.le_refl _, hnext ▸ Nat.le_add_right ..⟩
    refine hok.snoc hle (.keyed (by omega) hlen ?_) ?_ (.keyed b.flush.keyedCount) rfl
      (lt_irrefl _) (lt_succ_self _)
      ((range' b.flush.workerOps (kb.partitions.toNat * stateful.length)).map .worker)
      (by rw [map_map]; exact hids) ?_ ?_ ?_
    · intro chain hmem
      rw [htaken, ← hchain chain hmem, map_map]
      rfl
    · intro last _
      cases last <;> trivial
    · exact (nodup_range' ..).map fun _ _ heq => OwnerKey.worker.inj heq
    · intro k hk
      obtain ⟨idx, hidx, rfl⟩ := mem_map.mp hk
      have := (mem_range'_1.mp hidx).1
      simp only [counts, PlanCounts.HasOwner]
      omega
    · intro k hk
      obtain ⟨idx, hidx, rfl⟩ := mem_map.mp hk
      have := (mem_range'_1.mp hidx).2
      simp only [PlanCounts.HasOwner]
      omega
  · intro n ops ls par hlast
    rw [getLast?_concat] at hlast
    cases hlast

theorem channel_inv {op : StatefulOperator} {label : String}
    (hb : b.channel errs index op label = .ok b') :
    b'.Inv (done ++ [(.stateful op, label)]) (index + 1) := by
  unfold channel at hb
  obtain ⟨stages, hstages, hgroup, hlabels, hok, -⟩ := flush_inv h
  dsimp only at hb
  split at hb
  · cases hb
  cases hb
  refine ⟨stages ++ [.channel ("op-" ++ op.name ++ s!"-{b.flush.channelCount}") op label
    s!"op-{index}"], done ++ [(.stateful op, label)], [], by simp only [hstages]; rfl,
    (append_nil _).symm, ?_, ⟨by simp [hgroup], by simp [hlabels], by simp [hgroup]⟩, ?_⟩
  · have hle : (b.flush.counts index).Le ⟨b.flush.statelessCount, b.flush.keyedCount,
        b.flush.channelCount + 1, index + 1, b.flush.workerOps⟩ :=
      ⟨le_refl _, le_refl _, le_succ _, le_succ _, le_refl _⟩
    refine hok.snoc hle .channel ?_ (.channel b.flush.channelCount) ⟨op, rfl⟩ (lt_irrefl _)
      (lt_succ_self _) [.op index] rfl (nodup_singleton _) ?_ ?_
    · intro last _
      cases last <;> trivial
    · intro k hk
      obtain rfl := mem_singleton.mp hk
      exact lt_irrefl _
    · intro k hk
      obtain rfl := mem_singleton.mp hk
      exact lt_succ_self _
  · intro n ops ls par hlast
    rw [getLast?_concat] at hlast
    cases hlast

theorem single_inv {op : SingleProcessor} {par : Int} {label : String} :
    (b.single op par label).Inv (done ++ [(.single op par, label)]) index := by
  unfold single
  dsimp only
  split
  · -- another parallelism: the pending group becomes a stage of its own
    rename_i hother
    simp only [Bool.and_eq_true, Bool.not_eq_true', bne_iff_ne] at hother
    obtain ⟨stages, hstages, hgroup, hlabels, hok, hlast⟩ := flush_inv h
    refine ⟨stages, done, [(.single op par, label)], hstages, rfl, hok,
      ⟨by simp [hgroup], by simp [hlabels], by simp [hgroup]⟩, fun n ops ls par' hl => ?_⟩
    refine ⟨by simp [hgroup], ?_⟩
    rw [(hlast n ops ls par' hl).2]
    exact Ne.symm hother.2
  · -- the operator joins the group, which is empty or has the same parallelism
    rename_i hsame
    obtain ⟨stages, flushed, piece, hstages, rfl, hok, hpending, hapart⟩ := h
    have hpar : b.group ≠ [] → b.groupPar = parallelism par := by
      intro hne
      by_contra hdiff
      exact hsame (by simp [hne, Ne.symm hdiff])
    refine ⟨stages, flushed, piece ++ [(.single op par, label)], hstages,
      append_assoc .., hok, ⟨?_, ?_, ?_⟩, ?_⟩
    · simp [hpending.ops]
    · simp [hpending.labels]
    · intro x hx
      rcases mem_append.mp hx with hx | hx
      · rw [hpending.par x hx, hpar (ne_nil_of_mem hx)]
      · obtain rfl := mem_singleton.mp hx
        rfl
    · intro n ops ls par' hl
      obtain ⟨hne, hdiff⟩ := hapart n ops ls par' hl
      exact ⟨by simp, hpar hne ▸ hdiff⟩

theorem Inv.mono : b.Inv done (index + 1) := by
  obtain ⟨stages, flushed, piece, hstages, hdone, hok, hpending, hapart⟩ := h
  have hle : (b.counts index).Le (b.counts (index + 1)) :=
    ⟨le_refl _, le_refl _, le_refl _, le_succ _, le_refl _⟩
  exact ⟨stages, flushed, piece, hstages, hdone, hok.mono hle, hpending, hapart⟩

/-- The loop goes over all operators but the `skip` ones that a `KeyBy` has taken. -/
theorem loop_inv {l : List (Operator × String)} {skip : ℕ}
    (hb : loop errs index skip l b = .ok b') :
    ∃ index', b'.Inv (done ++ l.drop skip) index' := by
  induction l generalizing index skip b done with
  | nil =>
    have hnil : loop errs index skip [] b = .ok b := by cases skip <;> rfl
    obtain rfl := Except.ok.inj (hnil.symm.trans hb)
    exact ⟨index, by rwa [drop_nil, append_nil]⟩
  | cons x l ih =>
    cases skip with
    | succ skip => exact ih h.mono hb
    | zero =>
      obtain ⟨op, label⟩ := x
      rw [drop_zero]
      cases op with
      | keyBy kb =>
        simp only [loop] at hb
        split at hb
        · cases hb
        rename_i b₁ hkeyed
        have hinv : b₁.Inv (done ++ (.keyBy kb, label) :: l.take (takeStateful l).length) index :=
          keyed_inv h (takeStateful_spec l) hkeyed
        obtain ⟨index', hend⟩ := ih hinv.mono hb
        refine ⟨index', ?_⟩
        rw [append_assoc, cons_append, take_append_drop] at hend
        exact hend
      | single op par =>
        obtain ⟨index', hend⟩ := ih (single_inv h).mono hb
        exact ⟨index', by rwa [drop_zero, append_assoc] at hend⟩
      | stateful op =>
        simp only [loop] at hb
        split at hb
        · cases hb
        · rename_i b₁ hchannel
          obtain ⟨index', hend⟩ := ih (channel_inv h hchannel) hb
          exact ⟨index', by rwa [drop_zero, append_assoc] at hend⟩

end PlanBuild

/-! ## The plan -/

/-- A plan is faithful to a program: the source stage is first and the sink stage last, the stages
    between them cover the labelled operators piece by piece, stateless stages next to each other
    differ in parallelism, and no two stages share a name and no two operators an id. -/
structure Faithful (operators : List Operator) (labels : List String) (plan : List PlannedStage) :
    Prop where
  operators_eq : plan.flatMap PlannedStage.operators = operators
  covers : ∃ stages pieces, plan = .source :: stages ++ [.sink] ∧
    List.Forall₂ Covers stages pieces ∧ pieces.flatten = operators.zip labels
  chain : plan.IsChain Differ
  names : (plan.map PlannedStage.name).Nodup
  owners : (plan.flatMap PlannedStage.owners).Nodup

/-- Every plan that `BuildPlan` makes is faithful to its program. -/
theorem buildPlan_faithful {errs : BackendErrors} {hasSource hasSink : Bool}
    {operators : List Operator} {labels : List String} {plan : List PlannedStage}
    (h : buildPlan errs hasSource hasSink operators labels = .ok plan) :
    Faithful operators labels plan := by
  unfold buildPlan at h
  split at h
  · cases h
  split at h
  · cases h
  split at h
  · cases h
  rename_i hlen
  have hlen : labels.length = operators.length := not_not.mp hlen
  split at h
  · cases h
  rename_i b hloop
  cases h
  obtain ⟨index, hinv⟩ := PlanBuild.loop_inv PlanBuild.start_inv hloop
  obtain ⟨stages, hstages, -, -, hok, -⟩ := PlanBuild.flush_inv hinv
  rw [nil_append, drop_zero] at hok
  rw [hstages]
  obtain ⟨pieces, hcovers, hpieces⟩ := hok.covers
  obtain ⟨keys, hnames, hkeys, hsource, hbelow⟩ := hok.names
  obtain ⟨owners, howners, hownerKeys, -⟩ := hok.owners
  refine ⟨?_, ⟨stages, pieces, rfl, hcovers, hpieces⟩, ?_, ?_, ?_⟩
  · have hread := operators_of_forall₂ hcovers
    rw [hpieces, map_fst_zip (Nat.le_of_eq hlen.symm)] at hread
    simpa [flatMap_append, PlannedStage.operators] using hread
  · refine List.IsChain.append ?_ (.singleton _) fun last _ y hy => ?_
    · refine isChain_cons.mpr ⟨fun y _ => ?_, hok.chain⟩
      trivial
    · obtain rfl : PlannedStage.sink = y := Option.some.inj hy
      cases last <;> trivial
  · -- source and sink have names of their own
    have hall : List.Forall₂ StageKey.Names (.source :: keys ++ [.sink])
        ((PlannedStage.source :: stages ++ [PlannedStage.sink]).map PlannedStage.name) := by
      rw [map_append, map_cons]
      have hsource : StageKey.source.Names PlannedStage.source.name := rfl
      have hsink : StageKey.sink.Names PlannedStage.sink.name := rfl
      exact rel_append (.cons hsource hnames) (.cons hsink .nil)
    refine nodup_of_forall₂ hall (fun _ _ _ => StageKey.names_unique) ?_
    · refine nodup_append.mpr ⟨nodup_cons.mpr ⟨hsource, hkeys⟩, nodup_singleton _, ?_⟩
      rintro k hk k' hk' rfl
      obtain rfl := mem_singleton.mp hk'
      rcases mem_cons.mp hk with heq | hk
      · cases heq
      · exact hbelow _ hk
  · have hall : (PlannedStage.source :: stages ++ [PlannedStage.sink]).flatMap PlannedStage.owners =
        owners.map OwnerKey.text := by
      simpa [flatMap_append, PlannedStage.owners] using howners
    rw [hall]
    exact hownerKeys.map fun _ _ => OwnerKey.text_inj

/-- Hands every record on. -/
def handOn : SingleProcessor :=
  ⟨fun r => [{ r with isBarrier := false, isWatermark := false }], by simp [Record.isMarker]⟩

/-- Two maps of different parallelism, a keyed `Reduce` with two workers, and a `Reduce` behind a
    map. -/
def mixedProgram : List Operator :=
  let count : StatefulOperator := .reduce fun acc _ => some (acc.getD [])
  [.single handOn 1, .single handOn 3, .keyBy ⟨Record.key, 2⟩, .stateful count, .single handOn 1,
    .stateful count]

/-- Its plan. -/
theorem buildPlan_faithful_mixed :
    ∃ plan, buildPlan (fun _ => none) true true mixedProgram ["a", "b", "c", "d", "e", "f"] =
        .ok plan ∧
      plan.map PlannedStage.name = ["source", "stateless-0", "stateless-1", "keyed-0",
        "stateless-2", "op-Reduce-0", "sink"] ∧
      plan.flatMap PlannedStage.owners = ["worker-0", "worker-1", "op-5"] ∧
      Faithful mixedProgram ["a", "b", "c", "d", "e", "f"] plan := by
  obtain ⟨plan, hplan⟩ : ∃ plan, buildPlan (fun _ => none) true true mixedProgram
      ["a", "b", "c", "d", "e", "f"] = .ok plan := ⟨_, rfl⟩
  have hfaithful := buildPlan_faithful hplan
  cases hplan
  exact ⟨_, rfl, rfl, rfl, hfaithful⟩

end Weibo
