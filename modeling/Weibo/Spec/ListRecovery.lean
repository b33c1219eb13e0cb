import Mathlib.Data.Fintype.EquivFin
import Weibo.Spec.ListRefinement

/-!
# Lists across a recovery

The entries of a list are in the store, its next sequence number is in memory only. A backend that
was restored from a checkpoint, or closed and opened again, numbers from zero, so its first append
to a list that has entries takes the place of one of them or comes before them.

## Key results

- `Kept.run`: lists without entries in the way grow as they should
- `fresh_of_getAll_nil`: lists that were empty are such lists
- `recovered_lists_iff`: which lists survive a recovery
-/

namespace Weibo

open Function List PebbleBackend

/-- The backend that goes on after a recovery: the same directory opened again, or any backend
    restored from the checkpoint. -/
inductive Recovered (p : PebbleBackend) : PebbleBackend → Prop
  | reopened : Recovered p p.reopen
  | restored (q : PebbleBackend) : Recovered p (q.restoreFrom p.checkpointTo)

/-- All recoveries give the same backend. -/
theorem Recovered.eq {p r : PebbleBackend} (h : Recovered p r) : r = .openPebble p.db := by
  cases h <;> rfl

/-- The values that operations append to a list. -/
def appended (h : ListHandle) (ops : List (ListHandle × ListOp)) : List Bytes :=
  ops.filterMap fun x =>
    match x.2 with
    | .append v => if x.1 = h then some v else none
    | _ => none

theorem appended_append (h x : ListHandle) (v : Bytes) (ops : List (ListHandle × ListOp)) :
    appended h ((x, .append v) :: ops) = (if x = h then [v] else []) ++ appended h ops := by
  by_cases heq : x = h
  · simp only [appended, filterMap_cons, if_pos heq, singleton_append]
  · simp only [appended, filterMap_cons, if_neg heq, nil_append]

/-- `Append` and `GetAll` calls that append to the lists `A` only, to each at most `N` times. -/
structure Continues (A : Set ListHandle) (N : ℕ) (ops : List (ListHandle × ListOp)) : Prop where
  op : ∀ x ∈ ops, (∃ v, x.2 = .append v ∧ x.1 ∈ A) ∨ x.2 = .getAll
  count : ∀ h, appends h ops ≤ N

/-- A list is read as it was at the checkpoint, followed by what was appended. -/
def Survives (p r : PebbleBackend) (ops : List (ListHandle × ListOp)) (h : ListHandle) : Prop :=
  (pebbleLists.run r ops).getAll h = p.getAll h ++ appended h ops

/-! ## Lists without entries -/

/-- The condition on a list that is appended to at most `N` times, with the lists `U` in use: there
    are enough sequence numbers, the recovered entries in its range come before its first one, and
    none of its own is in the range of another list. -/
structure Fresh (p : PebbleBackend) (U : Set ListHandle) (N : ℕ) (h : ListHandle) : Prop where
  numbers : N ≤ 2 ^ 64
  first : ∀ e ∈ p.db.entries, listPrefixBytes h.ns h.key <+: e.1 → e.1 < listEntryKey h.ns h.key 0
  own : ∀ h' ∈ U, h' ≠ h → ∀ seq < N,
    ¬ listPrefixBytes h'.ns h'.key <+: listEntryKey h.ns h.key seq

/-- The backend after the operations of which `given` says how many appends there were. -/
structure Kept (A : Set ListHandle) (given : ListHandle → ℕ) (r : PebbleBackend) : Prop where
  seqs : ∀ h, r.seqs h = given h % 2 ^ 64
  last : ∀ h ∈ A, given h < 2 ^ 64 → ∀ e ∈ r.db.entries, PebbleBackend.starts h e = true →
    e.1 < h.entryKey (given h)

variable {p r : PebbleBackend} {A R : Set ListHandle} {N : ℕ}

theorem Fresh.starts_eq_false {U : Set ListHandle} {h h' : ListHandle} (hfresh : Fresh p U N h)
    (hh' : h' ∈ U) (hne : h' ≠ h) {seq : ℕ} (hseq : seq < N) (v : Bytes) :
    starts h' (h.entryKey seq, v) = false := by
  rw [Bool.eq_false_iff, Ne, starts_iff, ← h'.listPrefixBytes_eq]
  exact hfresh.own h' hh' hne seq hseq

/-- With keys apart the condition is that the list was empty. -/
theorem fresh_of_getAll_nil {U : Set ListHandle} (hU : Apart U) {h : ListHandle} (hh : h ∈ U)
    (hnil : p.getAll h = []) (hN : N ≤ 2 ^ 64) : Fresh p U N h where
  numbers := hN
  first e he hpre := by
    rw [h.listPrefixBytes_eq, ← starts_iff] at hpre
    rw [getAll_eq, map_eq_nil_iff, filter_eq_nil_iff] at hnil
    exact absurd hpre (hnil e he)
  own h' hh' hne seq _ hpre := by
    rw [h'.listPrefixBytes_eq] at hpre
    exact hne (hU.eq_of_isPrefix hh' hh hpre)

namespace Kept

theorem start (hfresh : ∀ h ∈ A, Fresh p (A ∪ R) N h) : Kept A (fun _ => 0) (.openPebble p.db) where
  seqs _ := rfl
  last h hh _ e he hstarts := by
    rw [starts_iff, ← h.listPrefixBytes_eq] at hstarts
    exact (hfresh h hh).first e he hstarts

/-- An append to one of the lists. -/
theorem append {given : ListHandle → ℕ} (h : Kept A given r) (hfresh : ∀ h ∈ A, Fresh p (A ∪ R) N h)
    {x : ListHandle} (hx : x ∈ A) (hgiven : given x < N) (v : Bytes) :
    Kept A (update given x (given x + 1)) (r.append x v) ∧
      ∀ y ∈ A ∪ R, (r.append x v).getAll y = r.getAll y ++ if x = y then [v] else [] := by
  have hlt : given x < 2 ^ 64 := Nat.lt_of_lt_of_le hgiven (hfresh x hx).numbers
  have hseq : r.seqs x = given x := by rw [h.seqs, Nat.mod_eq_of_lt hlt]
  refine ⟨⟨fun y => ?_, fun y hy hbound e he hstarts => ?_⟩, fun y hy => ?_⟩
  · by_cases hyx : y = x
    · subst hyx
      rw [append_seqs_self, hseq, update_self]
    · have hsame : (r.append x v).seqs y = r.seqs y := update_of_ne hyx _ _
      rw [hsame, h.seqs, update_of_ne hyx]
  · by_cases hyx : y = x
    · subst hyx
      rw [update_self] at hbound ⊢
      have hnext := y.entryKey_lt (Nat.lt_succ_self (given y)) hbound
      rcases mem_append he with rfl | he
      · rw [hseq]
        exact hnext
      · exact Std.lt_trans (h.last y hy hlt e he hstarts) hnext
    · rw [update_of_ne hyx] at hbound ⊢
      rcases mem_append he with rfl | he
      · rw [hseq, (hfresh x hx).starts_eq_false (.inl hy) hyx hgiven] at hstarts
        exact absurd hstarts Bool.false_ne_true
      · exact h.last y hy hbound e he hstarts
  · split
    case isTrue heq =>
      subst heq
      apply getAll_append_of_last
      rw [hseq]
      exact h.last x hx hlt
    case isFalse hne =>
      rw [append_nil]
      apply getAll_append_of_not
      rw [hseq]
      exact (hfresh x hx).starts_eq_false hy (Ne.symm hne) hgiven

/-- The lists of a continuation, by induction on its operations. -/
theorem run {given : ListHandle → ℕ} (h : Kept A given r)
    (hfresh : ∀ h ∈ A, Fresh p (A ∪ R) N h) {ops : List (ListHandle × ListOp)}
    (hops : ∀ x ∈ ops, (∃ v, x.2 = .append v ∧ x.1 ∈ A) ∨ x.2 = .getAll)
    (hgiven : ∀ y, given y + appends y ops ≤ N) {y : ListHandle} (hy : y ∈ A ∪ R) :
    (pebbleLists.run r ops).getAll y = r.getAll y ++ appended y ops := by
  induction ops generalizing given r with
  | nil => exact (append_nil _).symm
  | cons x ops ih =>
    obtain ⟨x, op⟩ := x
    have hrest := fun z hz => hops z (mem_cons_of_mem _ hz)
    rcases hops (x, op) mem_cons_self with ⟨v, hop, hx⟩ | hop
    · obtain rfl : op = .append v := hop
      have hlt : given x < N := by
        have hcount := given_append given x v ops x
        have hle := hgiven x
        rw [update_self] at hcount
        omega
      obtain ⟨hkept, hlists⟩ := h.append hfresh hx hlt v
      have hstep := ih hkept hrest fun z => by
        rw [given_append given x v]
        exact hgiven z
      show (pebbleLists.run (r.append x v) ops).getAll y = _
      rw [hstep, hlists y hy, append_assoc]
      rw [appended_append]
    · obtain rfl : op = .getAll := hop
      exact ih h hrest fun z => by
        rw [← appends_cons_of_not (show ListOp.getAll.isAppend = false from rfl) z x]
        exact hgiven z

end Kept

/-! ## Lists with entries -/

theorem exists_notMem (l : List Bytes) : ∃ v, v ∉ l := by
  obtain ⟨v, hv⟩ := Infinite.exists_notMem_finset l.toFinset
  exact ⟨v, fun hmem => hv (mem_toFinset.mpr hmem)⟩

/-- Appending one value over and over. -/
theorem continues_replicate {h : ListHandle} (hh : h ∈ A) {n : ℕ} (hn : n ≤ N) (v : Bytes) :
    Continues A N (replicate n (h, .append v)) where
  op x hx := by
    rw [eq_of_mem_replicate hx]
    exact .inl ⟨v, rfl, hh⟩
  count y := by
    have hle : appends y (replicate n (h, .append v)) ≤ _ := countP_le_length
    rw [length_replicate] at hle
    omega

theorem appended_replicate (h x : ListHandle) (n : ℕ) (v : Bytes) :
    appended h (replicate n (x, .append v)) = if x = h then replicate n v else [] := by
  induction n with
  | zero => split <;> rfl
  | succ n ih =>
    rw [replicate_succ, appended_append, ih]
    split <;> rfl

/-- The entry of the last of these values. -/
theorem mem_replicate_succ (h : ListHandle) (v : Bytes) {n : ℕ} (hn : n < 2 ^ 64)
    (hseq : r.seqs h = 0) :
    (h.entryKey n, v) ∈ (pebbleLists.run r (replicate (n + 1) (h, .append v))).db.entries := by
  have hrun : pebbleLists.run r (replicate (n + 1) (h, .append v)) =
      (pebbleLists.run r (replicate n (h, .append v))).append h v := by
    rw [replicate_succ', ListBackend.run, foldl_append]
    rfl
  have hnumber := (run_replicate h v n r).1
  rw [hseq, Nat.zero_add, Nat.mod_eq_of_lt hn] at hnumber
  have hkey : h.entryKey n =
      h.entryKey ((pebbleLists.run r (replicate n (h, .append v))).seqs h) := by
    rw [← h.entryKey_mod (seqs _ h), hnumber]
  rw [hrun, append_entries, hkey]
  exact SortedMap.mem_insertSorted_self _ v _

/-- If all continuations find the lists as they should be, then each list that may be appended to
    meets the condition. -/
theorem fresh_of_survives (hN : N ≠ 0)
    (hsurvives : ∀ ops, Continues A N ops → ∀ h ∈ A ∪ R, Survives p (.openPebble p.db) ops h)
    {h : ListHandle} (hh : h ∈ A) : Fresh p (A ∪ R) N h := by
  have hnumbers : N ≤ 2 ^ 64 := by
    by_contra hgt
    have hlist := hsurvives _ (continues_replicate hh (Nat.le_refl N) []) h (.inl hh)
    rw [Survives, appended_replicate, if_pos rfl] at hlist
    have hlength := congrArg length hlist
    rw [length_append, length_replicate] at hlength
    have hle : _ ≤ (p.getAll h).length + 2 ^ 64 :=
      getAll_replicate_length_le h [] N (.openPebble p.db)
    omega
  refine ⟨hnumbers, fun e he hpre => ?_, fun h' hh' hne seq hseq hpre => ?_⟩
  · by_contra hnot
    -- a value that is new to the list would have to come last
    obtain ⟨v, hv⟩ := exists_notMem (p.getAll h)
    have hlist := hsurvives _ (continues_replicate hh (Nat.pos_of_ne_zero hN) v) h (.inl hh)
    rw [Survives, appended_replicate, if_pos rfl] at hlist
    change ((openPebble p.db).append h v).getAll h = p.getAll h ++ [v] at hlist
    rw [getAll_eq, getAll_eq, append_entries] at hlist
    rw [getAll_eq] at hv
    have hk : ∀ v, starts h (h.entryKey 0, v) = true := fun v =>
      starts_iff.mpr (h.prefix_entryKey 0)
    rw [h.listPrefixBytes_eq, ← starts_iff] at hpre
    exact SortedMap.map_filter_insertSorted_ne hk hv he hpre hnot hlist
  · -- a value that is new to the other list would show there
    obtain ⟨v, hv⟩ := exists_notMem (p.getAll h')
    have hlist := hsurvives _ (continues_replicate hh (Nat.succ_le_of_lt hseq) v) h' hh'
    rw [Survives, appended_replicate, if_neg hne.symm, append_nil] at hlist
    have hmem := mem_replicate_succ (r := .openPebble p.db) h v
      (Nat.lt_of_lt_of_le hseq hnumbers) rfl
    rw [h'.listPrefixBytes_eq] at hpre
    apply hv
    rw [← hlist, getAll_eq]
    exact mem_map.mpr ⟨_, mem_filter.mpr ⟨hmem, starts_iff.mpr hpre⟩, rfl⟩

/-- After a recovery every list is read as it was at the checkpoint, followed by what was appended
    since, in all continuations that append to the lists `A`, at most `N` times to each, and read
    the lists `A` and `R`, exactly if the lists `A` have no recovered entries that an append could
    take the place of or come before. -/
theorem recovered_lists_iff (p : PebbleBackend) (A R : Set ListHandle) (N : ℕ) :
    (∀ r, Recovered p r → ∀ ops, Continues A N ops → ∀ h ∈ A ∪ R, Survives p r ops h) ↔
      N = 0 ∨ ∀ h ∈ A, Fresh p (A ∪ R) N h := by
  constructor
  · intro hsurvives
    by_cases hN : N = 0
    · exact .inl hN
    · exact .inr fun h hh => fresh_of_survives hN (hsurvives _ .reopened) hh
  · intro hcond r hr ops hops h hh
    rw [hr.eq]
    rcases hcond with rfl | hfresh
    · -- there are no appends
      have hreads : ∀ x ∈ ops, (∃ v, x.2 = .append v ∧ x.1 ∈ (∅ : Set ListHandle)) ∨
          x.2 = .getAll := by
        intro x hx
        rcases hops.op x hx with ⟨v, hop, -⟩ | hop
        · have hzero := countP_eq_zero.mp (Nat.le_zero.mp (hops.count x.1)) x hx
          simp [hop, ListOp.isAppend] at hzero
        · exact .inr hop
      have hkept : Kept ∅ (fun _ => 0) (.openPebble p.db) := ⟨fun _ => rfl, fun _ => False.elim⟩
      exact hkept.run (p := p) (N := 0) (fun _ => False.elim) hreads
        (fun y => by
          rw [Nat.zero_add]
          exact hops.count y) (.inr hh)
    · exact (Kept.start hfresh).run hfresh hops.op (fun y => by
        rw [Nat.zero_add]
        exact hops.count y) hh

/-- A value that was buffered before the checkpoint is lost. -/
theorem recovered_list_overwritten :
    let p := pebbleLists.run (.openPebble .empty) [(⟨[119], [107]⟩, .append [97])]
    let r := (PebbleBackend.openPebble .empty).restoreFrom p.checkpointTo
    let ops := [(⟨[119], [107]⟩, ListOp.append [98])]
    p.getAll ⟨[119], [107]⟩ = [[97]] ∧ r.getAll ⟨[119], [107]⟩ = [[97]] ∧
      (pebbleLists.run r ops).getAll ⟨[119], [107]⟩ = [[98]] := by
  decide

end Weibo
