import Mathlib.Data.List.AList
import Weibo.ForStd.LexPath

/-!
# File trees

The files and directories of a file system by the names that lead to them from the root, and the
calls that programs make on them. A call fails if the tree does not allow it, and it may fail for
any other reason; `Leaves` says what a program that makes some calls one after the other, and gives
up at the first failure, may leave behind.

## Key results

- `Leaves.lookup_eq`: only the files that the calls name change
- `Proper.calls`: calls keep a tree proper, that is, every file and directory is in a
  directory
- `calls_writeAll`: files none of which is above another can be written with all the
  directories they need
-/

/-- A file system: the contents of its files, and its directories other than the root. -/
structure FileTree (β : Type*) where
  files : AList fun _ : List (List Char) => β
  dirs : List (List (List Char))

namespace FileTree

open List Option

variable {β : Type*} {t t' : FileTree β} {p q : List (List Char)} {fs : List (List (List Char) × β)}
  {P : List (List Char) → Prop} {content : β} {d : List (List Char)}

/-- A file system with nothing in it. -/
def empty : FileTree β := ⟨∅, []⟩

/-- The contents of a file. -/
def lookup (t : FileTree β) (p : List (List Char)) : Option β := t.files.lookup p

def isFile (t : FileTree β) (p : List (List Char)) : Bool := (t.lookup p).isSome

def isDir (t : FileTree β) (p : List (List Char)) : Bool := p.isEmpty || t.dirs.contains p

theorem mem_entries_iff :
    ⟨p, content⟩ ∈ t.files.entries ↔ t.lookup p = some content := AList.mem_lookup_iff.symm

theorem isFile_of_lookup (h : t.lookup p = some content) : t.isFile p = true := by
  rw [isFile, h]
  rfl

/-- Set the contents of a file. -/
def put (t : FileTree β) (p : List (List Char)) (content : β) : FileTree β :=
  { t with files := t.files.insert p content }

/-- Make a directory and those above it. -/
def makeDirs (t : FileTree β) (p : List (List Char)) : FileTree β :=
  { t with dirs := p.inits ++ t.dirs }

def erase (t : FileTree β) (p : List (List Char)) : FileTree β :=
  { t with files := t.files.erase p }

/-! ## Calls -/

/-- A call on the file system. -/
inductive Call (β : Type*) where
  /-- Make a directory and those above it. -/
  | mkdirAll (p : List (List Char))
  /-- Make a file, or make it empty, and write it. -/
  | write (p : List (List Char)) (content : β)
  | rename (p q : List (List Char))
  /-- Open a directory, or a file, to sync it. -/
  | sync (p : List (List Char))

/-- What a call that succeeds does; `none` if it cannot. -/
def call (t : FileTree β) : Call β → Option (FileTree β)
  | .mkdirAll p =>
    if p.inits.any t.isFile then none else some (t.makeDirs p)
  | .write p content =>
    if !t.isDir p && t.isDir p.dropLast then some (t.put p content) else none
  | .rename p q =>
    match t.lookup p with
    | none => none
    | some content =>
      if !t.isDir q && t.isDir q.dropLast then some ((t.erase p).put q content) else none
  | .sync p => if t.isDir p || t.isFile p then some t else none

/-- Calls one after the other. -/
def calls (t : FileTree β) (cs : List (Call β)) : Option (FileTree β) := cs.foldlM call t

@[simp] theorem calls_nil (t : FileTree β) : t.calls [] = some t := rfl

theorem calls_cons (t : FileTree β) (c : Call β) (cs : List (Call β)) :
    t.calls (c :: cs) = (t.call c).bind fun t' => t'.calls cs := rfl

theorem calls_append (t : FileTree β) (cs ds : List (Call β)) :
    t.calls (cs ++ ds) = (t.calls cs).bind fun t' => t'.calls ds := by
  induction cs generalizing t with
  | nil => rfl
  | cons c cs ih =>
    rw [cons_append, calls_cons, calls_cons]
    cases t.call c with
    | none => rfl
    | some t' => exact ih t'

/-- The files that a call makes, or writes to. -/
def Call.writes : Call β → List (List (List Char))
  | .mkdirAll _ | .sync _ => []
  | .write p _ => [p]
  | .rename p q => [p, q]

/-- Calls that make files, or write to them, at certain places only. -/
def WritesOnly (P : List (List Char) → Prop) (cs : List (Call β)) : Prop :=
  ∀ c ∈ cs, ∀ q ∈ c.writes, P q

theorem writesOnly_nil (P : List (List Char) → Prop) : WritesOnly P ([] : List (Call β)) :=
  fun _ hc => absurd hc not_mem_nil

theorem WritesOnly.append {cs ds : List (Call β)} (hcs : WritesOnly P cs) (hds : WritesOnly P ds) : WritesOnly P (cs ++ ds) := by
  intro c hc
  rcases mem_append.mp hc with hc | hc
  · exact hcs c hc
  · exact hds c hc

/-- What is left behind by calls any of which may fail. -/
inductive Leaves : FileTree β → List (Call β) → FileTree β → Prop
  /-- The next call, if there is one, fails. -/
  | stop (t : FileTree β) (cs : List (Call β)) : Leaves t cs t
  /-- A write is cut short. -/
  | cut (t : FileTree β) (p : List (List Char)) (content content' : β) (cs : List (Call β)) :
    Leaves t (.write p content :: cs) (t.put p content')
  /-- A file that could not be renamed is removed. -/
  | dropped (t : FileTree β) (p q : List (List Char)) (cs : List (Call β)) :
    Leaves t (.rename p q :: cs) (t.erase p)
  | step {t t₁ t' : FileTree β} {c : Call β} {cs : List (Call β)} (h : t.call c = some t₁)
    (hrest : Leaves t₁ cs t') : Leaves t (c :: cs) t'

/-- A program may fail right after any of its calls. -/
theorem leaves_append {cs : List (Call β)} (h : t.calls cs = some t') (ds : List (Call β)) : Leaves t (cs ++ ds) t' := by
  induction cs generalizing t with
  | nil =>
    obtain rfl := some.inj h
    exact Leaves.stop t ds
  | cons c cs ih =>
    rw [calls_cons] at h
    obtain ⟨t₁, hcall, hrest⟩ := bind_eq_some_iff.mp h
    exact Leaves.step hcall (ih hrest)

/-! ## Contents after a call -/

@[simp] theorem lookup_put_self (t : FileTree β) (p : List (List Char)) (content : β) :
    (t.put p content).lookup p = some content := AList.lookup_insert _

@[simp] theorem lookup_put_ne (t : FileTree β) (content : β) (h : q ≠ p) :
    (t.put p content).lookup q = t.lookup q := AList.lookup_insert_ne h

@[simp] theorem lookup_erase_self (t : FileTree β) (p : List (List Char)) :
    (t.erase p).lookup p = none := AList.lookup_erase _ _

@[simp] theorem lookup_erase_ne (t : FileTree β) (h : q ≠ p) :
    (t.erase p).lookup q = t.lookup q := AList.lookup_erase_ne h

/-! ## Directories -/

theorem isDir_eq_true_iff : t.isDir p = true ↔ p = [] ∨ p ∈ t.dirs := by
  rw [isDir, Bool.or_eq_true, List.isEmpty_iff, contains_iff_mem]

@[simp] theorem isDir_put (t : FileTree β) (p q : List (List Char)) (content : β) :
    (t.put p content).isDir q = t.isDir q := rfl

theorem isDir_makeDirs : (t.makeDirs p).isDir q = true ↔ q <+: p ∨ t.isDir q = true := by
  rw [isDir_eq_true_iff, isDir_eq_true_iff, makeDirs, mem_append, mem_inits]
  constructor
  · rintro (rfl | hq | hq)
    · exact Or.inr (Or.inl rfl)
    · exact Or.inl hq
    · exact Or.inr (Or.inr hq)
  · rintro (hq | rfl | hq)
    · exact Or.inr (Or.inl hq)
    · exact Or.inl rfl
    · exact Or.inr (Or.inr hq)

/-! ## Calls that succeed -/

/-- Directories can be made where no file is in the way. -/
theorem call_mkdirAll (h : ∀ q, q <+: p → t.lookup q = none) : t.call (.mkdirAll p) = some (t.makeDirs p) := by
  have hfiles : p.inits.any t.isFile = false := by
    rw [List.any_eq_false]
    intro q hq
    rw [isFile, h q (mem_inits q p |>.mp hq)]
    exact Bool.false_ne_true
  rw [call, hfiles, if_neg Bool.false_ne_true]

/-- A file can be written in a directory, unless its name is that of another one. -/
theorem call_write {n : List Char} (content : β)
    (hd : t.isDir d = true) (hn : t.isDir (d ++ [n]) = false) :
    t.call (.write (d ++ [n]) content) = some (t.put (d ++ [n]) content) := by
  rw [call, dropLast_concat, hd, hn]
  rfl

/-- Directories are made and a file is written where nothing is yet. -/
theorem leaves_write_empty {n : List Char} (content : β) (hd : d <+: p)
    (hn : ¬ d ++ [n] <+: p) (cs : List (Call β)) :
    ∃ t, Leaves empty ([.mkdirAll p, .write (d ++ [n]) content] ++ cs) t ∧
      t.lookup (d ++ [n]) = some content := by
  have hmkdir : (empty : FileTree β).call (.mkdirAll p) = some (empty.makeDirs p) :=
    call_mkdirAll fun _ _ => rfl
  have hdir : (empty.makeDirs p : FileTree β).isDir d = true := isDir_makeDirs.mpr (Or.inl hd)
  have hdir' : (empty.makeDirs p : FileTree β).isDir (d ++ [n]) = false := by
    rw [← Bool.not_eq_true, isDir_makeDirs, not_or]
    exact ⟨hn, by simp [isDir, empty]⟩
  refine ⟨(empty.makeDirs p).put (d ++ [n]) content, leaves_append ?_ cs, lookup_put_self _ _ _⟩
  rw [calls_cons, hmkdir, bind_some, calls_cons, call_write content hdir hdir']
  rfl

/-- A call changes the files it names only. -/
theorem lookup_call {c : Call β} (h : t.call c = some t') (hq : q ∉ c.writes) : t'.lookup q = t.lookup q := by
  cases c with
  | mkdirAll p =>
    obtain ⟨-, h⟩ := ite_none_left_eq_some.mp h
    cases h
    rfl
  | write p content =>
    obtain ⟨-, h⟩ := ite_none_right_eq_some.mp h
    cases h
    exact lookup_put_ne t content (by simpa [Call.writes] using hq)
  | rename p p' =>
    obtain ⟨hp, hp'⟩ : q ≠ p ∧ q ≠ p' := by simpa [Call.writes] using hq
    rw [call] at h
    split at h
    · simp at h
    · split at h <;> cases h
      rw [lookup_put_ne _ _ hp', lookup_erase_ne _ hp]
  | sync p =>
    obtain ⟨-, h⟩ := ite_none_right_eq_some.mp h
    cases h
    rfl

/-- Whatever fails, only the files that the calls name change. -/
theorem Leaves.lookup_eq {cs : List (Call β)} (h : Leaves t cs t')
    (hcs : WritesOnly P cs) (hP : ¬ P q) :
    t'.lookup q = t.lookup q := by
  have hq : ∀ c ∈ cs, q ∉ c.writes := fun c hc hmem => hP (hcs c hc q hmem)
  clear hcs
  induction h with
  | stop => rfl
  | cut t p content content' cs =>
    have hne := hq _ mem_cons_self
    exact lookup_put_ne t content' (by simpa [Call.writes] using hne)
  | dropped t p p' cs =>
    have hne := hq _ mem_cons_self
    exact lookup_erase_ne t (by simp [Call.writes] at hne; exact hne.1)
  | step hcall _ ih =>
    obtain ⟨hc, hcs⟩ := forall_mem_cons.mp hq
    rw [ih hcs, lookup_call hcall hc]

theorem lookup_calls {cs : List (Call β)} (h : t.calls cs = some t')
    (hcs : WritesOnly P cs) (hP : ¬ P q) :
    t'.lookup q = t.lookup q := by
  have hleaves := leaves_append h []
  rw [append_nil] at hleaves
  exact hleaves.lookup_eq hcs hP

theorem calls_sync {α : Type*} {l : List α} {f : α → List (List Char)}
    (h : ∀ a ∈ l, t.isDir (f a) = true) : t.calls (l.map fun a => .sync (f a)) = some t := by
  induction l with
  | nil => rfl
  | cons a l ih =>
    obtain ⟨ha, hl⟩ := forall_mem_cons.mp h
    rw [map_cons, calls_cons, call, ha, Bool.true_or, if_pos rfl, bind_some, ih hl]

/-! ## Proper trees -/

/-- A tree as file systems have them: every file and directory is in a directory, and has a name of
    its own. -/
structure Proper (t : FileTree β) : Prop where
  isName : ∀ p, t.isFile p = true → ∀ s ∈ p, IsName s
  file : ∀ p, t.isFile p = true → t.isDir p = false ∧ t.isDir p.dropLast = true
  dir : ∀ p, t.isDir p = true → t.isDir p.dropLast = true

theorem Proper.isDir_isPrefix (h : t.Proper) (hp : t.isDir p = true) (hq : q <+: p) : t.isDir q = true := by
  obtain ⟨rest, rfl⟩ := hq
  -- go up, one name at a time
  induction rest using reverseRecOn with
  | nil => rwa [append_nil] at hp
  | append_singleton rest s ih =>
    have hup := h.dir _ hp
    rw [← append_assoc, dropLast_concat] at hup
    exact ih hup

/-- What is above a file is a directory. -/
theorem Proper.isDir_above (h : t.Proper) (hp : t.isFile p = true) (hq : q <+: p) (hne : q ≠ p) : t.isDir q = true := by
  refine h.isDir_isPrefix (h.file p hp).2 ?_
  obtain ⟨rest, rfl⟩ := hq
  have hrest : rest ≠ [] := by
    rintro rfl
    exact hne (append_nil q).symm
  rw [dropLast_append_of_ne_nil hrest]
  exact prefix_append _ _

/-- No file is above another. -/
theorem Proper.eq_of_isPrefix (h : t.Proper)
    (hp : t.isFile p = true) (hq : t.isFile q = true) (hpq : q <+: p) : q = p := by
  by_contra hne
  have hdir := h.isDir_above hp hpq hne
  rw [(h.file q hq).1] at hdir
  exact Bool.false_ne_true hdir

theorem proper_empty : (empty : FileTree β).Proper := by
  have hfile : ∀ p, (empty : FileTree β).isFile p = true → False := by
    intro p hp
    simp [isFile, lookup, empty] at hp
  refine ⟨fun p hp => (hfile p hp).elim, fun p hp => (hfile p hp).elim, fun p hp => ?_⟩
  have hnil : p = [] := by simpa [isDir, empty] using hp
  rw [hnil]
  rfl

theorem Proper.makeDirs (h : t.Proper) (hp : ∀ q, q <+: p → t.isFile q = false) : (t.makeDirs p).Proper where
  isName := h.isName
  file q hq := by
    have hfile : t.isFile q = true := hq
    refine ⟨?_, isDir_makeDirs.mpr (Or.inr (h.file q hq).2)⟩
    rw [← Bool.not_eq_true, isDir_makeDirs, (h.file q hq).1, not_or]
    refine ⟨fun hpre => ?_, Bool.false_ne_true⟩
    rw [hp q hpre] at hfile
    exact Bool.false_ne_true hfile
  dir q hq := by
    rcases isDir_makeDirs.mp hq with hpre | hdir
    · exact isDir_makeDirs.mpr (Or.inl (( dropLast_prefix q).trans hpre))
    · exact isDir_makeDirs.mpr (Or.inr (h.dir q hdir))

theorem isFile_put (h : (t.put p content).isFile q = true) : q = p ∨ t.isFile q = true := by
  by_cases hq : q = p
  · exact Or.inl hq
  · rw [isFile, lookup_put_ne t content hq] at h
    exact Or.inr h

theorem isFile_erase (h : (t.erase p).isFile q = true) : t.isFile q = true := by
  by_cases hq : q = p
  · rw [hq, isFile, lookup_erase_self] at h
    exact absurd h Bool.false_ne_true
  · rw [isFile, lookup_erase_ne t hq] at h
    exact h

theorem Proper.put (h : t.Proper) (content : β)
    (hname : ∀ s ∈ p, IsName s) (hp : t.isDir p = false) (hd : t.isDir p.dropLast = true) :
    (t.put p content).Proper where
  isName q hq := by
    rcases isFile_put hq with rfl | hq
    · exact hname
    · exact h.isName q hq
  file q hq := by
    rcases isFile_put hq with rfl | hq
    · exact ⟨hp, hd⟩
    · exact h.file q hq
  dir := h.dir

theorem Proper.erase (h : t.Proper) (p : List (List Char)) : (t.erase p).Proper where
  isName q hq := h.isName q (isFile_erase hq)
  file q hq := h.file q (isFile_erase hq)
  dir := h.dir

/-- A call keeps a tree proper. -/
theorem Proper.call {c : Call β} (ht : t.Proper) (h : t.call c = some t')
    (hname : ∀ p ∈ c.writes, ∀ s ∈ p, IsName s) : t'.Proper := by
  cases c with
  | mkdirAll p =>
    obtain ⟨hfiles, h⟩ := ite_none_left_eq_some.mp h
    cases h
    refine ht.makeDirs fun q hq => ?_
    rw [List.any_eq_true, not_exists] at hfiles
    rw [← Bool.not_eq_true]
    exact fun hfile => hfiles q ⟨(mem_inits q p).mpr hq, hfile⟩
  | write p content =>
    obtain ⟨hdirs, h⟩ := ite_none_right_eq_some.mp h
    cases h
    rw [Bool.and_eq_true, Bool.not_eq_true'] at hdirs
    exact ht.put content (hname p mem_cons_self) hdirs.1 hdirs.2
  | rename p q =>
    rw [FileTree.call] at h
    split at h
    · simp at h
    · obtain ⟨hdirs, h⟩ := ite_none_right_eq_some.mp h
      cases h
      rw [Bool.and_eq_true, Bool.not_eq_true'] at hdirs
      exact (ht.erase p).put _ (hname q (mem_cons_of_mem p mem_cons_self)) hdirs.1 hdirs.2
  | sync p =>
    obtain ⟨-, h⟩ := ite_none_right_eq_some.mp h
    cases h
    exact ht

/-- Calls keep a tree proper. -/
theorem Proper.calls {cs : List (Call β)} (ht : t.Proper)
    (h : t.calls cs = some t') (hname : WritesOnly (fun p => ∀ s ∈ p, IsName s) cs) :
    t'.Proper := by
  induction cs generalizing t with
  | nil =>
    cases h
    exact ht
  | cons c cs ih =>
    obtain ⟨hc, hcs⟩ := forall_mem_cons.mp hname
    rw [calls_cons] at h
    obtain ⟨t₁, hcall, hrest⟩ := bind_eq_some_iff.mp h
    exact ih (ht.call hcall hc) hrest hcs

/-! ## Replacing a file -/

/-- Write a file under another name and rename it. -/
def replace (t : FileTree β) (tmp p : List (List Char)) (content : β) : FileTree β :=
  ((t.put tmp content).erase tmp).put p content

theorem lookup_replace_self (t : FileTree β) (tmp p : List (List Char)) (content : β) :
    (t.replace tmp p content).lookup p = some content := lookup_put_self _ _ _

theorem lookup_replace_ne (t : FileTree β) {tmp : List (List Char)} (content : β)
    (hp : q ≠ p) (htmp : q ≠ tmp) : (t.replace tmp p content).lookup q = t.lookup q := by
  rw [replace, lookup_put_ne _ _ hp, lookup_erase_ne _ htmp, lookup_put_ne _ _ htmp]

/-- A file that was written under another name and renamed is replaced. -/
theorem eq_replace {tmp : List (List Char)}
    (h : t.calls [.write tmp content, .rename tmp p] = some t') :
    t' = t.replace tmp p content := by
  rw [calls_cons] at h
  obtain ⟨t₁, hwrite, h⟩ := bind_eq_some_iff.mp h
  obtain ⟨-, hwrite⟩ := ite_none_right_eq_some.mp hwrite
  cases hwrite
  rw [calls_cons, call, lookup_put_self] at h
  dsimp only at h
  obtain ⟨t₂, hrename, h⟩ := bind_eq_some_iff.mp h
  split at hrename <;> cases hrename
  exact (some.inj h).symm

theorem calls_replace {n n' : List Char} (content : β)
    (hd : t.isDir d = true) (hn : t.isDir (d ++ [n]) = false) (hn' : t.isDir (d ++ [n']) = false) :
    t.calls [.write (d ++ [n']) content, .rename (d ++ [n']) (d ++ [n])] =
      some (t.replace (d ++ [n']) (d ++ [n]) content) := by
  rw [calls_cons, call_write content hd hn', bind_some, calls_cons, call, lookup_put_self]
  dsimp only
  rw [isDir_put, isDir_put, dropLast_concat, hn, hd]
  rfl

/-! ## Writing several files -/

/-- Write files with the directories they are in. -/
def writeAll (fs : List (List (List Char) × β)) : List (Call β) :=
  fs.flatMap fun f => [.mkdirAll f.1.dropLast, .write f.1 f.2]

/-- The tree with the files and their directories. -/
def putAll (t : FileTree β) (fs : List (List (List Char) × β)) : FileTree β :=
  fs.foldl (fun t f => (t.makeDirs f.1.dropLast).put f.1 f.2) t

theorem writeAll_writesOnly (h : ∀ f ∈ fs, P f.1) : WritesOnly P (writeAll fs) := by
  intro c hc q hq
  obtain ⟨f, hf, hc⟩ := mem_flatMap.mp hc
  rcases mem_cons.mp hc with rfl | hc
  · cases hq
  · obtain rfl := mem_singleton.mp hc
    rw [mem_singleton.mp hq]
    exact h f hf

/-- Nothing keeps a file from being written: no directory has its name, and no file is above it. -/
def Free (t : FileTree β) (p : List (List Char)) : Prop :=
  t.isDir p = false ∧ ∀ q, q <+: p.dropLast → t.lookup q = none

theorem isPrefix_dropLast (h : p <+: q.dropLast) (hq : q ≠ []) : p <+: q ∧ p ≠ q := by
  refine ⟨h.trans ( dropLast_prefix q), fun heq => ?_⟩
  have hlen := h.length_le
  have hpos := length_pos_of_ne_nil hq
  rw [length_dropLast, heq] at hlen
  omega

/-- A file that was written keeps no other file from being written, unless one is above the
    other. -/
theorem Free.put {p' : List (List Char)} (h : t.Free p') (hne : p ≠ []) (hne' : p' ≠ [])
    (habove : ¬ (p <+: p' ∧ p ≠ p')) (hbelow : ¬ (p' <+: p ∧ p' ≠ p)) :
    ((t.makeDirs p.dropLast).put p content).Free p' := by
  refine ⟨?_, fun q hq => ?_⟩
  · rw [isDir_put, ← Bool.not_eq_true, isDir_makeDirs, h.1, not_or]
    exact ⟨fun hpre => hbelow (isPrefix_dropLast hpre hne), Bool.false_ne_true⟩
  · have hqp : q ≠ p := by
      rintro rfl
      exact habove (isPrefix_dropLast hq hne')
    rw [lookup_put_ne _ _ hqp]
    exact h.2 q hq

/-- Files none of which is above another can be written one after the other. -/
theorem calls_writeAll (hne : ∀ f ∈ fs, f.1 ≠ []) (hfree : ∀ f ∈ fs, t.Free f.1)
    (habove : ∀ f ∈ fs, ∀ g ∈ fs, ¬ (f.1 <+: g.1 ∧ f.1 ≠ g.1)) :
    t.calls (writeAll fs) = some (t.putAll fs) := by
  induction fs generalizing t with
  | nil => rfl
  | cons f fs ih =>
    obtain ⟨hnef, hnefs⟩ := forall_mem_cons.mp hne
    obtain ⟨hfreef, hfreefs⟩ := forall_mem_cons.mp hfree
    obtain ⟨d, n, hdn⟩ : ∃ d n, f.1 = d ++ [n] :=
      ⟨_, _, (dropLast_append_getLast hnef).symm⟩
    have hwrite : (t.makeDirs f.1.dropLast).call (.write f.1 f.2) =
        some ((t.makeDirs f.1.dropLast).put f.1 f.2) := by
      rw [hdn, dropLast_concat]
      refine call_write f.2 (isDir_makeDirs.mpr (Or.inl prefix_rfl)) ?_
      rw [← Bool.not_eq_true, isDir_makeDirs, ← hdn, hfreef.1, not_or]
      refine ⟨fun hpre => ?_, Bool.false_ne_true⟩
      have hlen := hpre.length_le
      rw [hdn, length_append, length_singleton] at hlen
      omega
    have hrest := ih (t := (t.makeDirs f.1.dropLast).put f.1 f.2) hnefs
      (fun g hg => (hfreefs g hg).put hnef (hnefs g hg)
        (habove f mem_cons_self g (mem_cons_of_mem f hg))
        (habove g (mem_cons_of_mem f hg) f mem_cons_self))
      (fun g hg g' hg' => habove g (mem_cons_of_mem f hg) g' (mem_cons_of_mem f hg'))
    show t.calls ([.mkdirAll f.1.dropLast, .write f.1 f.2] ++ writeAll fs) = _
    rw [calls_append, calls_cons, call_mkdirAll hfreef.2, bind_some, calls_cons, hwrite,
      bind_some, calls_nil, bind_some, hrest]
    rfl

theorem lookup_putAll_of_notMem (h : ∀ f ∈ fs, q ≠ f.1) : (t.putAll fs).lookup q = t.lookup q := by
  induction fs generalizing t with
  | nil => rfl
  | cons f fs ih =>
    obtain ⟨hf, hfs⟩ := forall_mem_cons.mp h
    exact (ih hfs).trans (lookup_put_ne _ _ hf)

theorem lookup_putAll_of_mem (hmem : ∃ f ∈ fs, q = f.1) (h : ∀ f ∈ fs, q = f.1 → f.2 = content) : (t.putAll fs).lookup q = some content := by
  induction fs generalizing t with
  | nil =>
    obtain ⟨f, hf, -⟩ := hmem
    cases hf
  | cons g fs ih =>
    obtain ⟨hg, hfs⟩ := forall_mem_cons.mp h
    by_cases hmem' : ∃ f ∈ fs, q = f.1
    · -- the last of these writes counts
      exact ih hmem' hfs
    · have hqg : q = g.1 := ((exists_mem_cons_iff _ _ _).mp hmem).resolve_right hmem'
      have hrest : ∀ f ∈ fs, q ≠ f.1 := fun f hf heq => hmem' ⟨f, hf, heq⟩
      show (((t.makeDirs g.1.dropLast).put g.1 g.2).putAll fs).lookup q = some content
      rw [lookup_putAll_of_notMem hrest, hqg, lookup_put_self, hg hqg]

/-- The files that were written, if none was written with two contents, and otherwise those that
    were there. -/
theorem lookup_putAll_eq_some_iff (hfun : ∀ f ∈ fs, ∀ g ∈ fs, f.1 = g.1 → f.2 = g.2) :
    (t.putAll fs).lookup q = some content ↔
      (q, content) ∈ fs ∨ (∀ f ∈ fs, q ≠ f.1) ∧ t.lookup q = some content := by
  by_cases hmem : ∃ f ∈ fs, q = f.1
  · obtain ⟨f, hf, rfl⟩ := hmem
    rw [lookup_putAll_of_mem ⟨f, hf, rfl⟩ fun g hg heq => (hfun f hf g hg heq).symm]
    constructor
    · intro h
      cases h
      exact Or.inl hf
    · rintro (h | ⟨h, -⟩)
      · exact congrArg some (hfun f hf _ h rfl)
      · exact absurd rfl (h f hf)
  · have hne : ∀ f ∈ fs, q ≠ f.1 := fun f hf heq => hmem ⟨f, hf, heq⟩
    rw [lookup_putAll_of_notMem hne]
    constructor
    · exact fun h => Or.inr ⟨hne, h⟩
    · rintro (h | ⟨-, h⟩)
      · exact absurd rfl (hne _ h)
      · exact h

theorem isDir_putAll :
    (t.putAll fs).isDir q = true ↔ (∃ f ∈ fs, q <+: f.1.dropLast) ∨ t.isDir q = true := by
  induction fs generalizing t with
  | nil => simp [putAll]
  | cons f fs ih =>
    show (((t.makeDirs f.1.dropLast).put f.1 f.2).putAll fs).isDir q = true ↔ _
    rw [ih, isDir_put, isDir_makeDirs, exists_mem_cons_iff]
    exact or_left_comm.trans or_assoc.symm

end FileTree
