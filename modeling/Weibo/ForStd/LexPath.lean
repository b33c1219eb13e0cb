import Mathlib.Data.List.Infix

/-!
# Lexical paths

Slash-separated paths as they are cleaned and joined without a look at the file system: empty parts
and `.` are dropped, and `..` takes away the name before it, or leads out of the start of a relative
path. A byte string is a list of characters, one per byte.

A clean path consists of a start (the root, or so many levels above the working directory) and the
names that lead on from there. If there are no symbolic links, this is also the place in the file
system that the path leads to (`location`).

## Key results

- `hasPrefix_text_iff`: one clean text with a slash after it starts another exactly
  if the second path leads on from the first
- `append_joined`: names that were joined with slashes are appended one by one
-/

/-- A name of an entry in a directory. -/
def IsName (s : List Char) : Prop := s ≠ [] ∧ s ≠ ['.'] ∧ s ≠ ['.', '.'] ∧ '/' ∉ s

instance (s : List Char) : Decidable (IsName s) :=
  inferInstanceAs (Decidable (s ≠ [] ∧ s ≠ ['.'] ∧ s ≠ ['.', '.'] ∧ '/' ∉ s))

/-- A clean path. -/
@[ext] structure LexPath where
  rooted : Bool
  /-- The levels that a relative path goes up first. -/
  ups : ℕ
  names : List (List Char)
  isName : ∀ s ∈ names, IsName s

namespace LexPath

open List

/-- The parts of a text between its slashes. -/
def segments (t : List Char) : List (List Char) := t.splitOn '/'

/-- Names joined by slashes. -/
def joined (names : List (List Char)) : List Char := ['/'].intercalate names

/-! ## Cleaning -/

variable {names : List (List Char)} {s : List Char}

theorem isName_concat (hnames : ∀ s ∈ names, IsName s) (hs : IsName s) : ∀ s' ∈ names ++ [s], IsName s' := by
  intro s' hs'
  rcases mem_append.mp hs' with hs' | hs'
  · exact hnames s' hs'
  · rw [mem_singleton.mp hs']
    exact hs

theorem isName_dropLast (p : LexPath) : ∀ s ∈ p.names.dropLast, IsName s :=
  fun s hs => p.isName s (mem_of_mem_dropLast hs)

/-- Go on by one part. -/
def push (p : LexPath) (s : List Char) : LexPath :=
  if h : IsName s then ⟨p.rooted, p.ups, p.names ++ [s], isName_concat p.isName h⟩
  else if s = ['.', '.'] then
    if p.names = [] then
      -- there is nothing above the root
      if p.rooted then p else ⟨p.rooted, p.ups + 1, p.names, p.isName⟩
    else ⟨p.rooted, p.ups, p.names.dropLast, p.isName_dropLast⟩
  else p

/-- `filepath.Join` of a clean path and a text. -/
def append (p : LexPath) (t : List Char) : LexPath := (segments t).foldl push p

/-- The root, or the working directory. -/
def start (rooted : Bool) : LexPath := ⟨rooted, 0, [], fun _ hs => absurd hs List.not_mem_nil⟩

/-- `filepath.Clean`. -/
def clean (t : List Char) : LexPath := (start (t.head? == some '/')).append t

/-- `filepath.Join`, which ignores an empty first element. -/
def join (dir t : List Char) : LexPath := if dir = [] then clean t else (clean dir).append t

/-- The parts of a clean path as they are written. -/
def comps (p : LexPath) : List (List Char) := List.replicate p.ups ['.', '.'] ++ p.names

/-- A clean path as text. -/
def text (p : LexPath) : List Char :=
  if p.rooted then '/' :: joined p.comps
  else if p.comps = [] then ['.'] else joined p.comps

/-! ## Places in the file system -/

/-- Where a path leads, from the working directory if it is relative. -/
def location (cwd : List (List Char)) (p : LexPath) : List (List Char) :=
  (if p.rooted then [] else cwd.take (cwd.length - p.ups)) ++ p.names

/-- The parts that lead from one place to another. -/
def relParts : List (List Char) → List (List Char) → List (List Char)
  | [], q => q
  | s :: p, [] => List.replicate (s :: p).length ['.', '.']
  | s :: p, s' :: q =>
    if s = s' then relParts p q else List.replicate (s :: p).length ['.', '.'] ++ s' :: q

/-- `filepath.Rel`. -/
def rel (p q : List (List Char)) : List Char :=
  if relParts p q = [] then ['.'] else joined (relParts p q)

/-- The parts that lead from one clean path to another; there are none if the first goes up from a
    place that is not known. -/
def relComps : List (List Char) → List (List Char) → Option (List (List Char))
  | [], q => some q
  | s :: p, [] => if s = ['.', '.'] then none else some (List.replicate (s :: p).length ['.', '.'])
  | s :: p, s' :: q =>
    if s = s' then relComps p q
    else if s = ['.', '.'] then none
    else some (List.replicate (s :: p).length ['.', '.'] ++ s' :: q)

/-- `filepath.Rel` of paths. -/
def relTo (p q : LexPath) : Option (List Char) :=
  if p.rooted = q.rooted then
    (relComps p.comps q.comps).map fun parts => if parts = [] then ['.'] else joined parts
  else none

/-- `path.Base`: the last part that is not empty. -/
def base (t : List Char) : List Char :=
  if t = [] then ['.'] else ((segments t).filter (· ≠ [])).getLast?.getD ['/']

theorem relParts_append (p rest : List (List Char)) : relParts p (p ++ rest) = rest := by
  induction p with
  | nil => rfl
  | cons s p ih => rw [cons_append, relParts, if_pos rfl, ih]

/-- `q` leads on from `p` by some names. -/
def Extends (p q : LexPath) (rest : List (List Char)) : Prop :=
  q.rooted = p.rooted ∧ q.ups = p.ups ∧ q.names = p.names ++ rest

variable {p q r : LexPath} {l : List (List Char)}

theorem Extends.location_eq {rest : List (List Char)} (h : p.Extends q rest)
    (cwd : List (List Char)) : q.location cwd = p.location cwd ++ rest := by
  obtain ⟨hrooted, hups, hnames⟩ := h
  rw [location, location, hrooted, hups, hnames, append_assoc]

/-- Two clean paths with the same start. -/
theorem Extends.trans {m : List (List Char)} (h : p.Extends q l) (h' : q.Extends r m) : p.Extends r (l ++ m) :=
  ⟨h'.1.trans h.1, h'.2.1.trans h.2.1, by rw [h'.2.2, h.2.2, append_assoc]⟩

theorem Extends.refl (p : LexPath) : p.Extends p [] := ⟨rfl, rfl, (append_nil _).symm⟩

theorem push_name (p : LexPath) (h : IsName s) : p.Extends (p.push s) [s] := by
  rw [push, dif_pos h]
  exact ⟨rfl, rfl, rfl⟩

/-- Names lead on one by one. -/
theorem foldl_push_names (p : LexPath) (h : ∀ s ∈ l, IsName s) : p.Extends (l.foldl push p) l := by
  induction l generalizing p with
  | nil => exact Extends.refl p
  | cons s l ih =>
    obtain ⟨hs, hl⟩ := forall_mem_cons.mp h
    exact (p.push_name hs).trans (ih (p.push s) hl)

/-! ## Segments -/

theorem segments_append_slash (t u : List Char) :
    segments (t ++ '/' :: u) = segments t ++ segments u := splitOn_append_cons_self t u

theorem segments_eq_singleton {t : List Char} (h : '/' ∉ t) : segments t = [t] :=
  splitOn_eq_singleton h

theorem segments_ne_nil (t : List Char) : segments t ≠ [] := splitOn_ne_nil _ _

/-- No part contains a slash. -/
theorem slash_notMem_segments (t : List Char) : ∀ s ∈ segments t, '/' ∉ s := by
  induction t with
  | nil => exact forall_mem_singleton.mpr not_mem_nil
  | cons c t ih =>
    rw [segments, splitOn_cons_eq_if_modifyHead]
    split
    · exact forall_mem_cons.mpr ⟨not_mem_nil, ih⟩
    · rename_i hc
      rw [← segments]
      cases hseg : segments t with
      | nil => exact absurd hseg (segments_ne_nil t)
      | cons s rest =>
        rw [hseg] at ih
        obtain ⟨hs, hrest⟩ := forall_mem_cons.mp ih
        refine forall_mem_cons.mpr ⟨?_, hrest⟩
        rw [mem_cons, not_or]
        exact ⟨fun heq => hc (by rw [← heq]; rfl), hs⟩

theorem joined_cons (s : List Char) {a : List (List Char)} (ha : a ≠ []) :
    joined (s :: a) = s ++ '/' :: joined a := by
  rw [joined, intercalate_cons_of_ne_nil ha, append_assoc]
  rfl

theorem joined_append {a b : List (List Char)} (ha : a ≠ []) (hb : b ≠ []) :
    joined (a ++ b) = joined a ++ '/' :: joined b := by
  induction a with
  | nil => exact absurd rfl ha
  | cons s a ih =>
    cases a with
    | nil =>
      rw [singleton_append, joined_cons s hb, joined, joined, intercalate_singleton]
    | cons s' a =>
      rw [cons_append, joined_cons s (by simp), ih (cons_ne_nil s' a),
        joined_cons s (cons_ne_nil s' a), append_assoc, cons_append]

theorem segments_joined (h : ∀ s ∈ names, '/' ∉ s) (hne : names ≠ []) :
    segments (joined names) = names := splitOn_intercalate '/' h hne

/-- What is written after a text goes to its last part. -/
theorem segments_append (t : List Char) : ∃ last, segments t = (segments t).dropLast ++ [last] ∧
    ∀ u, '/' ∉ u → segments (t ++ u) = (segments t).dropLast ++ [last ++ u] := by
  have hconcat := dropLast_append_getLast (segments_ne_nil t)
  have hslash := slash_notMem_segments t
  have htext : joined (segments t) = t := intercalate_splitOn '/'
  generalize (segments t).getLast (segments_ne_nil t) = last at hconcat
  refine ⟨last, hconcat.symm, fun u hu => ?_⟩
  have hlast : '/' ∉ last ++ u := by
    rw [mem_append, not_or]
    exact ⟨hslash last (by rw [← hconcat]; exact mem_append_right _ (mem_singleton_self _)), hu⟩
  by_cases hnil : (segments t).dropLast = []
  · -- there is one part only
    rw [hnil, nil_append] at hconcat ⊢
    rw [← hconcat, joined, intercalate_singleton] at htext
    rw [← htext]
    exact segments_eq_singleton hlast
  · rw [← hconcat, joined_append hnil (cons_ne_nil last []), joined, joined,
      intercalate_singleton, ← joined] at htext
    nth_rewrite 1 [← htext]
    rw [append_assoc, cons_append, segments_append_slash, segments_eq_singleton hlast,
      segments_joined (fun s hs => hslash s (mem_of_mem_dropLast hs)) hnil]

/-- Names that were joined are appended one by one. -/
theorem append_joined (p : LexPath) (h : ∀ s ∈ names, IsName s) (hne : names ≠ []) : p.Extends (p.append (joined names)) names := by
  rw [append, segments_joined (fun s hs => (h s hs).2.2.2) hne]
  exact p.foldl_push_names h

theorem append_name (p : LexPath) (h : IsName s) : p.Extends (p.append s) [s] := by
  rw [append, segments_eq_singleton h.2.2.2]
  exact p.push_name h

/-- Joined parts with a slash after them start other joined parts exactly if they are the first of
    them, and not all. -/
theorem joined_prefix_iff {a b : List (List Char)} (ha : ∀ s ∈ a, '/' ∉ s) (hb : ∀ s ∈ b, '/' ∉ s)
    (hne : a ≠ []) : joined a ++ ['/'] <+: joined b ↔ ∃ rest, rest ≠ [] ∧ b = a ++ rest := by
  constructor
  · rintro ⟨t, ht⟩
    have hbne : b ≠ [] := by
      rintro rfl
      simp [joined] at ht
    rw [append_assoc, singleton_append] at ht
    have hseg := congrArg segments ht
    rw [segments_append_slash, segments_joined ha hne, segments_joined hb hbne] at hseg
    exact ⟨segments t, segments_ne_nil t, hseg.symm⟩
  · rintro ⟨rest, hrest, rfl⟩
    rw [joined_append hne hrest]
    exact ⟨joined rest, by rw [append_assoc, singleton_append]⟩

/-! ## Joining -/

theorem push_rooted (p : LexPath) (s : List Char) : (p.push s).rooted = p.rooted := by
  rw [push]
  split_ifs <;> rfl

theorem clean_rooted (t : List Char) : (clean t).rooted = (t.head? == some '/') := by
  have hfold : ∀ (l : List (List Char)) (p : LexPath), (l.foldl push p).rooted = p.rooted := by
    intro l
    induction l with
    | nil => exact fun _ => rfl
    | cons s l ih => exact fun p => (ih (p.push s)).trans (p.push_rooted s)
  exact hfold _ _

theorem clean_nil : clean [] = start false := rfl

/-- An empty first element is the working directory for a relative second one. -/
theorem join_eq (dir : List Char) {t : List Char} (h : t.head? ≠ some '/') :
    join dir t = (clean dir).append t := by
  rw [join]
  split
  · rename_i hdir
    rw [hdir, clean_nil, clean, beq_eq_false_iff_ne.mpr h]
  · rfl

/-- A text that ends in more than two characters that are no slashes ends in a name. -/
theorem isName_append {u : List Char} (hs : '/' ∉ s) (hu : '/' ∉ u) (hlen : 2 < u.length) :
    IsName (s ++ u) := by
  have hlen' : 2 < (s ++ u).length := by
    rw [length_append]
    omega
  refine ⟨?_, ?_, ?_, ?_⟩
  · exact ne_nil_of_length_pos (by omega)
  · exact fun h => by simp [h] at hlen'
  · exact fun h => by simp [h] at hlen'
  · rw [mem_append, not_or]
    exact ⟨hs, hu⟩

/-- What is written after a text does not change the parts before the last one. -/
theorem append_append (p : LexPath) (t : List Char) : ∃ last, '/' ∉ last ∧
    ∀ u, '/' ∉ u → 2 < u.length →
      ((segments t).dropLast.foldl push p).Extends (p.append (t ++ u)) [last ++ u] := by
  obtain ⟨last, hlast, happend⟩ := segments_append t
  have hslash : '/' ∉ last := slash_notMem_segments t last
    (by rw [hlast]; exact mem_append_right _ (mem_singleton_self _))
  refine ⟨last, hslash, fun u hu hlen => ?_⟩
  rw [append, happend u hu, foldl_append]
  exact push_name _ (isName_append hslash hu hlen)

/-- Parts that do not lead up: those that are no names are left out. -/
theorem foldl_push_of_notMem (p : LexPath) (h : ['.', '.'] ∉ l) :
    p.Extends (l.foldl push p) (l.filter IsName) := by
  induction l generalizing p with
  | nil => exact Extends.refl p
  | cons s l ih =>
    obtain ⟨hs, hl⟩ := not_or.mp (mem_cons.not.mp h)
    rw [foldl_cons]
    by_cases hname : IsName s
    · rw [filter_cons_of_pos (by simpa using hname)]
      exact (p.push_name hname).trans (ih (p.push s) hl)
    · rw [filter_cons_of_neg (by simpa using hname), push, dif_neg hname, if_neg (Ne.symm hs)]
      exact ih p hl

theorem push_nil (p : LexPath) : p.push [] = p := by
  rw [push, dif_neg (by decide), if_neg (by decide)]

theorem append_slash (p : LexPath) (t : List Char) : p.append ('/' :: t) = p.append t := by
  have hseg : segments ('/' :: t) = [] :: segments t := segments_append_slash [] t
  rw [append, hseg, foldl_cons, push_nil, append]

/-- Names, or none, that were joined. -/
theorem append_joined_names (p : LexPath) (h : ∀ s ∈ names, IsName s) : p.Extends (p.append (joined names)) names := by
  by_cases hne : names = []
  · rw [hne, show joined [] = [] from rfl, append, segments_eq_singleton not_mem_nil,
      foldl_cons, push_nil]
    exact Extends.refl p
  · exact p.append_joined h hne

/-- The last of several names. -/
theorem base_joined (h : ∀ s ∈ names, IsName s) {n : List Char} (hlast : names.getLast? = some n) : base (joined names) = n := by
  have hne : names ≠ [] := by
    rintro rfl
    simp at hlast
  have hseg : segments (joined names) = names := segments_joined (fun s hs => (h s hs).2.2.2) hne
  have hjoined : joined names ≠ [] := by
    intro hnil
    rw [hnil, segments_eq_singleton not_mem_nil] at hseg
    exact (h [] (hseg ▸ mem_singleton_self _)).1 rfl
  rw [base, if_neg hjoined, hseg, filter_eq_self.mpr fun s hs => by simpa using (h s hs).1,
    hlast, Option.getD_some]

/-! ## Paths that stay below where they start -/

/-- The path that a text leads along, from the working directory. -/
def below (t : List Char) : LexPath := (start false).append t

/-- A text that does not lead out of where it starts. -/
def IsLocal (t : List Char) : Prop := (below t).ups = 0

instance (t : List Char) : Decidable (IsLocal t) := inferInstanceAs (Decidable (_ = _))

theorem ups_le_push (p : LexPath) (s : List Char) : p.ups ≤ (p.push s).ups := by
  rw [push]
  split_ifs
  all_goals simp

theorem ups_le_foldl_push (p : LexPath) (l : List (List Char)) : p.ups ≤ (l.foldl push p).ups := by
  induction l generalizing p with
  | nil => exact Nat.le_refl _
  | cons s l ih => exact (p.ups_le_push s).trans (ih (p.push s))

/-- A part that does not lead out of a relative path does the same elsewhere. -/
theorem Extends.push (h : p.Extends q r.names) (hr : r.rooted = false) (hups : (r.push s).ups = 0) : p.Extends (q.push s) (r.push s).names := by
  obtain ⟨hrooted, hq, hnames⟩ := h
  by_cases hname : IsName s
  · rw [LexPath.push, LexPath.push, dif_pos hname, dif_pos hname]
    exact ⟨hrooted, hq, by dsimp only; rw [hnames, append_assoc]⟩
  · by_cases hdots : s = ['.', '.']
    · by_cases hnil : r.names = []
      · -- it would lead out
        rw [LexPath.push, dif_neg hname, if_pos hdots, if_pos hnil, hr] at hups
        exact absurd hups (Nat.succ_ne_zero _)
      · have hqnil : q.names ≠ [] := by
          rw [hnames]
          exact append_ne_nil_of_right_ne_nil _ hnil
        rw [LexPath.push, LexPath.push, dif_neg hname, dif_neg hname, if_pos hdots, if_pos hdots,
          if_neg hqnil, if_neg hnil]
        exact ⟨hrooted, hq, by dsimp only; rw [hnames, dropLast_append_of_ne_nil hnil]⟩
    · rw [LexPath.push, LexPath.push, dif_neg hname, dif_neg hname, if_neg hdots, if_neg hdots]
      exact ⟨hrooted, hq, hnames⟩

theorem Extends.foldl_push (h : p.Extends q r.names) (hr : r.rooted = false)
    (hups : (l.foldl LexPath.push r).ups = 0) :
    p.Extends (l.foldl LexPath.push q) (l.foldl LexPath.push r).names := by
  induction l generalizing q r with
  | nil => exact h
  | cons s l ih =>
    have hpush : (r.push s).ups = 0 := Nat.le_zero.mp (hups ▸ (r.push s).ups_le_foldl_push l)
    exact ih (h.push hr hpush) ((r.push_rooted s).trans hr) hups

/-- A local text leads on by the same names from everywhere. -/
theorem append_local (p : LexPath) {t : List Char} (h : IsLocal t) :
    p.Extends (p.append t) (below t).names :=
  Extends.foldl_push (Extends.refl p) rfl h

/-! ## Texts of clean paths -/

theorem comps_spec (p : LexPath) : ∀ s ∈ p.comps, s ≠ [] ∧ '/' ∉ s := by
  intro s hs
  rcases mem_append.mp hs with hs | hs
  · rw [eq_of_mem_replicate hs]
    decide
  · exact ⟨(p.isName s hs).1, (p.isName s hs).2.2.2⟩

theorem comps_ne_nil (h : p.names ≠ []) : p.comps ≠ [] :=
  fun hnil => h (append_eq_nil_iff.mp hnil).2

/-- The parts that lead up are told apart from the names. -/
theorem extends_of_comps {rest : List (List Char)} (hrooted : q.rooted = p.rooted)
    (hp : p.names ≠ []) (h : q.comps = p.comps ++ rest) : p.Extends q rest := by
  obtain ⟨s, names, hnames⟩ := exists_cons_of_ne_nil hp
  have hs : s ≠ ['.', '.'] := (p.isName s (by rw [hnames]; exact mem_cons_self)).2.2.1
  rw [comps, comps, append_assoc] at h
  rcases Nat.lt_trichotomy q.ups p.ups with hlt | heq | hgt
  · -- then a name of `q` would be `..`
    obtain ⟨k, hk⟩ := Nat.exists_eq_add_of_lt hlt
    rw [hk, show q.ups + k + 1 = q.ups + (k + 1) from by omega, replicate_add,
      append_assoc, append_cancel_left_eq, replicate_succ, cons_append] at h
    have hmem : ['.', '.'] ∈ q.names := by rw [h]; exact mem_cons_self
    exact absurd rfl (q.isName _ hmem).2.2.1
  · rw [heq, append_cancel_left_eq] at h
    exact ⟨hrooted, heq, h⟩
  · -- then the first name of `p` would be `..`
    obtain ⟨k, hk⟩ := Nat.exists_eq_add_of_lt hgt
    rw [hk, show p.ups + k + 1 = p.ups + (k + 1) from by omega, replicate_add, append_assoc,
      append_cancel_left_eq, replicate_succ, cons_append, hnames, cons_append] at h
    exact absurd (cons.inj h).1.symm hs

theorem text_eq (h : p.comps ≠ []) :
    p.text = (if p.rooted then ['/'] else []) ++ joined p.comps := by
  rw [text, if_neg h]
  split <;> rfl

/-- The joined parts are not empty and do not start with a slash. -/
theorem joined_comps (h : p.comps ≠ []) : ∃ c t, joined p.comps = c :: t ∧ c ≠ '/' := by
  obtain ⟨s, l, hl⟩ := exists_cons_of_ne_nil h
  obtain ⟨hs, hslash⟩ := p.comps_spec s (by rw [hl]; exact mem_cons_self)
  obtain ⟨c, t, rfl⟩ := exists_cons_of_ne_nil hs
  have hc : c ≠ '/' := fun heq => hslash (heq ▸ mem_cons_self)
  rw [hl]
  cases l with
  | nil => exact ⟨c, t, by rw [joined, intercalate_singleton], hc⟩
  | cons s' l => exact ⟨c, t ++ '/' :: joined (s' :: l), joined_cons _ (by simp), hc⟩

/-- `strings.HasPrefix` of two clean texts, with a slash after the first. -/
theorem hasPrefix_text_iff (hp : p.names ≠ []) :
    p.text ++ ['/'] <+: q.text ↔ ∃ rest, rest ≠ [] ∧ p.Extends q rest := by
  have hpc := comps_ne_nil hp
  obtain ⟨c, t, hjoined, hc⟩ := joined_comps hpc
  have hextends : ∀ rest, p.Extends q rest → q.comps = p.comps ++ rest := by
    rintro rest ⟨-, hups, hnames⟩
    rw [comps, comps, hups, hnames, append_assoc]
  by_cases hqc : q.comps = []
  · -- the text of `q` is one character, that of `p` has one at least
    refine iff_of_false (fun hpre => ?_) fun ⟨rest, _, hext⟩ => ?_
    · have hlen := hpre.length_le
      have hq : q.text.length = 1 := by
        rw [text, hqc]
        split <;> simp [joined]
      rw [hq, text_eq hpc, hjoined] at hlen
      simp only [length_append, length_cons, length_nil] at hlen
      omega
    · have hnil := hextends rest hext
      rw [hqc] at hnil
      exact hpc (append_eq_nil_iff.mp hnil.symm).1
  · obtain ⟨c', t', hjoined', hc'⟩ := joined_comps hqc
    have hcomps : joined p.comps ++ ['/'] <+: joined q.comps ↔
        ∃ rest, rest ≠ [] ∧ q.comps = p.comps ++ rest :=
      joined_prefix_iff (fun s hs => (p.comps_spec s hs).2) (fun s hs => (q.comps_spec s hs).2) hpc
    rw [text_eq hpc, text_eq hqc, append_assoc]
    by_cases hrooted : q.rooted = p.rooted
    · rw [hrooted, prefix_append_right_inj, hcomps]
      exact ⟨fun ⟨rest, hne, heq⟩ => ⟨rest, hne, extends_of_comps hrooted hp heq⟩,
        fun ⟨rest, hne, heq⟩ => ⟨rest, hne, hextends rest heq⟩⟩
    · -- only one of the texts starts with a slash
      refine iff_of_false (fun hpre => ?_) fun ⟨rest, _, hext⟩ => hrooted hext.1
      rw [hjoined, hjoined'] at hpre
      cases hpr : p.rooted <;> cases hqr : q.rooted <;>
        simp [hpr, hqr, cons_prefix_cons] at hpre hrooted
      · exact hc hpre.1
      · exact hc' hpre.1.symm

end LexPath
