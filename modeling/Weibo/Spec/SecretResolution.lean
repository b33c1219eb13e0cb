import Mathlib.Data.List.Chain
import Weibo.Model.WorkflowCompiler

/-!
# Secrets in templates

A value of a workflow is a template: literal text with references to secrets. `resolveOne` puts the
secrets in and then looks for `${` in the result, so that a secret can be taken for a reference.

## Key results

- `Template.exists_text`: every text is a template
- `resolveOne_eq_ok_iff`: what `resolveOne` returns
- `substitutes_iff`: the templates and secrets for which it is the substitution
-/

namespace Weibo

open List
open String (ofList)

namespace Workflow

variable {resolve : String → Option String} {field : String} {name chars rest out : List Char}
  {refs : List (List Char × List Char)}

/-! ## References -/

/-- The text of a reference. -/
def reference (name : List Char) : List Char := '$' :: '{' :: (name ++ ['}'])

/-- No reference starts in the text. -/
def IsLiteral (chars : List Char) : Prop := ∀ u ∈ chars.tails, secretRef u = none

instance (chars : List Char) : Decidable (IsLiteral chars) := by
  unfold IsLiteral
  infer_instance

theorem isIdentStart_iff (c : Char) : isIdentStart c ↔ isNameChar c ∧ c.isDigit = false := by
  have halpha : c.isAlpha → c.isDigit = false := by
    simp only [Char.isAlpha, Char.isUpper, Char.isLower, Char.isDigit, Bool.or_eq_true,
      Bool.and_eq_true, decide_eq_true_eq, Bool.and_eq_false_iff, decide_eq_false_iff_not,
      ge_iff_le, UInt32.le_iff_toNat_le, Char.reduceVal, UInt32.reduceToNat]
    omega
  simp only [isIdentStart, isNameChar, isLetterOrDigit, Bool.or_eq_true, decide_eq_true_eq]
  constructor
  · intro h
    cases h with
    | inl h => exact ⟨.inl (.inl h), halpha h⟩
    | inr h =>
      subst h
      decide
  · intro ⟨h, hdigit⟩
    rw [hdigit] at h
    simpa using h

theorem mem_of_matchesColumn (h : matchesColumn name) : ∀ c ∈ name, isNameChar c := by
  cases name with
  | nil => simp [matchesColumn] at h
  | cons c cs =>
    obtain ⟨hc, hcs⟩ := Bool.and_eq_true_iff.mp h
    intro x hx
    cases hx with
    | head => exact ((isIdentStart_iff c).mp hc).1
    | tail _ hx => exact all_eq_true.mp hcs x hx

theorem secretRef_reference (h : matchesColumn name) (rest : List Char) :
    secretRef (reference name ++ rest) = some name := by
  have hchars := mem_of_matchesColumn h
  have htake : (name ++ ['}'] ++ rest).takeWhile isNameChar = name := by
    rw [append_assoc, takeWhile_append_of_pos hchars]
    simp [isNameChar, isLetterOrDigit]
  have hdrop : (name ++ ['}'] ++ rest).dropWhile isNameChar = '}' :: rest := by
    rw [append_assoc, dropWhile_append_of_pos hchars]
    simp [isNameChar, isLetterOrDigit]
  show secretRef ('$' :: '{' :: (name ++ ['}'] ++ rest)) = some name
  generalize name ++ ['}'] ++ rest = body at htake hdrop
  cases name with
  | nil => simp [matchesColumn] at h
  | cons c cs =>
    have hdigit := ((isIdentStart_iff c).mp (Bool.and_eq_true_iff.mp h).1).2
    simp [secretRef, htake, hdrop, hdigit]

theorem secretRef_eq_some (h : secretRef chars = some name) :
    matchesColumn name ∧ ∃ rest, chars = reference name ++ rest := by
  unfold secretRef at h
  split at h
  swap
  · simp at h
  rename_i cs
  have hsplit := takeWhile_append_dropWhile (p := isNameChar) (l := cs)
  have hchars : ∀ c ∈ cs.takeWhile isNameChar, isNameChar c := fun c => mem_takeWhile_imp
  dsimp only at h
  split at h
  · rename_i c tail rest hname hrest
    obtain ⟨hdigit, h⟩ := Option.ite_none_left_eq_some.mp h
    rw [hname] at h hchars hsplit
    cases h
    rw [forall_mem_cons] at hchars
    refine ⟨Bool.and_eq_true_iff.mpr ⟨(isIdentStart_iff c).mpr ⟨hchars.1, by simpa using hdigit⟩,
      all_eq_true.mpr hchars.2⟩, rest, ?_⟩
    rw [← hsplit, hrest]
    simp [reference]
  · simp at h

/-- A reference does not start in a literal and end behind it. -/
theorem secretRef_append (h : secretRef chars = none) (hne : chars ≠ [])
    (hrest : ∀ c ∈ rest.head?, c = '$') : secretRef (chars ++ rest) = none := by
  rw [Option.eq_none_iff_forall_ne_some]
  intro name hname
  obtain ⟨hmatch, rest', heq⟩ := secretRef_eq_some hname
  cases append_eq_append_iff.mp heq with
  | inr hprefix =>
    obtain ⟨tail, rfl, -⟩ := hprefix
    simp [secretRef_reference hmatch] at h
  | inl hinside =>
    obtain ⟨tail, htail, rfl⟩ := hinside
    cases tail with
    | nil =>
      rw [append_nil] at htail
      have := secretRef_reference hmatch []
      simp [htail, h] at this
    | cons c tail =>
      -- the next piece would go on with a character of the reference
      obtain rfl : c = '$' := hrest c rfl
      obtain ⟨first, chars, rfl⟩ := exists_cons_of_ne_nil hne
      have hmem : '$' ∈ '{' :: (name ++ ['}']) := by
        rw [(cons.inj htail).2]
        simp
      have hchars := mem_of_matchesColumn hmatch '$'
      simp [isNameChar, isLetterOrDigit] at hmem hchars
      exact hchars hmem

/-! ## Templates -/

/-- A template: text, and references with the text behind each. The names of secrets are written as
    those of columns. -/
structure Template where
  head : List Char
  refs : List (List Char × List Char)
  names : ∀ r ∈ refs, matchesColumn r.1
  literals : ∀ chars ∈ head :: refs.map (·.2), IsLiteral chars

namespace Template

def text (t : Template) : List Char :=
  t.head ++ t.refs.flatMap fun r => reference r.1 ++ r.2

/-- Every reference resolves. -/
def Resolves (resolve : String → Option String) (t : Template) : Prop :=
  ∀ r ∈ t.refs, (resolve (String.ofList r.1)).isSome

/-- There is no `${` in the text outside the references. -/
def Clean (t : Template) : Prop := ∀ chars ∈ t.head :: t.refs.map (·.2), hasReference chars = false

/-- The text with the secrets, in pieces. -/
def pieces (resolve : String → Option String) (t : Template) : List (List Char) :=
  t.head :: t.refs.flatMap fun r => [((resolve (String.ofList r.1)).getD "").toList, r.2]

/-- A reference is put before a template. -/
theorem exists_cons (hname : matchesColumn name) (t : Template) :
    ∃ t' : Template, t'.text = reference name ++ t.text := by
  refine ⟨⟨[], (name, t.head) :: t.refs, ?_, ?_⟩, ?_⟩
  · exact forall_mem_cons.mpr ⟨hname, t.names⟩
  · exact forall_mem_cons.mpr ⟨by decide, t.literals⟩
  · simp [text]

/-- A character that does not begin a reference is put before a template. -/
theorem exists_char {c : Char} (t : Template) (h : secretRef (c :: t.text) = none) :
    ∃ t' : Template, t'.text = c :: t.text := by
  have hhead : secretRef (c :: t.head) = none := by
    rw [Option.eq_none_iff_forall_ne_some]
    intro name hname
    obtain ⟨hmatch, rest, heq⟩ := secretRef_eq_some hname
    rw [text, ← cons_append, heq, append_assoc, secretRef_reference hmatch] at h
    simp at h
  obtain ⟨hlit, hlits⟩ := forall_mem_cons.mp t.literals
  refine ⟨⟨c :: t.head, t.refs, t.names, forall_mem_cons.mpr ⟨?_, hlits⟩⟩, rfl⟩
  intro u hu
  rw [tails, mem_cons] at hu
  cases hu with
  | inl hu => rwa [hu]
  | inr hu => exact hlit u hu

theorem exists_text (chars : List Char) : ∃ t : Template, t.text = chars := by
  induction hlen : chars.length using Nat.strong_induction_on generalizing chars with
  | _ n ih =>
    subst hlen
    cases href : secretRef chars with
    | some name =>
      obtain ⟨hmatch, rest, rfl⟩ := secretRef_eq_some href
      obtain ⟨t, ht⟩ := ih rest.length (by simp [reference]; omega) rest rfl
      rw [← ht]
      exact exists_cons hmatch t
    | none =>
      cases chars with
      | nil => exact ⟨⟨[], [], by simp, by decide⟩, rfl⟩
      | cons c cs =>
        obtain ⟨t, ht⟩ := ih cs.length (by simp) cs rfl
        rw [← ht] at href ⊢
        exact exists_char t href

end Template

/-! ## The replacement -/

theorem replaceRefs_skip (skipped rest : List Char) :
    replaceRefs resolve skipped.length (skipped ++ rest) = replaceRefs resolve 0 rest := by
  induction skipped with
  | nil => rfl
  | cons c skipped ih => rw [length_cons, cons_append, replaceRefs, ih]

theorem replaceRefs_literal (h : IsLiteral chars) (hrest : ∀ c ∈ rest.head?, c = '$') :
    replaceRefs resolve 0 (chars ++ rest) = (replaceRefs resolve 0 rest).map (chars ++ ·) := by
  induction chars with
  | nil =>
    rw [nil_append]
    cases replaceRefs resolve 0 rest <;> rfl
  | cons c chars ih =>
    have hnone := secretRef_append (h _ (by simp)) (cons_ne_nil c chars) hrest
    rw [cons_append] at hnone ⊢
    rw [replaceRefs, hnone, ih fun u hu => h u (by simp [hu])]
    cases replaceRefs resolve 0 rest <;> rfl

theorem replaceRefs_reference (h : matchesColumn name) (rest : List Char) :
    replaceRefs resolve 0 (reference name ++ rest) =
      match resolve (ofList name) with
      | none => .error (ofList name)
      | some secret => (replaceRefs resolve 0 rest).map (secret.toList ++ ·) := by
  have hskip := @replaceRefs_skip resolve ('{' :: (name ++ ['}'])) rest
  have href := secretRef_reference h rest
  rw [reference, cons_append] at href ⊢
  cases hres : resolve (ofList name) with
  | none => simp only [replaceRefs, href, hres]
  | some secret =>
    simp only [replaceRefs, href, hres]
    rw [← hskip]
    simp

theorem map_append_eq_ok {result : Except String (List Char)} :
    result.map (chars ++ ·) = .ok out ↔ ∃ rest, result = .ok rest ∧ out = chars ++ rest := by
  cases result with
  | error => simp [Except.map]
  | ok rest =>
    simp only [Except.map, Except.ok.injEq, exists_eq_left']
    exact eq_comm

theorem head_refs (refs : List (List Char × List Char)) :
    ∀ c ∈ (refs.flatMap fun r => reference r.1 ++ r.2).head?, c = '$' := by
  cases refs with
  | nil => simp
  | cons r refs => simp [reference]

theorem replaceRefs_refs (hnames : ∀ r ∈ refs, matchesColumn r.1)
    (hlits : ∀ r ∈ refs, IsLiteral r.2) :
    replaceRefs resolve 0 (refs.flatMap fun r => reference r.1 ++ r.2) = .ok out ↔
      (∀ r ∈ refs, (resolve (ofList r.1)).isSome) ∧ out = (refs.flatMap fun r =>
          [((resolve (ofList r.1)).getD "").toList, r.2]).flatten := by
  induction refs generalizing out with
  | nil =>
    simp only [flatMap_nil, replaceRefs, Except.ok.injEq, not_mem_nil, false_imp_iff,
      implies_true, true_and, flatten_nil]
    exact eq_comm
  | cons r refs ih =>
    rw [forall_mem_cons] at hnames hlits
    rw [flatMap_cons, append_assoc, replaceRefs_reference hnames.1,
      replaceRefs_literal hlits.1 (head_refs refs), forall_mem_cons]
    cases hres : resolve (ofList r.1) with
    | none => simp
    | some secret =>
      simp only [map_append_eq_ok, ih hnames.2 hlits.2]
      simp [hres]

theorem replaceRefs_text (t : Template) : replaceRefs resolve 0 t.text = .ok out ↔
      t.Resolves resolve ∧ out = (t.pieces resolve).flatten := by
  obtain ⟨hlit, hlits⟩ := forall_mem_cons.mp t.literals
  rw [Template.text, replaceRefs_literal hlit (head_refs t.refs), map_append_eq_ok]
  simp only [replaceRefs_refs t.names (forall_mem_map.mp hlits)]
  simp [Template.Resolves, Template.pieces]

/-! ## The syntax check -/

/-- No `${` is in a piece, and none arises where two pieces meet. -/
structure Quiet (pieces : List (List Char)) : Prop where
  inside : ∀ piece ∈ pieces, hasReference piece = false
  seams : (pieces.filter (!·.isEmpty)).IsChain fun a b =>
    ¬ (a.getLast? = some '$' ∧ b.head? = some '{')

theorem hasReference_eq_false (chars : List Char) :
    hasReference chars = false ↔ chars.IsChain fun a b => ¬ (a = '$' ∧ b = '{') := by
  rw [hasReference, decide_eq_false_iff_not, isChain_iff_forall_rel_of_append_cons_cons]
  constructor
  · rintro h a b before after rfl ⟨rfl, rfl⟩
    exact h ⟨before, after, by simp⟩
  · rintro h ⟨before, after, heq⟩
    exact @h '$' '{' before after (by simpa using heq.symm) ⟨rfl, rfl⟩

/-- A chain in the relation of `List.isChain_flatten` has no seam. -/
theorem seam_iff (a b : List Char) : (∀ x ∈ a.getLast?, ∀ y ∈ b.head?, ¬ (x = '$' ∧ y = '{')) ↔
      ¬ (a.getLast? = some '$' ∧ b.head? = some '{') := by
  simp only [Option.mem_def, not_and]
  constructor
  · intro h ha hb
    exact h '$' ha '{' hb rfl rfl
  · intro h x hx y hy hxa hyb
    subst hxa hyb
    exact h hx hy

theorem hasReference_flatten (pieces : List (List Char)) :
    hasReference pieces.flatten = false ↔ Quiet pieces := by
  rw [← flatten_filter_not_isEmpty, hasReference_eq_false, isChain_flatten (by simp)]
  simp only [seam_iff, ← hasReference_eq_false]
  constructor
  · intro ⟨hinside, hseams⟩
    refine ⟨fun piece hpiece => ?_, hseams⟩
    by_cases hempty : piece.isEmpty
    · rw [isEmpty_iff.mp hempty]
      decide
    · exact hinside piece (mem_filter.mpr ⟨hpiece, by simpa using hempty⟩)
  · intro ⟨hinside, hseams⟩
    exact ⟨fun piece hpiece => hinside piece (mem_filter.mp hpiece).1, hseams⟩

theorem isLiteral_of_clean (h : hasReference chars = false) : IsLiteral chars := by
  intro u hu
  rw [Option.eq_none_iff_forall_ne_some]
  intro name hname
  obtain ⟨-, rest, rfl⟩ := secretRef_eq_some hname
  obtain ⟨before, rfl⟩ := (mem_tails _ _).mp hu
  rw [hasReference, decide_eq_false_iff_not] at h
  exact h ⟨before, name ++ ['}'] ++ rest, by simp [reference]⟩

/-- A text without `${` is returned as it is; the replacement would not change it either. -/
theorem resolveOne_eq_ok {value result : String} : resolveOne resolve field value = .ok result ↔
      ∃ out, replaceRefs resolve 0 value.toList = .ok out ∧ hasReference out = false ∧
        result = ofList out := by
  unfold resolveOne
  split
  · rename_i h
    have hclean : hasReference value.toList = false := by simpa using h
    have hsame : replaceRefs resolve 0 value.toList = .ok value.toList := by
      have hnil := @replaceRefs_literal resolve value.toList [] (isLiteral_of_clean hclean)
      simpa [replaceRefs, Except.map] using hnil
    simp [hsame, hclean, @eq_comm _ value]
  · cases replaceRefs resolve 0 value.toList with
    | error name => simp
    | ok out =>
      cases hout : hasReference out with
      | true => simp [hout]
      | false => simp [hout, @eq_comm _ result]

/-- What is returned, and when. -/
theorem resolveOne_eq_ok_iff (t : Template) {result : String} :
    resolveOne resolve field (ofList t.text) = .ok result ↔
      t.Resolves resolve ∧ Quiet (t.pieces resolve) ∧
        result = ofList (t.pieces resolve).flatten := by
  simp [resolveOne_eq_ok, replaceRefs_text, hasReference_flatten, and_assoc]

/-- A value resolves if its references do and it has no `${` besides, and the result is the template
    with the secrets as they are. -/
def Substitutes (resolve : String → Option String) (field : String) (t : Template) : Prop :=
  ∀ result, resolveOne resolve field (String.ofList t.text) = .ok result ↔
    t.Resolves resolve ∧ t.Clean ∧ result = String.ofList (t.pieces resolve).flatten

theorem clean_of_quiet {t : Template} (h : Quiet (t.pieces resolve)) : t.Clean := by
  intro chars hchars
  apply h.inside
  rw [Template.pieces]
  cases hchars with
  | head => exact mem_cons_self
  | tail _ hchars =>
    obtain ⟨r, hr, rfl⟩ := mem_map.mp hchars
    exact mem_cons_of_mem _ (mem_flatMap.mpr ⟨r, hr, by simp⟩)

/-- The templates and secrets for which it does: the secrets do not bring in a `${`. -/
theorem substitutes_iff (resolve : String → Option String) (field : String) (t : Template) :
    Substitutes resolve field t ↔
      (t.Resolves resolve → t.Clean → Quiet (t.pieces resolve)) := by
  constructor
  · intro h hresolves hclean
    exact ((resolveOne_eq_ok_iff t).mp ((h _).mpr ⟨hresolves, hclean, rfl⟩)).2.1
  · intro h result
    rw [resolveOne_eq_ok_iff]
    constructor
    · intro ⟨hresolves, hquiet, heq⟩
      exact ⟨hresolves, clean_of_quiet hquiet, heq⟩
    · intro ⟨hresolves, hclean, heq⟩
      exact ⟨hresolves, h hresolves hclean, heq⟩

/-- The password of a configuration, as one secret. -/
def password : Template :=
  ⟨[], [("DB_PASS".toList, [])], by decide, by decide⟩

/-- A secret with a `$` is put in; one that contains `${` is not, and the error blames the
    reference. -/
theorem secret_taken_for_reference :
    resolveOne (fun _ => some "s3cret$1") "password" "$\x7bDB_PASS\x7d" = .ok "s3cret$1" ∧
      resolveOne (fun _ => some "p$\x7bq") "password" "$\x7bDB_PASS\x7d" =
        .error "password: invalid secret reference syntax" ∧
      ¬ Substitutes (fun _ => some "p$\x7bq") "password" password := by
  refine ⟨by decide, by decide, fun h => ?_⟩
  have hclean : password.Clean := by
    unfold Template.Clean
    decide
  have hok := (h "p$\x7bq").mpr ⟨by simp [Template.Resolves], hclean, by decide⟩
  revert hok
  decide

end Workflow

end Weibo
