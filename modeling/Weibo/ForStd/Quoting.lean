import Mathlib.Data.List.Basic

/-!
# Quoted names

A name is quoted by a quote on both sides, with every quote inside it doubled.
A list of quoted names with separators between them can be read back in one way
only (`quoteAll_inj`), and a list of names put in quotes without the doubling
reads as these names only if none of them contains a quote
(`quote_notMem_of_rawQuoteAll`).
-/

namespace Quoting

open List

variable {α : Type*}

section Joined

variable {sep : α} {f : List α → List α}

/-- What follows the first of a list of written names, with `z` after the list. -/
def more (sep : α) (f : List α → List α) (names : List (List α)) (z : List α) : List α :=
  match names with
  | [] => z
  | name :: names => sep :: ([sep].intercalate ((name :: names).map f) ++ z)

theorem intercalate_map_cons (name : List α) (names : List (List α)) (z : List α) :
    [sep].intercalate ((name :: names).map f) ++ z = f name ++ more sep f names z := by
  cases names with
  | nil => simp [more, intercalate]
  | cons name' names => simp [more, intercalate]

theorem more_head {q t : α} (hsep : sep ≠ q) (ht : t ≠ q) (names : List (List α)) (x : List α) :
    (more sep f names (t :: x)).head? ≠ some q := by
  cases names with
  | nil => exact fun h => ht (Option.some.inj h)
  | cons name names => exact fun h => hsep (Option.some.inj h)

end Joined

variable [DecidableEq α] (q sep : α)

/-- Every quote doubled. -/
def escape : List α → List α
  | [] => []
  | c :: cs => if c = q then q :: q :: escape cs else c :: escape cs

/-- A quoted name. -/
def quote (name : List α) : List α := q :: escape q name ++ [q]

/-- A name between quotes, as it is. -/
def rawQuote (name : List α) : List α := q :: name ++ [q]

/-- A list of quoted names. -/
def quoteAll (names : List (List α)) : List α := [sep].intercalate (names.map (quote q))

/-- A list of names between quotes, as they are. -/
def rawQuoteAll (names : List (List α)) : List α := [sep].intercalate (names.map (rawQuote q))

variable {q sep}

theorem escape_of_notMem {name : List α} (h : q ∉ name) : escape q name = name := by
  induction name with
  | nil => rfl
  | cons c cs ih =>
    simp only [mem_cons, not_or] at h
    rw [escape, if_neg (Ne.symm h.1), ih h.2]

theorem rawQuoteAll_of_notMem {names : List (List α)} (h : ∀ name ∈ names, q ∉ name) :
    rawQuoteAll q sep names = quoteAll q sep names := by
  unfold rawQuoteAll quoteAll
  congr 1
  refine map_congr_left fun name hname => ?_
  rw [rawQuote, quote, escape_of_notMem (h name hname)]

/-- The end of a quoted name is the first quote that is not followed by another one. -/
theorem escape_inj {a b x y : List α} (hx : x.head? ≠ some q) (hy : y.head? ≠ some q)
    (h : escape q a ++ q :: x = escape q b ++ q :: y) : a = b ∧ x = y := by
  induction a generalizing b with
  | nil =>
    cases b with
    | nil => exact ⟨rfl, (cons.inj h).2⟩
    | cons d b =>
      simp only [escape] at h
      split at h
      · obtain ⟨-, hx'⟩ := cons.inj h
        exact absurd (by rw [hx']; rfl) hx
      · rename_i hd
        exact absurd (cons.inj h).1.symm hd
  | cons c a ih =>
    cases b with
    | nil =>
      simp only [escape] at h
      split at h
      · obtain ⟨-, hy'⟩ := cons.inj h
        exact absurd (by rw [← hy']; rfl) hy
      · rename_i hc
        exact absurd (cons.inj h).1 hc
    | cons d b =>
      simp only [escape] at h
      split at h <;> split at h
      · rename_i hc hd
        obtain ⟨rfl, rfl⟩ := ih (cons.inj (cons.inj h).2).2
        exact ⟨by rw [hc, hd], rfl⟩
      · rename_i hd
        exact absurd (cons.inj h).1.symm hd
      · rename_i hc _
        exact absurd (cons.inj h).1 hc
      · obtain ⟨rfl, htail⟩ := cons.inj h
        obtain ⟨rfl, rfl⟩ := ih htail
        exact ⟨rfl, rfl⟩

/-- A quote too many at the front can never be made up for. -/
theorem append_ne_replicate_escape {a x y : List α} (hx : x.head? ≠ some q) (n : ℕ) :
    a ++ q :: x ≠ List.replicate (n + 1) q ++ (escape q a ++ q :: y) := by
  induction a generalizing n with
  | nil =>
    intro h
    rw [replicate_succ, cons_append] at h
    have hx' := (cons.inj h).2
    cases n with
    | zero => exact hx (by rw [hx']; rfl)
    | succ n => exact hx (by rw [hx', replicate_succ]; rfl)
  | cons c a ih =>
    intro h
    rw [replicate_succ, cons_append, cons_append] at h
    obtain ⟨rfl, h⟩ := cons.inj h
    -- the doubled quote goes to the front
    refine ih (n + 1) (h.trans ?_)
    rw [escape, if_pos rfl, replicate_succ', replicate_succ', append_assoc, append_assoc]
    rfl

/-- A name between quotes reads as itself only if it contains no quote. -/
theorem raw_eq_escape {a x y : List α} (hx : x.head? ≠ some q)
    (h : a ++ q :: x = escape q a ++ q :: y) : q ∉ a ∧ x = y := by
  induction a with
  | nil => exact ⟨not_mem_nil, (cons.inj h).2⟩
  | cons c a ih =>
    simp only [escape] at h
    split at h
    · rename_i hc
      exact absurd (cons.inj h).2 (append_ne_replicate_escape hx 0)
    · rename_i hc
      obtain ⟨hnot, rfl⟩ := ih (cons.inj h).2
      exact ⟨by simp [hnot, Ne.symm hc], rfl⟩

theorem quoteAll_cons (name : List α) (names : List (List α)) (z : List α) :
    quoteAll q sep (name :: names) ++ z =
      q :: (escape q name ++ q :: more sep (quote q) names z) := by
  rw [quoteAll, intercalate_map_cons, quote]
  simp

omit [DecidableEq α] in
theorem rawQuoteAll_cons (name : List α) (names : List (List α)) (z : List α) :
    rawQuoteAll q sep (name :: names) ++ z =
      q :: (name ++ q :: more sep (rawQuote q) names z) := by
  rw [rawQuoteAll, intercalate_map_cons, rawQuote]
  simp

section

variable {t : α} (hsep : sep ≠ q) (htq : t ≠ q)

include hsep htq

/-- A list of quoted names that is followed by something else than a quote or a separator is read
    back in one way only. -/
theorem quoteAll_inj (hts : t ≠ sep) {names names' : List (List α)} {x y : List α}
    (hne : names ≠ []) (hne' : names' ≠ [])
    (h : quoteAll q sep names ++ t :: x = quoteAll q sep names' ++ t :: y) : names = names' := by
  induction names generalizing names' with
  | nil => exact absurd rfl hne
  | cons a names ih =>
    obtain ⟨b, names', rfl⟩ := exists_cons_of_ne_nil hne'
    rw [quoteAll_cons, quoteAll_cons] at h
    obtain ⟨rfl, hmore⟩ := escape_inj (more_head hsep htq names x) (more_head hsep htq names' y)
      (cons.inj h).2
    cases names with
    | nil =>
      cases names' with
      | nil => rfl
      | cons b' names' => exact absurd (cons.inj hmore).1 hts
    | cons a' names =>
      cases names' with
      | nil => exact absurd (cons.inj hmore).1.symm hts
      | cons b' names' =>
        rw [ih (cons_ne_nil _ _) (cons_ne_nil _ _) (cons.inj hmore).2]

/-- Names between quotes read as themselves only if none of them contains a quote. -/
theorem quote_notMem_of_rawQuoteAll {names : List (List α)} {x y : List α}
    (h : rawQuoteAll q sep names ++ t :: x = quoteAll q sep names ++ t :: y) :
    ∀ name ∈ names, q ∉ name := by
  induction names with
  | nil => exact fun name hname => nomatch hname
  | cons a names ih =>
    rw [rawQuoteAll_cons, quoteAll_cons] at h
    obtain ⟨hnot, hmore⟩ := raw_eq_escape (more_head hsep htq names x) (cons.inj h).2
    intro name hname
    rcases mem_cons.mp hname with rfl | htail
    · exact hnot
    · cases names with
      | nil => cases htail
      | cons b names => exact ih (cons.inj hmore).2 name htail

end

end Quoting
