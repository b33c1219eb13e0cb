import Mathlib.Data.List.Basic

/-!
# Text codecs

Writers with their readers. A reader takes the text of one value off the front of a longer text, so
codecs of parts can be put one after the other.

## Key results

- `decode_encode` is a field: every codec reads back what it writes
- `list`: a codec of elements gives one of lists, with `+` before each element and `-`
  at the end
-/

open List Option

/-- A writer and its reader. -/
structure TextCodec (α : Type*) where
  encode : α → List Char
  /-- The first value of a text, and what follows it. -/
  decode : List Char → Option (α × List Char)
  decode_encode : ∀ a rest, decode (encode a ++ rest) = some (a, rest)

namespace TextCodec

variable {α β : Type*}

def unit : TextCodec Unit where
  encode _ := []
  decode t := some ((), t)
  decode_encode _ _ := rfl

def char : TextCodec Char where
  encode c := [c]
  decode
    | [] => none
    | c :: t => some (c, t)
  decode_encode _ _ := rfl

/-- Values that are written as values of another type. -/
def map (a : TextCodec α) (read : α → β) (write : β → α) (h : ∀ b, read (write b) = b) :
    TextCodec β where
  encode b := a.encode (write b)
  decode t := (a.decode t).map fun r => (read r.1, r.2)
  decode_encode b rest := by rw [a.decode_encode, Option.map_some, h]

def pair (a : TextCodec α) (b : TextCodec β) : TextCodec (α × β) where
  encode p := a.encode p.1 ++ b.encode p.2
  decode t := (a.decode t).bind fun r => (b.decode r.2).map fun q => ((r.1, q.1), q.2)
  decode_encode p rest := by
    rw [List.append_assoc, a.decode_encode, Option.bind_some, b.decode_encode, Option.map_some]

/-- The elements of a list, one after the other. -/
def encodeList (a : TextCodec α) : List α → List Char
  | [] => ['-']
  | x :: l => '+' :: (a.encode x ++ encodeList a l)

/-- Read at most `fuel` elements. -/
def decodeList (a : TextCodec α) : ℕ → List Char → Option (List α × List Char)
  | 0, _ => none
  | _ + 1, [] => none
  | fuel + 1, c :: t =>
    if c = '-' then some ([], t)
    else (a.decode t).bind fun r => (decodeList a fuel r.2).map fun q => (r.1 :: q.1, q.2)

/-- As many elements as there are characters are enough. -/
theorem decodeList_encodeList (a : TextCodec α) (l : List α) (rest : List Char) {fuel : ℕ}
    (hfuel : l.length < fuel) : decodeList a fuel (encodeList a l ++ rest) = some (l, rest) := by
  induction l generalizing fuel with
  | nil =>
    obtain ⟨fuel, rfl⟩ := Nat.exists_eq_succ_of_ne_zero (Nat.ne_of_gt hfuel)
    rfl
  | cons x l ih =>
    obtain ⟨fuel, rfl⟩ := Nat.exists_eq_succ_of_ne_zero (Nat.ne_of_gt (Nat.zero_lt_of_lt hfuel))
    have hlen : l.length < fuel := Nat.lt_of_succ_lt_succ hfuel
    rw [encodeList, cons_append, append_assoc, decodeList, if_neg (by decide),
      a.decode_encode, bind_some, ih hlen, map_some]

theorem length_lt_length_encodeList (a : TextCodec α) (l : List α) :
    l.length < (encodeList a l).length := by
  induction l with
  | nil => exact Nat.zero_lt_one
  | cons x l ih =>
    rw [encodeList, length_cons, length_cons, length_append]
    omega

def list (a : TextCodec α) : TextCodec (List α) where
  encode := encodeList a
  decode t := decodeList a t.length t
  decode_encode l rest := by
    refine decodeList_encodeList a l rest ?_
    have hlen := length_lt_length_encodeList a l
    rw [List.length_append]
    omega

theorem head?_toList : ∀ o : Option α, o.toList.head? = o
  | none => rfl
  | some _ => rfl

def option (a : TextCodec α) : TextCodec (Option α) :=
  a.list.map List.head? Option.toList head?_toList

def string : TextCodec String := char.list.map String.ofList String.toList fun _ => String.ofList_toList

end TextCodec
