import Mathlib.Data.Nat.Notation

/-!
# Reading JSON from a stream

A reader of the first JSON value (RFC 8259) of a sequence of characters, one character at a time: a
state and a stack of the arrays and objects that are open, as in the scanner of `encoding/json`.
What the values are is up to a `Builder`. A value ends with its last character, except for a number,
which ends before the first character that does not continue it; what follows is not looked at.

## Key result

- `Builder.first_eq_iff`: the first value of a text, if it is no number, is the one whose own
  text the text starts with
-/

open List

namespace JsonReader

/-- White space between tokens. -/
def isSpace (c : Char) : Bool := c = ' ' || c = '\t' || c = '\r' || c = '\n'

/-- What to make of the values of a text. The members of an object come in the order of the text,
    equal names included. -/
structure Builder (V : Type*) where
  null : V
  bool : Bool → V
  number : String → V
  string : String → V
  array : List V → V
  object : List (String × V) → V

/-! ## Strings -/

/-- A piece of a string: a character, or a UTF-16 code unit from an escape. -/
inductive Piece where
  | char (c : Char)
  | unit (n : ℕ)

/-- A code unit by itself: half a surrogate pair stands for no character. -/
def unitChar (n : ℕ) : Char := if 0xD800 ≤ n ∧ n < 0xE000 then '\uFFFD' else Char.ofNat n

/-- The characters of a string; two units that form a surrogate pair are one. -/
def pieceChars : List Piece → List Char
  | [] => []
  | .char c :: ps => c :: pieceChars ps
  | [.unit n] => [unitChar n]
  | .unit n :: .char c :: ps => unitChar n :: c :: pieceChars ps
  | .unit n :: .unit m :: ps =>
    if 0xD800 ≤ n ∧ n < 0xDC00 ∧ 0xDC00 ≤ m ∧ m < 0xE000 then
      Char.ofNat (0x10000 + (n - 0xD800) * 0x400 + (m - 0xDC00)) :: pieceChars ps
    else unitChar n :: pieceChars (.unit m :: ps)

/-- The character that stands behind a backslash. -/
def escaped (c : Char) : Option Char :=
  match c with
  | '"' => some '"'
  | '\\' => some '\\'
  | '/' => some '/'
  | 'b' => some '\x08'
  | 'f' => some '\x0c'
  | 'n' => some '\n'
  | 'r' => some '\r'
  | 't' => some '\t'
  | _ => none

def hexDigit (c : Char) : Option ℕ :=
  if '0' ≤ c ∧ c ≤ '9' then some (c.toNat - '0'.toNat)
  else if 'a' ≤ c ∧ c ≤ 'f' then some (c.toNat - 'a'.toNat + 10)
  else if 'A' ≤ c ∧ c ≤ 'F' then some (c.toNat - 'A'.toNat + 10)
  else none

/-! ## Numbers -/

/-- Where in a number the reader is. -/
inductive NumberState where
  | minus | zero | int | point | frac | exp | expSign | expDigits

/-- Behind a character that continues the number. -/
def NumberState.next (c : Char) : NumberState → Option NumberState
  | .minus => if c = '0' then some .zero else if c.isDigit then some .int else none
  | .zero => if c = '.' then some .point else if c = 'e' ∨ c = 'E' then some .exp else none
  | .int =>
    if c.isDigit then some .int
    else if c = '.' then some .point
    else if c = 'e' ∨ c = 'E' then some .exp
    else none
  | .point => if c.isDigit then some .frac else none
  | .frac => if c.isDigit then some .frac else if c = 'e' ∨ c = 'E' then some .exp else none
  | .exp =>
    if c = '+' ∨ c = '-' then some .expSign else if c.isDigit then some .expDigits else none
  | .expSign => if c.isDigit then some .expDigits else none
  | .expDigits => if c.isDigit then some .expDigits else none

/-- The number may end here. -/
def NumberState.isEnd : NumberState → Bool
  | .zero | .int | .frac | .expDigits => true
  | .minus | .point | .exp | .expSign => false

/-! ## The reader -/

/-- An open array with its elements, or an open object with its members and the name of the next
    one. -/
inductive Frame (V : Type*) where
  | array (vs : List V)
  | object (ms : List (String × V)) (name : String)

/-- What comes next. In a string, `isName` says whether it is the name of a member. -/
inductive Mode (V : Type*) where
  | value
  | firstElement
  | firstName
  | name
  | colon
  | after
  | string (isName : Bool) (ps : List Piece)
  | escape (isName : Bool) (ps : List Piece)
  | hex (isName : Bool) (ps : List Piece) (missing : ℕ) (n : ℕ)
  | number (state : NumberState) (cs : List Char)
  | literal (cs : List Char) (v : V)

/-- What a character leads to: a state with a stack, or the end of the value. -/
inductive Outcome (V : Type*) where
  | next (mode : Mode V) (stack : List (Frame V))
  | done (v : V)
  | fail

variable {V : Type*}

/-- A value in the array or object around it. -/
def push (v : V) : List (Frame V) → List (Frame V)
  | [] => []
  | .array vs :: stack => .array (vs ++ [v]) :: stack
  | .object ms name :: stack => .object (ms ++ [(name, v)]) name :: stack

/-- A value ends with the character that was read. -/
def complete (v : V) (stack : List (Frame V)) : Outcome V :=
  if stack.isEmpty then .done v else .next .after (push v stack)

namespace Builder

variable (B : Builder V)

/-- The first character of a value. -/
def start (c : Char) (stack : List (Frame V)) : Outcome V :=
  if c = '{' then .next .firstName (.object [] "" :: stack)
  else if c = '[' then .next .firstElement (.array [] :: stack)
  else if c = '"' then .next (.string false []) stack
  else if c = '-' then .next (.number .minus [c]) stack
  else if c = '0' then .next (.number .zero [c]) stack
  else if c.isDigit then .next (.number .int [c]) stack
  else if c = 't' then .next (.literal ['r', 'u', 'e'] (B.bool true)) stack
  else if c = 'f' then .next (.literal ['a', 'l', 's', 'e'] (B.bool false)) stack
  else if c = 'n' then .next (.literal ['u', 'l', 'l'] B.null) stack
  else .fail

/-- A character behind a value in an array or object. -/
def follow (c : Char) : List (Frame V) → Outcome V
  | [] => .fail
  | .array vs :: stack =>
    if isSpace c then .next .after (.array vs :: stack)
    else if c = ',' then .next .value (.array vs :: stack)
    else if c = ']' then complete (B.array vs) stack
    else .fail
  | .object ms name :: stack =>
    if isSpace c then .next .after (.object ms name :: stack)
    else if c = ',' then .next .name (.object ms name :: stack)
    else if c = '}' then complete (B.object ms) stack
    else .fail

/-- A string is complete. -/
def endString (isName : Bool) (ps : List Piece) (stack : List (Frame V)) : Outcome V :=
  let s := String.ofList (pieceChars ps)
  match isName, stack with
  | true, .object ms _ :: stack => .next .colon (.object ms s :: stack)
  | true, _ => .fail
  | false, stack => complete (B.string s) stack

/-- One character. -/
def step (c : Char) (stack : List (Frame V)) : Mode V → Outcome V
  | .value => if isSpace c then .next .value stack else B.start c stack
  | .firstElement =>
    if isSpace c then .next .firstElement stack
    else if c = ']' then B.follow c stack
    else B.start c stack
  | .firstName =>
    if isSpace c then .next .firstName stack
    else if c = '}' then B.follow c stack
    else if c = '"' then .next (.string true []) stack
    else .fail
  | .name =>
    if isSpace c then .next .name stack
    else if c = '"' then .next (.string true []) stack
    else .fail
  | .colon =>
    if isSpace c then .next .colon stack else if c = ':' then .next .value stack else .fail
  | .after => B.follow c stack
  | .string isName ps =>
    if c = '"' then B.endString isName ps stack
    else if c = '\\' then .next (.escape isName ps) stack
    else if c < ' ' then .fail
    else .next (.string isName (ps ++ [.char c])) stack
  | .escape isName ps =>
    if c = 'u' then .next (.hex isName ps 3 0) stack
    else
      match escaped c with
      | some c => .next (.string isName (ps ++ [.char c])) stack
      | none => .fail
  | .hex isName ps missing n =>
    match hexDigit c, missing with
    | none, _ => .fail
    | some d, 0 => .next (.string isName (ps ++ [.unit (16 * n + d)])) stack
    | some d, missing + 1 => .next (.hex isName ps missing (16 * n + d)) stack
  | .number state cs =>
    match state.next c with
    | some state => .next (.number state (cs ++ [c])) stack
    | none =>
      -- the number ends before the character
      if state.isEnd then B.follow c (push (B.number (String.ofList cs)) stack) else .fail
  | .literal cs v =>
    match cs with
    | [] => .fail
    | [d] => if c = d then complete v stack else .fail
    | d :: cs => if c = d then .next (.literal cs v) stack else .fail

/-- A number that is all of the value may end here. -/
def atEnd : Mode V → List (Frame V) → Option V
  | .number state cs, [] => if state.isEnd then some (B.number (String.ofList cs)) else none
  | _, _ => none

/-- Reads on to the end of the value: the value and what follows it. -/
def run (mode : Mode V) (stack : List (Frame V)) : List Char → Option (V × List Char)
  | [] => (B.atEnd mode stack).map (·, [])
  | c :: cs =>
    match B.step c stack mode with
    | .next mode stack => run mode stack cs
    | .done v => some (v, cs)
    | .fail => (B.atEnd mode stack).map (·, c :: cs)

/-- The first value of a text and what follows it. -/
def first (cs : List Char) : Option (V × List Char) := B.run .value [] cs

/-! ## Results -/

theorem eq_number_of_atEnd {mode : Mode V} {stack : List (Frame V)} {v : V}
    (h : B.atEnd mode stack = some v) : ∃ s, v = B.number s := by
  unfold atEnd at h
  split at h
  · split at h
    · exact ⟨_, (Option.some.inj h).symm⟩
    · simp at h
  · simp at h

/-- Whatever follows, a value that is no number is read from the same characters. -/
theorem run_local {mode : Mode V} {stack : List (Frame V)} {cs rest : List Char} {v : V}
    (h : B.run mode stack cs = some (v, rest)) :
    (∃ s, v = B.number s) ∨
      ∃ text, cs = text ++ rest ∧ ∀ rest', B.run mode stack (text ++ rest') = some (v, rest') := by
  induction cs generalizing mode stack with
  | nil =>
    obtain ⟨u, hu, heq⟩ := Option.map_eq_some_iff.mp h
    cases heq
    exact .inl (B.eq_number_of_atEnd hu)
  | cons c cs ih =>
    unfold run at h
    split at h
    · rename_i mode' stack' hstep
      refine (ih h).imp_right ?_
      intro ⟨text, htext, hrun⟩
      refine ⟨c :: text, by rw [htext, cons_append], fun rest' => ?_⟩
      rw [cons_append, run, hstep]
      exact hrun rest'
    · rename_i u hstep
      cases h
      refine .inr ⟨[c], rfl, fun rest' => ?_⟩
      rw [singleton_append, run, hstep]
    · obtain ⟨u, hu, heq⟩ := Option.map_eq_some_iff.mp h
      cases heq
      exact .inl (B.eq_number_of_atEnd hu)

/-- White space before a value is skipped. -/
theorem first_append {ws : List Char} (h : ws.all isSpace = true) (cs : List Char) :
    B.first (ws ++ cs) = B.first cs := by
  induction ws with
  | nil => rfl
  | cons c ws ih =>
    rw [all_cons, Bool.and_eq_true] at h
    have hc : B.step c [] .value = .next .value [] := if_pos h.1
    have ih := ih h.2
    unfold first at ih ⊢
    rw [cons_append, run, hc]
    exact ih

/-- What a text starts with and what follows. -/
theorem first_eq_iff {v : V} (hv : ∀ s, v ≠ B.number s) {cs rest : List Char} :
    B.first cs = some (v, rest) ↔
      ∃ ws text, cs = ws ++ text ++ rest ∧ ws.all isSpace = true ∧
        B.first text = some (v, []) := by
  constructor
  · intro h
    obtain ⟨text, rfl, hrun⟩ := (B.run_local h).resolve_left fun ⟨s, hs⟩ => hv s hs
    have hrun := hrun []
    rw [append_nil] at hrun
    exact ⟨[], text, by simp, rfl, hrun⟩
  · intro ⟨ws, text, hcs, hws, h⟩
    obtain ⟨text', htext, hrun⟩ := (B.run_local h).resolve_left fun ⟨s, hs⟩ => hv s hs
    rw [append_nil] at htext
    subst htext
    rw [hcs, append_assoc, B.first_append hws]
    exact hrun rest

end Builder

end JsonReader
