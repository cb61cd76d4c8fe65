import RegularLanguages.Regex.Derivation
import RegularLanguages.Regex.Grammar

/-!
# What the faults say about a text

Each fault of a text in terms of the grammar, without the reader: which part of the text still
begins a well-formed expression, what it ends with, and which parenthesis is open. A parenthesis
is closed if balanced text stands between it and a closing one.

A character that belongs to no expression is the fault wherever it stands, the first one if there
are several. In a text without such characters the fault is at the first character with which the
text stops to begin an expression, or at the end.
-/

namespace RegularLanguages

namespace Regex

open RegularLanguages.Regex.Derivation (Expression Factor)

/-- Whether a character may stand in the text of an expression, blanks included. -/
def isAdmissible (c : Char) : Bool := Text.isBlank c || isSignificant c

/-- The text is a complete expression. -/
def IsWellFormed (cs : List Char) : Prop := ∃ e : Expression, e.chars = significant cs

/-- Some complete expression starts with the text. -/
def BeginsExpression (cs : List Char) : Prop := ∃ rest, IsWellFormed (cs ++ rest)

/-- The characters of a factor, the longest kind of operand. -/
def Derivation.Factor.chars (f : Factor) : List Char := f.tokens.map Token.toChar

/-- The text ends with a complete operand, blanks apart. -/
def EndsWithOperand (cs : List Char) : Prop :=
  ∃ front, ∃ f : Factor, significant cs = front ++ f.chars

/-- The text does not end with an operand, but with any operand and some closing parentheses
behind it the text is a complete expression. -/
def LacksOperand (cs : List Char) : Prop :=
  ¬ EndsWithOperand cs ∧
    ∃ n, ∀ f : Factor, IsWellFormed (cs ++ f.chars ++ List.replicate n ')')

/-- Every parenthesis of the text has a partner in the text. -/
inductive Balanced : List Char → Prop
  | nil : Balanced []
  | cons {c : Char} {cs : List Char} : c ≠ '(' → c ≠ ')' → Balanced cs → Balanced (c :: cs)
  | group {cs ds : List Char} : Balanced cs → Balanced ds → Balanced ('(' :: cs ++ ')' :: ds)

/-- A parenthesis is opened at the position and closed again. -/
def IsClosedAt (cs : List Char) (position : Nat) : Prop :=
  ∃ front inner rest, cs = front ++ '(' :: inner ++ ')' :: rest ∧ front.length = position ∧
    Balanced inner

/-- The last parenthesis that is opened and never closed is at the position. -/
structure IsLastUnclosed (cs : List Char) (position : Nat) : Prop where
  opening : cs[position]? = some '('
  not_closed : ¬ IsClosedAt cs position
  last : ∀ later, position < later → cs[later]? = some '(' → IsClosedAt cs later

end Regex

namespace RegexError

open Regex

/-- What a fault says about the text. -/
def Describes (cs : List Char) : RegexError → Prop
  | invalidCharacter position found =>
    ∃ front rest, cs = front ++ found :: rest ∧ front.length = position ∧
      (∀ c ∈ front, isAdmissible c = true) ∧ isAdmissible found = false
  | empty => ∀ c ∈ cs, Text.isBlank c = true
  | unexpectedToken position found =>
    (∀ c ∈ cs, isAdmissible c = true) ∧
      ∃ front rest, cs = front ++ found :: rest ∧ front.length = position ∧
        BeginsExpression front ∧ LacksOperand front ∧ ¬ BeginsExpression (front ++ [found])
  | unmatched position found =>
    (∀ c ∈ cs, isAdmissible c = true) ∧
      ∃ front rest, cs = front ++ found :: rest ∧ front.length = position ∧
        found = ')' ∧ IsWellFormed front
  | unexpectedEnd position =>
    (∀ c ∈ cs, isAdmissible c = true) ∧ (∃ c ∈ cs, Text.isBlank c = false) ∧
      position = cs.length ∧ BeginsExpression cs ∧ LacksOperand cs
  | unclosed position =>
    (∀ c ∈ cs, isAdmissible c = true) ∧
      BeginsExpression cs ∧ EndsWithOperand cs ∧ IsLastUnclosed cs position

end RegexError

end RegularLanguages
