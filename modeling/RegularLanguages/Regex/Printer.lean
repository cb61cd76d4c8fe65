import RegularLanguages.Regex.Basic

/-!
# Text of regular expressions

Union is written `+`, concatenation by juxtaposition, repetition `*`, the empty word `ε`.
Repetition binds strongest, then concatenation. An operand is put in parentheses exactly if it
binds less strongly than its place requires, so chains of unions and of concatenations are
written without parentheses, whichever way they are associated.
-/

namespace RegularLanguages.Regex

/-- How strongly the outermost operator of an expression binds. -/
def strength : Regex → Nat
  | union _ _ => 0
  | concat _ _ => 1
  | star _ => 2
  | _ => 3

/-- Puts the text of an operand in parentheses if the operand binds less strongly than
required. -/
def guarded (required : Nat) (operand : Regex) (text : List Char) : List Char :=
  if operand.strength < required then '(' :: text ++ [')'] else text

/-- The characters of the text of an expression. -/
def chars : Regex → List Char
  | epsilon => [epsilonChar]
  | symbol c => [c]
  | union l r => l.chars ++ '+' :: r.chars
  | concat l r => guarded 1 l l.chars ++ guarded 1 r r.chars
  | star r => guarded 2 r r.chars ++ ['*']

/-- The text of an expression. -/
def toText (r : Regex) : String := String.ofList r.chars

/-- The text of a language that may be empty. -/
def showLanguage : Option Regex → String
  | none => "∅"
  | some r => r.toText

end RegularLanguages.Regex
