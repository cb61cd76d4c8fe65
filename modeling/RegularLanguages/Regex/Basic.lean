import RegularLanguages.Label

/-!
# Regular expressions

The terms of regular expressions over single characters, and constructors that simplify without
changing the language: `unite` drops a term that the other side already has, `append` drops the
empty word, `iterate` drops the empty word from the terms of its operand and does not repeat a
repetition. No term denotes the empty language, so a language that may be empty is given by an
`Option Regex`.
-/

namespace RegularLanguages

/-- A regular expression. -/
inductive Regex
  /-- The empty word. -/
  | epsilon
  /-- A single symbol. -/
  | symbol (c : Char)
  /-- The words of either side. -/
  | union (left right : Regex)
  /-- A word of the left side followed by one of the right side. -/
  | concat (left right : Regex)
  /-- Any number of repetitions, including none. -/
  | star (inner : Regex)
deriving DecidableEq, Inhabited

namespace Regex

/-- The expression for the one-letter or empty word that a label stands for. -/
def ofLabel : Label → Regex
  | .epsilon => epsilon
  | .symbol c => symbol c

/-- The operands of the outermost chain of unions, from left to right. -/
def unionTerms : Regex → List Regex
  | union l r => l.unionTerms ++ r.unionTerms
  | r => [r]

/-- The union of two expressions. A side that is among the union terms of the other one is not
added again. -/
def unite (left right : Regex) : Regex :=
  if right ∈ left.unionTerms then left
  else if left ∈ right.unionTerms then right
  else union left right

/-- The union of an expression that may be missing and a further one. -/
def adjoin (old : Option Regex) (r : Regex) : Regex :=
  match old with
  | none => r
  | some l => l.unite r

/-- The concatenation of two expressions, where the empty word is dropped. -/
def append (left right : Regex) : Regex :=
  if left = epsilon then right
  else if right = epsilon then left
  else concat left right

/-- The union of a list of expressions, from left to right; a list without entries has none. -/
def uniteAll : List Regex → Option Regex
  | [] => none
  | r :: rs => some (rs.foldl unite r)

/-- Any number of repetitions. The empty word is dropped from the union terms of the operand,
and an operand that is a repetition is its own repetition. -/
def iterate (inner : Regex) : Regex :=
  match uniteAll (inner.unionTerms.filter (· ≠ epsilon)) with
  | none => epsilon
  | some (star r) => star r
  | some r => star r

/-- Whether the empty word is in the language. -/
def nullable : Regex → Bool
  | epsilon => true
  | symbol _ => false
  | union l r => l.nullable || r.nullable
  | concat l r => l.nullable && r.nullable
  | star _ => true

/-- The occurrences of symbols from left to right. -/
def leaves : Regex → List Char
  | epsilon => []
  | symbol c => [c]
  | union l r => l.leaves ++ r.leaves
  | concat l r => l.leaves ++ r.leaves
  | star r => r.leaves

/-- The symbols that occur. -/
def symbols (r : Regex) : OrderedSet Char := .ofList r.leaves

/-- The rank of the kind of an expression in the order of expressions. -/
def kindRank : Regex → Nat
  | epsilon => 0
  | symbol _ => 1
  | union _ _ => 2
  | concat _ _ => 3
  | star _ => 4

/-- The order of expressions: first by kind, then by the parts from left to right. -/
def order : Regex → Regex → Ordering
  | symbol a, symbol b => compare a b
  | union l r, union l' r' => (l.order l').then (r.order r')
  | concat l r, concat l' r' => (l.order l').then (r.order r')
  | star r, star r' => r.order r'
  | r, r' => compare r.kindRank r'.kindRank

end Regex

end RegularLanguages
