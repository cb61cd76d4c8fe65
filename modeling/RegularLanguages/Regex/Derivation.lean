import RegularLanguages.Regex.Parser

/-!
# Derivations as data

A derivation of the grammar with every choice that the text leaves open: which sign writes a
union, whether a concatenation is written with a dot, where parentheses stand. It determines the
characters of the text (`Expression.chars`) and the tree (`Expression.tree`), which shows none of
these choices.

A chain grows at its right end, as in `IsExpression`, so its tree is associated to the left.
-/

namespace RegularLanguages.Regex

/-- The signs that write a union. -/
inductive UnionSign
  | plus
  | bar
deriving DecidableEq

/-- The character of a sign. -/
def UnionSign.toChar : UnionSign → Char
  | plus => '+'
  | bar => '|'

/-- Whether a character may be a symbol of an expression. -/
def isSymbol (c : Char) : Bool := Text.isAlphanumeric c && c ≠ epsilonChar

/-- Whether a character may stand in the text of an expression without being a blank. -/
def isSignificant (c : Char) : Bool :=
  isSymbol c || c = epsilonChar || c ∈ ['+', '|', '.', '*', '(', ')']

/-- The characters without the choices of a text: every union is written `+`, and no
concatenation is written with a dot. -/
def plain (cs : List Char) : List Char :=
  (cs.filter (· ≠ '.')).map fun c => if c = '|' then '+' else c

namespace Derivation

mutual

/-- `expression ::= term (('+' | '|') term)*` -/
inductive Expression
  | term (t : Term)
  | union (e : Expression) (sign : UnionSign) (t : Term)

/-- `term ::= factor ('.'? factor)*` -/
inductive Term
  | factor (f : Factor)
  | concat (t : Term) (dotted : Bool) (f : Factor)

/-- `factor ::= atom '*'*` -/
inductive Factor
  | atom (a : Atom)
  | star (f : Factor)

/-- `atom ::= SYMBOL | 'ε' | '(' expression ')'` -/
inductive Atom
  | symbol (c : Char) (h : isSymbol c = true)
  | epsilon
  | group (e : Expression)

end

/-- The sign of a concatenation. -/
def dotTokens (dotted : Bool) : List Token := if dotted then [.dot] else []

mutual

/-- The tokens that are derived from an expression. -/
def Expression.tokens : Expression → List Token
  | .term t => t.tokens
  | .union e sign t => e.tokens ++ .union sign.toChar :: t.tokens

/-- The tokens that are derived from a term. -/
def Term.tokens : Term → List Token
  | .factor f => f.tokens
  | .concat t dotted f => t.tokens ++ dotTokens dotted ++ f.tokens

/-- The tokens that are derived from a factor. -/
def Factor.tokens : Factor → List Token
  | .atom a => a.tokens
  | .star f => f.tokens ++ [.star]

/-- The tokens that are derived from an atom. -/
def Atom.tokens : Atom → List Token
  | .symbol c _ => [.symbol c]
  | .epsilon => [.epsilon]
  | .group e => .opening :: e.tokens ++ [.closing]

end

mutual

/-- The tree of an expression, its terms joined from the left. -/
def Expression.tree : Expression → Regex
  | .term t => t.tree
  | .union e _ t => Regex.union e.tree t.tree

/-- The tree of a term, its factors joined from the left. -/
def Term.tree : Term → Regex
  | .factor f => f.tree
  | .concat t _ f => Regex.concat t.tree f.tree

/-- The tree of a factor. -/
def Factor.tree : Factor → Regex
  | .atom a => a.tree
  | .star f => Regex.star f.tree

/-- The tree of an atom. Parentheses leave no trace in it. -/
def Atom.tree : Atom → Regex
  | .symbol c _ => Regex.symbol c
  | .epsilon => Regex.epsilon
  | .group e => e.tree

end

/-- The characters of the text that is derived. -/
def Expression.chars (e : Expression) : List Char := e.tokens.map Token.toChar

end Derivation

end RegularLanguages.Regex
