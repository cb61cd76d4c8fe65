import RegularLanguages.Regex.Parser

/-!
# The grammar of regular expressions

The derivations of the grammar over tokens, each with its tree. Chains of unions and of
concatenations grow at their right end, so their trees are associated to the left. Blanks are no
tokens, so they do not take part.
-/

namespace RegularLanguages.Regex

/-- The characters that are no blanks. -/
def significant (cs : List Char) : List Char := cs.filter fun c => !Text.isBlank c

mutual

/-- The tokens form an expression with the given tree. -/
inductive IsExpression : List Token → Regex → Prop
  | term {ts : List Token} {r : Regex} : IsTerm ts r → IsExpression ts r
  | union {ts us : List Token} {l r : Regex} (c : Char) :
      IsExpression ts l → IsTerm us r → IsExpression (ts ++ .union c :: us) (union l r)

/-- The tokens form a term with the given tree. -/
inductive IsTerm : List Token → Regex → Prop
  | factor {ts : List Token} {r : Regex} : IsFactor ts r → IsTerm ts r
  | dotted {ts us : List Token} {l r : Regex} :
      IsTerm ts l → IsFactor us r → IsTerm (ts ++ .dot :: us) (concat l r)
  | juxtaposed {ts us : List Token} {l r : Regex} :
      IsTerm ts l → IsFactor us r → IsTerm (ts ++ us) (concat l r)

/-- The tokens form a factor with the given tree. -/
inductive IsFactor : List Token → Regex → Prop
  | atom {ts : List Token} {r : Regex} : IsAtom ts r → IsFactor ts r
  | star {ts : List Token} {r : Regex} : IsFactor ts r → IsFactor (ts ++ [.star]) (star r)

/-- The tokens form an atom with the given tree. -/
inductive IsAtom : List Token → Regex → Prop
  | symbol (c : Char) : IsAtom [.symbol c] (symbol c)
  | epsilon : IsAtom [.epsilon] epsilon
  | group {ts : List Token} {r : Regex} :
      IsExpression ts r → IsAtom (.opening :: ts ++ [.closing]) r

end

end RegularLanguages.Regex
