import RegularLanguages.Regex.Basic
import RegularLanguages.Text.Alphanumeric
import RegularLanguages.Text.Blank

/-!
# Reading regular expressions

The grammar, in which blanks may stand anywhere:

    expression ::= term (('+' | '|') term)*
    term       ::= factor ('.'? factor)*
    factor     ::= atom '*'*
    atom       ::= SYMBOL | 'ε' | '(' expression ')'

Symbols are letters and digits. The tree of an expression follows the grammar, with chains of
unions and of concatenations associated to the left, and nothing is simplified.

The text is first scanned into tokens, and a character that no token starts with is reported
before anything else. The tokens are then read one by one: what has been read so far is kept as
the finished alternatives and factors of the group at hand, the operand just read, and the
groups around it (`Reading`). Two operands next to each other are concatenated, so a fault is
always reported at a token that stands in the text. `Regex/Descent.lean` reads the tokens by
recursive descent instead.
-/

namespace RegularLanguages

/-- What is wrong with the text of an expression. Positions count characters from 0. -/
inductive RegexError
  /-- There is no token at all. -/
  | empty
  /-- A character that starts no token. -/
  | invalidCharacter (position : Nat) (found : Char)
  /-- An operator where an operand is needed. -/
  | unexpectedToken (position : Nat) (found : Char)
  /-- The text ends where an operand is needed; the position is the length of the text. -/
  | unexpectedEnd (position : Nat)
  /-- A parenthesis that is never closed. -/
  | unclosed (position : Nat)
  /-- A closing parenthesis without partner behind a complete expression. -/
  | unmatched (position : Nat) (found : Char)
deriving DecidableEq

namespace RegexError

/-- Where the fault is, if there is any text to be at fault. -/
def position : RegexError → Option Nat
  | empty => none
  | invalidCharacter p _ => some p
  | unexpectedToken p _ => some p
  | unexpectedEnd p => some p
  | unclosed p => some p
  | unmatched p _ => some p

/-- The wording of a fault. -/
def message : RegexError → String
  | empty => "the expression is empty"
  | invalidCharacter p c => "invalid character `" ++ c.toString ++ "` at position " ++ toString p
  | unexpectedToken p c => "unexpected `" ++ c.toString ++ "` at position " ++ toString p
  | unexpectedEnd p => "unexpected end of expression at position " ++ toString p
  | unclosed p => "parenthesis opened at position " ++ toString p ++ " is never closed"
  | unmatched p c => "unmatched `" ++ c.toString ++ "` at position " ++ toString p

end RegexError

namespace Regex

/-- The tokens of the text of an expression. -/
inductive Token
  | symbol (c : Char)
  | epsilon
  | union (c : Char)
  | dot
  | star
  | opening
  | closing
deriving DecidableEq

namespace Token

/-- The token that a character is, if it is one. -/
def ofChar? (c : Char) : Option Token :=
  if c = epsilonChar then some epsilon
  else if c = '+' ∨ c = '|' then some (union c)
  else if c = '.' then some dot
  else if c = '*' then some star
  else if c = '(' then some opening
  else if c = ')' then some closing
  else if Text.isAlphanumeric c then some (symbol c)
  else none

/-- The character that a token is written as. -/
def toChar : Token → Char
  | symbol c => c
  | epsilon => epsilonChar
  | union c => c
  | dot => '.'
  | star => '*'
  | opening => '('
  | closing => ')'

/-- The tokens of a text with their positions, the first character being at `position`. -/
def scan : (position : Nat) → List Char → Except RegexError (List (Nat × Token))
  | _, [] => .ok []
  | position, c :: cs =>
    if Text.isBlank c then scan (position + 1) cs
    else
      match ofChar? c with
      | none => .error (.invalidCharacter position c)
      | some token => (scan (position + 1) cs).map ((position, token) :: ·)

end Token

/-- The finished part of a group in front of the operand at hand: the alternatives before the
current one and the factors before the current one. -/
structure Finished where
  alternatives : Option Regex
  factors : Option Regex

namespace Finished

/-- Nothing is finished yet. -/
def start : Finished := ⟨none, none⟩

/-- The current alternative when its last factor is `r`. -/
def term (done : Finished) (r : Regex) : Regex :=
  match done.factors with
  | none => r
  | some l => concat l r

/-- The whole group when its last factor is `r`. -/
def whole (done : Finished) (r : Regex) : Regex :=
  match done.alternatives with
  | none => done.term r
  | some l => union l (done.term r)

/-- Goes on to the next factor after `r`. -/
def nextFactor (done : Finished) (r : Regex) : Finished :=
  ⟨done.alternatives, some (done.term r)⟩

/-- Goes on to the next alternative after the factor `r`. -/
def nextAlternative (done : Finished) (r : Regex) : Finished := ⟨some (done.whole r), none⟩

end Finished

/-- What has been read of an expression: the group at hand, the operand just read, if the last
token completed one, and the open groups around it, innermost first, each with the position of
its parenthesis and what was finished in front of it. -/
structure Reading where
  done : Finished
  operand : Option Regex
  outer : List (Nat × Finished)

namespace Reading

/-- Nothing has been read. -/
def start : Reading := ⟨.start, none, []⟩

/-- Reads an operand that is a single token. -/
def atom (reading : Reading) (r : Regex) : Reading :=
  match reading.operand with
  | none => { reading with operand := some r }
  | some l => { reading with done := reading.done.nextFactor l, operand := some r }

/-- Opens a group at the given position. -/
def openGroup (reading : Reading) (position : Nat) : Reading :=
  match reading.operand with
  | none => ⟨.start, none, (position, reading.done) :: reading.outer⟩
  | some l => ⟨.start, none, (position, reading.done.nextFactor l) :: reading.outer⟩

/-- Reads one token. -/
def step (reading : Reading) : Nat × Token → Except RegexError Reading
  | (_, .symbol c) => .ok (reading.atom (Regex.symbol c))
  | (_, .epsilon) => .ok (reading.atom Regex.epsilon)
  | (position, .opening) => .ok (reading.openGroup position)
  | (position, token) =>
    match reading.operand with
    | none => .error (.unexpectedToken position token.toChar)
    | some r =>
      match token with
      | .star => .ok { reading with operand := some (Regex.star r) }
      | .union _ => .ok ⟨reading.done.nextAlternative r, none, reading.outer⟩
      | .closing =>
        match reading.outer with
        | [] => .error (.unmatched position token.toChar)
        | (_, done) :: outer => .ok ⟨done, some (reading.done.whole r), outer⟩
      | _ => .ok ⟨reading.done.nextFactor r, none, reading.outer⟩

/-- The expression that has been read when the text of the given length ends. -/
def finish (reading : Reading) (length : Nat) : Except RegexError Regex :=
  match reading.operand, reading.outer with
  | none, _ => .error (.unexpectedEnd length)
  | some _, (position, _) :: _ => .error (.unclosed position)
  | some r, [] => .ok (reading.done.whole r)

end Reading

/-- Reads an expression from its characters. -/
def parseChars (cs : List Char) : Except RegexError Regex := do
  let tokens ← Token.scan 0 cs
  if tokens.isEmpty then
    .error .empty
  else
    let reading ← tokens.foldlM Reading.step Reading.start
    reading.finish cs.length

/-- Reads an expression. -/
def parse (text : String) : Except RegexError Regex := parseChars text.toList

end Regex

end RegularLanguages
