import RegularLanguages.Regex.Parser

/-!
# Reading regular expressions by recursive descent

The grammar of `Regex/Parser.lean` with every concatenation written, one function for each of
its rules:

    expression ::= term (('+' | '|') term)*
    term       ::= factor ('.' factor)*
    factor     ::= atom '*'*
    atom       ::= SYMBOL | 'ε' | '(' expression ')'

The concatenations that juxtaposition stands for are put between the tokens first
(`Token.withDots`), at the position of the operand behind them. Each function reads what its
rule derives at the head of the tokens and leaves the others, of which there are fewer
(`Descent.Read`), so the recursion ends.
-/

namespace RegularLanguages.Regex

namespace Token

/-- Whether an operand can end with the token. -/
def endsOperand : Token → Bool
  | symbol _ => true
  | epsilon => true
  | star => true
  | closing => true
  | _ => false

/-- Whether an operand can start with the token. -/
def startsOperand : Token → Bool
  | symbol _ => true
  | epsilon => true
  | opening => true
  | _ => false

/-- Puts a dot between any two operands that stand next to each other. -/
def withDots : List (Nat × Token) → List (Nat × Token)
  | t :: u :: ts =>
    if t.2.endsOperand && u.2.startsOperand then t :: (u.1, dot) :: withDots (u :: ts)
    else t :: withDots (u :: ts)
  | ts => ts

end Token

namespace Descent

/-- What a rule has read: its tree and the tokens behind it, fewer than `n`. -/
structure Read (n : Nat) where
  tree : Regex
  rest : List (Nat × Token)
  shorter : rest.length < n

/-- What was read is also read where more tokens are allowed to be left. -/
def Read.weaken {n m : Nat} (out : Read n) (h : n ≤ m) : Read m :=
  ⟨out.tree, out.rest, Nat.lt_of_lt_of_le out.shorter h⟩

/-- Reads stars behind an operand. -/
def stars (out : Regex) : (ts : List (Nat × Token)) → Read (ts.length + 1)
  | (_, .star) :: ts => (stars (star out) ts).weaken (Nat.le_succ _)
  | ts => ⟨out, ts, Nat.lt_succ_self _⟩

mutual

/-- Reads an expression. An end is reported at `length`, the length of the text. -/
def expression (length : Nat) (ts : List (Nat × Token)) : Except RegexError (Read ts.length) := do
  let ⟨first, rest, h⟩ ← term length ts
  let out ← alternatives length first rest
  return out.weaken h
termination_by (ts.length, 4)

/-- Reads further terms of a union. -/
def alternatives (length : Nat) (out : Regex) (ts : List (Nat × Token)) :
    Except RegexError (Read (ts.length + 1)) :=
  match ts with
  | (_, .union _) :: ts => do
    let ⟨next, rest, h⟩ ← term length ts
    let out ← alternatives length (union out next) rest
    return out.weaken (by simp only [List.length_cons]; omega)
  | ts => .ok ⟨out, ts, Nat.lt_succ_self _⟩
termination_by (ts.length, 0)

/-- Reads a term. -/
def term (length : Nat) (ts : List (Nat × Token)) : Except RegexError (Read ts.length) := do
  let ⟨first, rest, h⟩ ← factor length ts
  let out ← factors length first rest
  return out.weaken h
termination_by (ts.length, 3)

/-- Reads further factors of a concatenation. -/
def factors (length : Nat) (out : Regex) (ts : List (Nat × Token)) :
    Except RegexError (Read (ts.length + 1)) :=
  match ts with
  | (_, .dot) :: ts => do
    let ⟨next, rest, h⟩ ← factor length ts
    let out ← factors length (concat out next) rest
    return out.weaken (by simp only [List.length_cons]; omega)
  | ts => .ok ⟨out, ts, Nat.lt_succ_self _⟩
termination_by (ts.length, 0)

/-- Reads a factor. -/
def factor (length : Nat) (ts : List (Nat × Token)) : Except RegexError (Read ts.length) := do
  let ⟨first, rest, h⟩ ← atom length ts
  return (stars first rest).weaken h
termination_by (ts.length, 2)

/-- Reads an atom. -/
def atom (length : Nat) (ts : List (Nat × Token)) : Except RegexError (Read ts.length) :=
  match ts with
  | [] => .error (.unexpectedEnd length)
  | (position, token) :: ts =>
    match token with
    | .symbol c => .ok ⟨symbol c, ts, Nat.lt_succ_self _⟩
    | .epsilon => .ok ⟨epsilon, ts, Nat.lt_succ_self _⟩
    | .opening => do
      match ← expression length ts with
      | ⟨inner, (_, .closing) :: rest, h⟩ =>
        return ⟨inner, rest, Nat.lt_succ_of_lt (Nat.lt_of_succ_lt h)⟩
      | _ => .error (.unclosed position)
    | .union _ | .dot | .star | .closing => .error (.unexpectedToken position token.toChar)
termination_by (ts.length, 1)

end

/-- Reads an expression that ends where the tokens do. -/
def whole (length : Nat) (ts : List (Nat × Token)) : Except RegexError Regex := do
  let out ← expression length ts
  match out.rest with
  | [] => return out.tree
  | (position, token) :: _ => .error (.unmatched position token.toChar)

end Descent

/-- Reads an expression by recursive descent. -/
def descend (text : String) : Except RegexError Regex := do
  let tokens ← Token.scan 0 text.toList
  if tokens.isEmpty then
    .error .empty
  else
    Descent.whole text.length (Token.withDots tokens)

end RegularLanguages.Regex
