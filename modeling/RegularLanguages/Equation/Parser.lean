import RegularLanguages.Equation.Basic
import RegularLanguages.Text.Lines

/-!
# Reading systems of equations

A line holds one equation `xN = term + term + …`; what follows a `#` is a comment, and lines
without anything else are skipped. Terms are separated by `+` or `|` outside of parentheses. A
term is a regular expression with a variable behind it, a variable alone or an expression alone.
A variable may only stand at the end of a term.

A variable is an `x` with a number below 2⁶⁴; an `x` with a greater number is none. Lines are
checked one after the other, and at the end every variable in use must have an equation.
-/

namespace RegularLanguages

/-- The bound on the numbers of variables. -/
def Variable.bound : Nat := UInt64.size

/-- The variable that a text is, if it is one. -/
def Variable.ofChars? : List Char → Option Variable
  | 'x' :: digits =>
    if digits.isEmpty || !digits.all Char.isDigit then none
    else
      let n := Nat.ofDigitChars 10 digits 0
      if n < bound then some ⟨n⟩ else none
  | _ => none

namespace EquationSystem

/-- A text without the digits at its end, and these digits. -/
def splitDigits (cs : List Char) : List Char × List Char :=
  let reversed := cs.reverse
  ((reversed.dropWhile Char.isDigit).reverse, (reversed.takeWhile Char.isDigit).reverse)

/-- The text in front of a variable at the very end of a term, and this variable. -/
def trailingVariable? (term : List Char) : Option (List Char × Variable) :=
  let (head, digits) := splitDigits term
  if head.getLast? = some 'x' then
    (Variable.ofChars? ('x' :: digits)).map fun v => (head.dropLast, v)
  else none

/-- The first variable that occurs in a text. -/
def findVariable? : List Char → Option Variable
  | [] => none
  | c :: cs =>
    if c = 'x' then
      match Variable.ofChars? ('x' :: cs.takeWhile Char.isDigit) with
      | some v => some v
      | none => findVariable? cs
    else findVariable? cs

/-- Splits a right hand side into its terms, `depth` parentheses being open. -/
def splitTerms (depth : Int) : List Char → List (List Char)
  | [] => [[]]
  | c :: cs =>
    if (c = '+' ∨ c = '|') ∧ depth = 0 then [] :: splitTerms depth cs
    else
      let depth := if c = '(' then depth + 1 else if c = ')' then depth - 1 else depth
      match splitTerms depth cs with
      | [] => [[c]]
      | term :: terms => (c :: term) :: terms

/-- Reads a term: its coefficient, and its variable if it has one. -/
def parseTerm (line : Nat) (term : List Char) : Except EquationError (Regex × Option Variable) :=
  let term := Text.trim term
  let (coefficient, v) :=
    match trailingVariable? term with
    | some (head, v) => (Text.trimEnd head, some v)
    | none => (term, none)
  match findVariable? coefficient with
  | some v => .error (.misplacedVariable line v)
  | none =>
    if coefficient.isEmpty && v.isSome then .ok (.epsilon, v)
    else
      match Regex.parseChars coefficient with
      | .ok r => .ok (r, v)
      | .error cause => .error (.invalidTerm line (String.ofList term) cause)

/-- The equations read so far, the latest first, and the uses of variables, the latest first,
each with its line. -/
structure Reading where
  equations : List (Variable × LinearForm)
  uses : List (Nat × Variable)

/-- Reads the terms of a right hand side in order, and returns it and the variables it uses, the
latest first. -/
def parseTerms (line : Nat) :
    List (List Char) → LinearForm → List (Nat × Variable) →
      Except EquationError (LinearForm × List (Nat × Variable))
  | [], form, uses => .ok (form, uses)
  | term :: terms, form, uses => do
    let (r, v) ← parseTerm line term
    parseTerms line terms (form.add v r) (v.toList.map ((line, ·)) ++ uses)

/-- Reads one line. -/
def parseLine (reading : Reading) (line : Nat) (text : List Char) :
    Except EquationError Reading := do
  let content := Text.trim (text.takeWhile (· ≠ '#'))
  if content.isEmpty then
    return reading
  if '=' ∉ content then
    throw (.missingEquals line)
  let left := Text.trim (content.takeWhile (· ≠ '='))
  match Variable.ofChars? left with
  | none => throw (.invalidVariable line (String.ofList left))
  | some v =>
    if v ∈ reading.equations.map (·.1) then
      throw (.duplicateVariable line v)
    let right := (content.dropWhile (· ≠ '=')).drop 1
    let (form, uses) ← parseTerms line (splitTerms 0 right) .zero reading.uses
    return ⟨(v, form) :: reading.equations, uses⟩

/-- Reads the lines of a text, counted from `line`. -/
def parseLines (reading : Reading) : (line : Nat) → List (List Char) →
    Except EquationError Reading
  | _, [] => .ok reading
  | line, text :: rest => do
    let reading ← parseLine reading line text
    parseLines reading (line + 1) rest

/-- Reads a system of equations. -/
def parse (text : String) : Except EquationError EquationSystem := do
  let reading ← parseLines ⟨[], []⟩ 1 (Text.lines text.toList)
  let defined := reading.equations.map (·.1)
  match reading.uses.reverse.find? fun (_, v) => v ∉ defined with
  | some (line, v) => throw (.undefinedVariable line v)
  | none => return ⟨reading.equations.reverse⟩

end EquationSystem

end RegularLanguages
