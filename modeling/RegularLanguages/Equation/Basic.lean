import RegularLanguages.Regex.Parser
import RegularLanguages.Regex.Printer

/-!
# Systems of right-linear equations

An equation `x = A₁ x₁ + … + Aₙ xₙ + B` gives a language by languages that stand at the ends of
words. The right hand side keeps one coefficient per variable that occurs, and the constant part;
a variable that does not occur and a missing constant stand for the empty language.
-/

namespace RegularLanguages

/-- A variable `x` with its number. -/
structure Variable where
  index : Nat
deriving DecidableEq, Inhabited

/-- The variable as it is written. Leading zeros are not kept. -/
def Variable.toText (v : Variable) : String := "x" ++ toString v.index

/-- The right hand side of an equation. -/
structure LinearForm where
  /-- The variables that occur, in increasing order, with their coefficients. -/
  coefficients : List (Variable × Regex)
  /-- The part without variable. -/
  constant : Option Regex
deriving DecidableEq

namespace LinearForm

/-- The right hand side without any term, for the empty language. -/
def zero : LinearForm := ⟨[], none⟩

/-- Adds a coefficient of a variable to what is there already. -/
def addCoefficient (v : Variable) (r : Regex) : List (Variable × Regex) → List (Variable × Regex)
  | [] => [(v, r)]
  | (w, s) :: rest =>
    if v = w then (w, s.unite r) :: rest
    else if v.index < w.index then (v, r) :: (w, s) :: rest
    else (w, s) :: addCoefficient v r rest

/-- Adds a term, which has a variable or belongs to the constant part. -/
def add (form : LinearForm) (v : Option Variable) (r : Regex) : LinearForm :=
  match v with
  | some v => { form with coefficients := addCoefficient v r form.coefficients }
  | none => { form with constant := some (Regex.adjoin form.constant r) }

/-- The coefficient of a variable, if it occurs. -/
def coefficient? (form : LinearForm) (v : Variable) : Option Regex := form.coefficients.lookup v

/-- The right hand side without the term of a variable. -/
def without (form : LinearForm) (v : Variable) : LinearForm :=
  { form with coefficients := form.coefficients.filter (·.1 ≠ v) }

/-- Whether no variable occurs. -/
def isClosed (form : LinearForm) : Bool := form.coefficients.isEmpty

/-- The right hand side with every term behind the expression `r`. -/
def behind (r : Regex) (form : LinearForm) : LinearForm :=
  ⟨form.coefficients.map fun (v, c) => (v, r.append c), form.constant.map r.append⟩

/-- Resolves the equation of a variable that refers to itself: by Arden's lemma the least
solution of `x = A x + B` is `x = A* B`. -/
def resolve (form : LinearForm) (v : Variable) : LinearForm :=
  match form.coefficient? v with
  | none => form
  | some a => (form.without v).behind a.iterate

/-- Replaces a variable by a right hand side. -/
def substitute (form : LinearForm) (v : Variable) (value : LinearForm) : LinearForm :=
  match form.coefficient? v with
  | none => form
  | some c =>
    let scaled := value.behind c
    let form := scaled.coefficients.foldl (fun form (w, r) => form.add (some w) r) (form.without v)
    scaled.constant.toList.foldl (fun form r => form.add none r) form

/-- The text of a coefficient with its variable. The empty word is not written, and a union
stands in parentheses. -/
def termText (v : Variable) : Regex → String
  | .epsilon => v.toText
  | .union l r => "(" ++ (Regex.union l r).toText ++ ") " ++ v.toText
  | c => c.toText ++ " " ++ v.toText

/-- The text of a right hand side; without any term it is `∅`. -/
def toText (form : LinearForm) : String :=
  let terms := form.coefficients.map (fun (v, c) => termText v c) ++
    form.constant.toList.map Regex.toText
  if terms.isEmpty then "∅" else " + ".intercalate terms

end LinearForm

/-- A system of equations, at most one per variable, in the order of their declaration. -/
structure EquationSystem where
  equations : List (Variable × LinearForm)
deriving DecidableEq

namespace EquationSystem

/-- The variables that have an equation. -/
def unknowns (S : EquationSystem) : List Variable := S.equations.map (·.1)

/-- The equations, one per line. -/
def toText (S : EquationSystem) : String :=
  "\n".intercalate (S.equations.map fun (v, form) => v.toText ++ " = " ++ form.toText)

end EquationSystem

/-- What is wrong with the text of a system, or with solving it. Lines count from 1. -/
inductive EquationError
  | missingEquals (line : Nat)
  | invalidVariable (line : Nat) (found : String)
  | invalidTerm (line : Nat) (term : String) (cause : RegexError)
  | misplacedVariable (line : Nat) (v : Variable)
  | duplicateVariable (line : Nat) (v : Variable)
  | undefinedVariable (line : Nat) (v : Variable)
  | notClosed (rounds : Nat)
deriving DecidableEq

namespace EquationError

/-- The line at fault, if the text is at fault. -/
def line : EquationError → Option Nat
  | missingEquals n => some n
  | invalidVariable n _ => some n
  | invalidTerm n _ _ => some n
  | misplacedVariable n _ => some n
  | duplicateVariable n _ => some n
  | undefinedVariable n _ => some n
  | notClosed _ => none

/-- Puts the number of a line in front of a message. -/
def atLine (n : Nat) (message : String) : String := "line " ++ toString n ++ ": " ++ message

/-- The wording of a fault. -/
def message : EquationError → String
  | missingEquals n => atLine n "missing `=`"
  | invalidVariable n found =>
    atLine n ("`" ++ found ++ "` is not a variable, expected `x` followed by digits")
  | invalidTerm n term cause => atLine n ("invalid term `" ++ term ++ "`: " ++ cause.message)
  | misplacedVariable n v => atLine n (v.toText ++ " may only appear at the end of a term")
  | duplicateVariable n v => atLine n (v.toText ++ " already has an equation")
  | undefinedVariable n v => atLine n (v.toText ++ " has no equation")
  | notClosed rounds =>
    "no closed solution after " ++ toString rounds ++ " rounds of elimination"

end EquationError

end RegularLanguages
