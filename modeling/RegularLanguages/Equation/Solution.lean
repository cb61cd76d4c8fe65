import RegularLanguages.Equation.Basic

/-!
# Solving systems of equations

The variables are eliminated from the last to the first: the equation of a variable is resolved
for itself and put in place of the variable in all other equations. This is repeated until no
right hand side has a variable left, for a limited number of rounds.
-/

namespace RegularLanguages

/-- The languages of the variables in the order of their declaration, each given by an
expression, or by none if it is empty. -/
structure Solution where
  values : List (Variable × Option Regex)
deriving DecidableEq

namespace Solution

/-- The language of a variable, if the variable has an equation. -/
def get? (S : Solution) (v : Variable) : Option (Option Regex) := S.values.lookup v

/-- The languages, one per line. -/
def toText (S : Solution) : String :=
  "\n".intercalate (S.values.map fun (v, r) => v.toText ++ " = " ++ Regex.showLanguage r)

end Solution

namespace EquationSystem

/-- Resolves the equation of a variable for itself and replaces the variable in all other
equations. -/
def eliminate (S : EquationSystem) (v : Variable) : EquationSystem :=
  match S.equations.lookup v with
  | none => S
  | some form =>
    let form := form.resolve v
    ⟨S.equations.map fun (w, other) => (w, if w = v then form else other.substitute v form)⟩

/-- One round of elimination, from the last variable to the first. -/
def round (S : EquationSystem) : EquationSystem := S.unknowns.reverse.foldl eliminate S

/-- Whether no right hand side has a variable left. -/
def isClosed (S : EquationSystem) : Bool := S.equations.all (·.2.isClosed)

/-- The languages given by equations whose right hand sides have no variables. -/
def constants (S : EquationSystem) : Solution :=
  ⟨S.equations.map fun (v, form) => (v, form.constant)⟩

/-- Runs at most `remaining` rounds of the `limit` that are allowed. -/
def solveRounds (limit : Nat) : (remaining : Nat) → EquationSystem → Except EquationError Solution
  | 0, S => if S.isClosed then .ok S.constants else .error (.notClosed limit)
  | remaining + 1, S =>
    if S.isClosed then .ok S.constants else solveRounds limit remaining S.round

/-- The least solution, if elimination reaches it within the given number of rounds. -/
def solveWithin (S : EquationSystem) (rounds : Nat) : Except EquationError Solution :=
  solveRounds rounds rounds S

/-- The number of rounds after which `solve` gives up. -/
def roundLimit : Nat := 64

/-- The least solution. -/
def solve (S : EquationSystem) : Except EquationError Solution := S.solveWithin roundLimit

end EquationSystem

end RegularLanguages
