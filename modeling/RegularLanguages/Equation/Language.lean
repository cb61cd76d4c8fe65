import RegularLanguages.Equation.Solution
import RegularLanguages.Regex.Language

/-!
# The meaning of a system of equations

An assignment gives every variable a language. It solves a system if the language of each
variable consists of the words that the right hand side of its equation gives, and it is the
least solution if every other solution gives each variable at least the same words.
-/

namespace RegularLanguages

/-- A language for every variable. -/
abbrev Assignment := Variable → Language

/-- The words of a right hand side: a word of a coefficient followed by one of its variable, or
a word of the constant part. -/
def LinearForm.language (form : LinearForm) (L : Assignment) : Language := fun w =>
  (∃ v c, (v, c) ∈ form.coefficients ∧ ∃ u t, c.Matches u ∧ L v t ∧ u ++ t = w) ∨
    Regex.languageOf form.constant w

/-- The assignment satisfies all equations. -/
def EquationSystem.IsSolution (S : EquationSystem) (L : Assignment) : Prop :=
  ∀ v form, (v, form) ∈ S.equations → ∀ w, L v w ↔ form.language L w

/-- The assignment is the least one that satisfies all equations. -/
def EquationSystem.IsLeastSolution (S : EquationSystem) (L : Assignment) : Prop :=
  S.IsSolution L ∧ ∀ M, S.IsSolution M → ∀ v ∈ S.unknowns, ∀ w, L v w → M v w

/-- The assignment that a solution describes. -/
def Solution.assignment (T : Solution) : Assignment := fun v w =>
  ∃ r, T.get? v = some r ∧ Regex.languageOf r w

end RegularLanguages
