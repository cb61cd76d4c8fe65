import RegularLanguages.Automaton.Boolean
import RegularLanguages.Automaton.Canonical
import RegularLanguages.Automaton.Elimination
import RegularLanguages.Automaton.Rational
import RegularLanguages.CommandLine.Arguments
import RegularLanguages.CommandLine.Directory
import RegularLanguages.Display.Dot
import RegularLanguages.Display.Table
import RegularLanguages.Equation.Parser
import RegularLanguages.Equation.Solution
import RegularLanguages.Record.Text
import RegularLanguages.Regex.Positions
import RegularLanguages.Regex.Printer
import RegularLanguages.Regex.Thompson

/-!
# Running a command

What a command prints, given the inputs that it reads. There is no program here that draws graphs,
so with the `png` format a command fails as it does where this program is not installed.
-/

namespace RegularLanguages.CommandLine

/-- The inputs of a command. -/
structure Inputs where
  stdin : String
  file : String → Except ReadingError String

/-- Why a command fails. -/
inductive Failure
  | unreadable (error : ReadingError)
  | record (error : RecordError)
  | expression (error : RegexError)
  | equations (error : EquationError)
  | missingOutput
  | notDrawn

/-- The wording of a failure. What is wrong with a text that is no record is not told. -/
def Failure.message : Failure → String
  | unreadable error => "could not read input: " ++ error.message
  | record (.notRecord _) => "malformed automaton record:"
  | record (.notAutomaton error) => error.message
  | expression error => "malformed expression: " ++ error.message
  | equations error => "malformed equation system: " ++ error.message
  | missingOutput => "the png format needs an --output file"
  | notDrawn => "could not render image: No such file or directory (os error 2)"

/-- The text of an input. -/
def Inputs.read (inputs : Inputs) : Option String → Except Failure String
  | none => .ok inputs.stdin
  | some name => (inputs.file name).mapError .unreadable

/-- The automaton of an input. -/
def Inputs.automaton (inputs : Inputs) (name : Option String) : Except Failure Automaton := do
  (Automaton.ofJson (← inputs.read name)).mapError .record

/-- Writes an automaton in a format. -/
def write (A : Automaton) (output : Option String) : Format → Except Failure String
  | .json => .ok A.toJson
  | .table => .ok (Table.ofAutomaton A)
  | .dot => .ok (Dot.ofAutomaton A)
  | .png => .error (if output.isSome then .notDrawn else .missingOutput)

/-- The construction of a given name. -/
def Construction.apply : Construction → Regex → Automaton
  | thompson => Regex.thompson
  | positions => Regex.glushkov

/-- The operation of a given name. -/
def Transformation.apply : Transformation → Automaton → Automaton
  | determinize => Automaton.determinize
  | complete => Automaton.complete
  | prune => Automaton.prune
  | minimize => Automaton.minimize
  | canonicalize => Automaton.canonicalize
  | removeEpsilon => Automaton.removeEpsilon
  | addEpsilon => Automaton.addEpsilon
  | complement => Automaton.complement
  | star => Automaton.star

/-- The binary operation of a given name. -/
def Combination.apply : Combination → Automaton → Automaton → Automaton
  | union => Automaton.union
  | concatenate => Automaton.concatenate
  | intersection => Automaton.intersection

/-- The structural properties of an automaton, one per line. -/
def analysis (A : Automaton) : String :=
  "\n".intercalate (
    ["states: " ++ toString A.size,
      "deterministic: " ++ toString A.isDeterministic,
      "complete: " ++ toString A.isComplete,
      "epsilon transitions: " ++ toString A.hasEpsilon,
      "pruned: " ++ toString A.isPruned,
      "minimal: " ++ toString A.isMinimal,
      "canonical: " ++ toString A.isCanonical,
      "empty language: " ++ toString A.isEmptyLanguage,
      "accessible: " ++ State.showSet A.accessible,
      "useful: " ++ State.showSet A.useful,
      "epsilon closures:"] ++
    A.epsilonClosures.map fun (q, closed) => "  " ++ q.name ++ ": " ++ State.showSet closed)

/-- The files that a command reads. -/
def Command.files : Command → List String
  | construct _ _ => []
  | transform _ input => input.toList
  | combine _ left right => [left, right]
  | toRegex input => input.toList
  | analyze input => input.toList
  | solve input => input.toList

/-- Whether a command reads standard input. -/
def Command.readsStdin : Command → Bool
  | construct _ _ => false
  | combine _ _ _ => false
  | command => command.files.isEmpty

/-- Carries out a request and returns what is printed. -/
def run (request : Request) (inputs : Inputs) : Except Failure String := do
  match request.command with
  | .construct construction text =>
    let r ← (Regex.parse text).mapError .expression
    write (construction.apply r) request.output request.format
  | .transform transformation input =>
    let A ← inputs.automaton input
    write (transformation.apply A) request.output request.format
  | .combine combination left right =>
    let A ← inputs.automaton (some left)
    let B ← inputs.automaton (some right)
    write (combination.apply A B) request.output request.format
  | .toRegex input => return Regex.showLanguage (← inputs.automaton input).toRegex
  | .analyze input => return analysis (← inputs.automaton input)
  | .solve input =>
    let S ← (EquationSystem.parse (← inputs.read input)).mapError .equations
    return (← S.solve.mapError .equations).toText

end RegularLanguages.CommandLine
