import RegularLanguages.Automaton.Blueprint
import RegularLanguages.Automaton.Boolean
import RegularLanguages.Automaton.Canonical
import RegularLanguages.Automaton.Elimination
import RegularLanguages.Automaton.Path
import RegularLanguages.Automaton.Rational
import RegularLanguages.Display.DotReader
import RegularLanguages.Duration
import RegularLanguages.Equation.Language
import RegularLanguages.Equation.Parser
import RegularLanguages.Main
import RegularLanguages.Odometer
import RegularLanguages.Random.Sample
import RegularLanguages.Regex.Grammar
import RegularLanguages.Regex.Positions
import RegularLanguages.Regex.Thompson
import RegularLanguages.Proofs.Automaton.Acceptance
import RegularLanguages.Proofs.FreshNames
import RegularLanguages.Proofs.Automaton.Deterministic
import RegularLanguages.Proofs.Automaton.Unfolding
import RegularLanguages.Proofs.Automaton.Determinization
import RegularLanguages.Proofs.Automaton.Completion
import RegularLanguages.Proofs.Automaton.Reachability
import RegularLanguages.Proofs.Refinement
import RegularLanguages.Proofs.Automaton.Merging
import RegularLanguages.Proofs.Automaton.Minimization
import RegularLanguages.Proofs.Automaton.Numbering
import RegularLanguages.Proofs.Automaton.Canonical
import RegularLanguages.Proofs.Equation.LinearForm
import RegularLanguages.Proofs.Equation.Parsing
import RegularLanguages.Proofs.Equation.Elimination
import RegularLanguages.Proofs.Equation.Solving
import RegularLanguages.Proofs.Automaton.Editing
import RegularLanguages.Proofs.Automaton.Elimination
import RegularLanguages.Proofs.Automaton.Subsets
import RegularLanguages.Proofs.Automaton.Equivalence
import RegularLanguages.Proofs.Regex.Thompson
import RegularLanguages.Proofs.Regex.Positions
import RegularLanguages.Proofs.Regex.Parsing
import RegularLanguages.Proofs.Automaton.Expressions
import RegularLanguages.Proofs.Regex.Derivation
import RegularLanguages.Proofs.Regex.Grammar
import RegularLanguages.Automaton.Stored
import RegularLanguages.Proofs.Regex.Association
import RegularLanguages.Proofs.Automaton.TransitionMap
import RegularLanguages.Proofs.Automaton.Stored
import RegularLanguages.Proofs.Automaton.Boolean
import RegularLanguages.Proofs.Automaton.Rational
import RegularLanguages.Automaton.Construction
import RegularLanguages.Record.Meaning
import RegularLanguages.Proofs.Automaton.Construction
import RegularLanguages.Proofs.Record.Conversion
import RegularLanguages.Proofs.Json.Quoted
import RegularLanguages.Proofs.Record.Keys
import RegularLanguages.Proofs.Json.Layout
import RegularLanguages.Proofs.Record.Text
import RegularLanguages.Proofs.Record.Exchange
import RegularLanguages.Regex.Stored
import RegularLanguages.Proofs.Record.Expressions
import RegularLanguages.Proofs.Automaton.Nerode
import RegularLanguages.Proofs.Automaton.Minimality
import RegularLanguages.Proofs.Text.Lines
import RegularLanguages.Proofs.Regex.Characters
import RegularLanguages.Proofs.Equation.Terms
import RegularLanguages.Proofs.Equation.Display
import RegularLanguages.Proofs.Regex.Parentheses
import RegularLanguages.Proofs.Regex.Faults
import RegularLanguages.Proofs.Automaton.Trails
import RegularLanguages.Proofs.Automaton.Products
import RegularLanguages.Proofs.Automaton.Complements
import RegularLanguages.Proofs.Automaton.Sums
import RegularLanguages.Proofs.Automaton.Repetitions
import RegularLanguages.Proofs.Automaton.Pruning
import RegularLanguages.Proofs.Regex.Constructors
import RegularLanguages.Proofs.Automaton.Blueprint
import RegularLanguages.Proofs.Record.SeveralInitial
import RegularLanguages.Proofs.Equation.Operands
import RegularLanguages.Proofs.Equation.WithoutVariables
import RegularLanguages.Proofs.Partition
import RegularLanguages.Proofs.Odometer.Rank
import RegularLanguages.Proofs.Odometer.Enumeration
import RegularLanguages.Proofs.Display.DotReader
import RegularLanguages.Proofs.Display.DotLines
import RegularLanguages.Proofs.Display.Dot
