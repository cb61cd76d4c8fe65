/-!
# Arguments

The command line is a subcommand with its operands, and options that may stand before or behind
it. An option with a value is given as `--format dot`, `--format=dot`, `-f dot`, `-fdot` or
`-f=dot`; short options may share a dash; `--` ends the options. An option may be given once
before and once behind the subcommand, the latter counts.

Arguments that do not follow these rules have no meaning; which rule they break does not matter.
-/

namespace RegularLanguages.CommandLine

/-- How an automaton is written. -/
inductive Format
  | json
  | table
  | dot
  | png
deriving DecidableEq

/-- The format of a given name. -/
def Format.ofName? : String → Option Format
  | "json" => some json
  | "table" => some table
  | "dot" => some dot
  | "png" => some png
  | _ => none

/-- The constructions that make an automaton of an expression. -/
inductive Construction
  | thompson
  | positions
deriving DecidableEq

/-- The operations that make an automaton of one automaton. -/
inductive Transformation
  | determinize
  | complete
  | prune
  | minimize
  | canonicalize
  | removeEpsilon
  | addEpsilon
  | complement
  | star
deriving DecidableEq

/-- The operations that make an automaton of two. -/
inductive Combination
  | union
  | concatenate
  | intersection
deriving DecidableEq

/-- What to do, and where the input is: in a file of the given name, or on standard input if
there is no name. -/
inductive Command
  | construct (construction : Construction) (expression : String)
  | transform (transformation : Transformation) (input : Option String)
  | combine (combination : Combination) (left right : String)
  | toRegex (input : Option String)
  | analyze (input : Option String)
  | solve (input : Option String)
deriving DecidableEq

/-- What the command line asks for. -/
structure Request where
  command : Command
  format : Format
  output : Option String
deriving DecidableEq

/-- The options that take a value in the next argument. -/
inductive Valued
  | format
  | output
deriving DecidableEq

/-- The options given on one side of the subcommand. -/
structure Options where
  verbosity : Bool
  format : Option Format
  output : Option String

namespace Options

/-- No options. -/
def none : Options := ⟨false, .none, .none⟩

/-- Takes note of the verbosity, which is one of three levels if it is given. -/
def setVerbosity (options : Options) (level : Option String) : Option Options :=
  if options.verbosity ∨ level.any (· ∉ ["info", "debug", "trace"]) then .none
  else some { options with verbosity := true }

/-- Takes note of an option with its value. -/
def setValue (options : Options) (value : String) : Valued → Option Options
  | .format =>
    match options.format, Format.ofName? value with
    | .none, some format => some { options with format := some format }
    | _, _ => .none
  | .output => if options.output.isSome then .none else some { options with output := some value }

end Options

/-- The options after an argument, and the option that waits for a value in the next one. -/
abbrev Progress := Options × Option Valued

/-- Takes note of an option whose value, if any, stands behind its name in the same argument. -/
def withValue (options : Options) (option : Valued) (value : Option String) : Option Progress :=
  match value with
  | some value => (options.setValue value option).map (·, none)
  | none => some (options, some option)

/-- Reads the short options that share a dash. -/
def readShort (options : Options) : List Char → Option Progress
  | [] => some (options, none)
  | 'v' :: '=' :: level => (options.setVerbosity (some (String.ofList level))).map (·, none)
  | 'v' :: rest =>
    match options.setVerbosity none with
    | some options => readShort options rest
    | none => none
  | c :: rest =>
    let value := match rest with
      | [] => none
      | '=' :: value => some (String.ofList value)
      | value => some (String.ofList value)
    match c with
    | 'f' => withValue options .format value
    | 'o' => withValue options .output value
    | _ => none

/-- Reads a long option, given without its dashes. -/
def readLong (options : Options) (cs : List Char) : Option Progress :=
  let name := String.ofList (cs.takeWhile (· ≠ '='))
  let value := if '=' ∈ cs then some (String.ofList ((cs.dropWhile (· ≠ '=')).drop 1)) else none
  match name with
  | "verbosity" => (options.setVerbosity value).map (·, none)
  | "format" => withValue options .format value
  | "output" => withValue options .output value
  | _ => none

/-- What is found on one side of the subcommand: the options, the operands, and the subcommand
with the arguments behind it, if there is one. -/
structure Side where
  options : Options
  operands : List String
  subcommand : Option (String × List String)

/-- Reads operands. -/
def operandsOnly (options : Options) (args : List String) : Side := ⟨options, args, none⟩

/-- Reads arguments up to a subcommand. -/
def readSide (isSubcommand : String → Bool) : Progress → List String → Option Side
  | (_, some _), [] => none
  | (options, none), [] => some ⟨options, [], none⟩
  | (options, pending), arg :: args =>
    if pending.isNone && isSubcommand arg then some ⟨options, [], some (arg, args)⟩
    else
      match arg.toList with
      | ['-', '-'] => if pending.isSome then none else some (operandsOnly options args)
      | '-' :: '-' :: name =>
        if pending.isSome then none
        else
          match readLong options name with
          | some progress => readSide isSubcommand progress args
          | none => none
      | '-' :: c :: names =>
        if pending.isSome then none
        else
          match readShort options (c :: names) with
          | some progress => readSide isSubcommand progress args
          | none => none
      | _ =>
        match pending with
        | some option =>
          match options.setValue arg option with
          | some options => readSide isSubcommand (options, none) args
          | none => none
        | none =>
          (readSide isSubcommand (options, none) args).map fun side =>
            { side with operands := arg :: side.operands }

/-- What a subcommand needs: the constructor of its command and the number of operands. -/
inductive Shape
  | text (command : String → Command)
  | input (command : Option String → Command)
  | pair (command : String → String → Command)

/-- The command with the given operands, if it takes that many. -/
def Shape.apply : Shape → List String → Option Command
  | text command, [x] => some (command x)
  | input command, [] => some (command none)
  | input command, [x] => some (command (some x))
  | pair command, [x, y] => some (command x y)
  | _, _ => none

/-- The subcommands by their names. -/
def subcommands : List (String × Shape) :=
  [("thompson", .text (.construct .thompson)),
    ("glushkov", .text (.construct .positions)),
    ("determinize", .input (.transform .determinize)),
    ("complete", .input (.transform .complete)),
    ("prune", .input (.transform .prune)),
    ("minimize", .input (.transform .minimize)),
    ("canonical", .input (.transform .canonicalize)),
    ("remove-epsilon", .input (.transform .removeEpsilon)),
    ("add-epsilon", .input (.transform .addEpsilon)),
    ("complement", .input (.transform .complement)),
    ("star", .input (.transform .star)),
    ("to-regex", .input .toRegex),
    ("analyze", .input .analyze),
    ("union", .pair (.combine .union)),
    ("concat", .pair (.combine .concatenate)),
    ("intersection", .pair (.combine .intersection)),
    ("solve", .input .solve)]

/-- What the arguments ask for, if they have a meaning. -/
def parse (args : List String) : Option Request := do
  let before ← readSide (fun arg => (subcommands.lookup arg).isSome) (.none, none) args
  let (name, rest) ← before.subcommand
  if !before.operands.isEmpty then
    none
  let shape ← subcommands.lookup name
  let behind ← readSide (fun _ => false) (.none, none) rest
  let command ← shape.apply behind.operands
  return {
    command
    format := (behind.options.format <|> before.options.format).getD .json
    output := behind.options.output <|> before.options.output }

end RegularLanguages.CommandLine
