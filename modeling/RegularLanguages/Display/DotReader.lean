import RegularLanguages.OrderedSet

/-!
# Reading graphs in the DOT language

What a text in the DOT language draws, whoever wrote it. The text is first taken apart into tokens,
character by character, and the tokens are then put together to statements.

A bare identifier and a quoted string with the same text are the same name. A quoted string ends at
the first quote without a backslash in front of it; a backslash in front of a quote or of a
backslash stands for that character, any other backslash for itself.

Directed graphs of nodes and edges with attributes are read, which is the part of the language that
a drawing needs. Numerals, texts in angle brackets, comments, ports, chains of edges, default
attributes and subgraphs are refused.
-/

namespace RegularLanguages.Dot

/-! ## Tokens -/

/-- The tokens of the language. -/
inductive Token
  | name (text : String)
  | keyword (text : String)
  | arrow
  | equals
  | comma
  | semicolon
  | openBrace
  | closeBrace
  | openBracket
  | closeBracket
deriving DecidableEq

/-- Where in the text the reader is. Of a name, what has been read of it is kept in reverse. -/
inductive Mode
  | between
  | word (read : List Char)
  /-- Behind the first character of an arrow. -/
  | dash
  | string (read : List Char)
  /-- Within a string, behind a backslash. -/
  | escape (read : List Char)
deriving DecidableEq

/-- The bare words that are no names, in small letters. -/
def keywords : List String := ["digraph", "graph", "node", "edge", "subgraph", "strict"]

/-- The token of a bare word that has been read in reverse. -/
def ofWord (read : List Char) : Token :=
  let small := String.ofList (read.reverse.map Char.toLower)
  if small ∈ keywords then .keyword small else .name (String.ofList read.reverse)

/-- The characters between tokens. -/
def isSpace (c : Char) : Bool := c = ' ' || c = '\n' || c = '\t' || c = '\r'

/-- The characters that a bare word begins with. -/
def isLetter (c : Char) : Bool := c.isAlpha || c = '_' || 128 ≤ c.toNat

/-- The tokens of one character. -/
def sign? (c : Char) : Option Token :=
  if c = '=' then some .equals
  else if c = ',' then some .comma
  else if c = ';' then some .semicolon
  else if c = '\x7b' then some .openBrace
  else if c = '\x7d' then some .closeBrace
  else if c = '[' then some .openBracket
  else if c = ']' then some .closeBracket
  else none

/-- What a character between tokens is or begins. -/
def begin? (c : Char) : Option (List Token × Mode) :=
  if isSpace c then some ([], .between)
  else if c = '"' then some ([], .string [])
  else if c = '-' then some ([], .dash)
  else if isLetter c then some ([], .word [c])
  else (sign? c).map fun t => ([t], .between)

/-- Reads one character: the tokens that end with it or in front of it. -/
def step : Mode → Char → Option (List Token × Mode)
  | .between, c => begin? c
  | .word read, c =>
    if isLetter c || c.isDigit then some ([], .word (c :: read))
    else (begin? c).map fun (ts, m) => (ofWord read :: ts, m)
  | .dash, c => if c = '>' then some ([.arrow], .between) else none
  | .string read, c =>
    if c = '"' then some ([.name (String.ofList read.reverse)], .between)
    else if c = '\\' then some ([], .escape read)
    else some ([], .string (c :: read))
  | .escape read, c =>
    if c = '"' ∨ c = '\\' then some ([], .string (c :: read))
    else some ([], .string (c :: '\\' :: read))

/-- Reads characters: the tokens that end among them, and where the reader is then. -/
def run (m : Mode) : List Char → Option (List Token × Mode)
  | [] => some ([], m)
  | c :: cs =>
    match step m c with
    | none => none
    | some (ts, m) => (run m cs).map fun (us, m) => (ts ++ us, m)

/-- The tokens up to the end of the text, which is not within a string or an arrow. -/
def finish : List Token × Mode → Option (List Token)
  | (ts, .between) => some ts
  | (ts, .word read) => some (ts ++ [ofWord read])
  | _ => none

/-- The tokens of a text. -/
def tokens (m : Mode) (text : List Char) : Option (List Token) := (run m text).bind finish

/-! ## Statements -/

/-- An attribute with its value. -/
abbrev Attribute := String × String

/-- The statements of a graph. -/
inductive Statement
  /-- An attribute of the graph itself. -/
  | setting (key value : String)
  | node (name : String) (attributes : List Attribute)
  | edge (source target : String) (attributes : List Attribute)
deriving DecidableEq

/-- The statement with one attribute more. -/
def Statement.adding (key value : String) : Statement → Statement
  | .setting k v => .setting k v
  | .node n as => .node n (as ++ [(key, value)])
  | .edge p q as => .edge p q (as ++ [(key, value)])

/-- The statements up to the brace that closes the graph, which must end the text. A statement
whose attributes are being read is given. -/
def statements : Option Statement → List Token → Option (List Statement)
  | none, [.closeBrace] => some []
  | none, .semicolon :: ts => statements none ts
  | none, .name k :: .equals :: .name v :: ts => (statements none ts).map (.setting k v :: ·)
  | none, .name p :: .arrow :: .name q :: .openBracket :: ts => statements (some (.edge p q [])) ts
  | none, .name p :: .arrow :: .name q :: ts => (statements none ts).map (.edge p q [] :: ·)
  | none, .name n :: .openBracket :: ts => statements (some (.node n [])) ts
  | none, .name n :: ts => (statements none ts).map (.node n [] :: ·)
  | some s, .closeBracket :: ts => (statements none ts).map (s :: ·)
  | some s, .name k :: .equals :: .name v :: .comma :: ts => statements (some (s.adding k v)) ts
  | some s, .name k :: .equals :: .name v :: .semicolon :: ts => statements (some (s.adding k v)) ts
  | some s, .name k :: .equals :: .name v :: ts => statements (some (s.adding k v)) ts
  | _, _ => none

/-- The statements of a directed graph, with or without a name. -/
def graph : List Token → Option (List Statement)
  | .keyword "digraph" :: .openBrace :: ts => statements none ts
  | .keyword "digraph" :: .name _ :: .openBrace :: ts => statements none ts
  | _ => none

/-- Reads the text of a graph. -/
def read (text : String) : Option (List Statement) := (tokens .between text.toList).bind graph

/-! ## What is drawn -/

/-- The names of nodes in a statement. -/
def Statement.names : Statement → List String
  | .setting _ _ => []
  | .node n _ => [n]
  | .edge p q _ => [p, q]

/-- The nodes of a graph: every name stands for one node, however often it is mentioned. -/
def nodes (ss : List Statement) : OrderedSet String := .ofList (ss.flatMap Statement.names)

/-- The attributes of a node, from all statements about it. -/
def attributesOf (ss : List Statement) (n : String) : List Attribute :=
  ss.flatMap fun
    | .node n' as => if n' = n then as else []
    | _ => []

/-- The edges from one node to another, each with its attributes. -/
def edgesBetween (ss : List Statement) (p q : String) : List (List Attribute) :=
  ss.flatMap fun
    | .edge p' q' as => if p' = p ∧ q' = q then [as] else []
    | _ => []

end RegularLanguages.Dot
