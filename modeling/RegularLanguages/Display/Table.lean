import RegularLanguages.Automaton.Adjacency
import RegularLanguages.Text.Lines
import RegularLanguages.Text.Width

/-!
# Transition tables

The transition table of an automaton: a row per state and a column per symbol, and one for the
empty word if there are transitions on it. `→` marks the initial state and `*` the final ones.

The table is framed with rounded corners and a rule below the header. Cells are aligned to the
left, every column is as wide as its widest line and every row as high as its highest cell. A
table without rows ends with the rule.
-/

namespace RegularLanguages.Table

/-- The width of a cell, that of its widest line. -/
def cellWidth (lines : List (List Char)) : Nat := (lines.map Text.width).foldl max 0

/-- A line filled with blanks to a width. -/
def padded (width : Nat) (line : List Char) : List Char :=
  line ++ List.replicate (width - Text.width line) ' '

/-- A horizontal line of the frame with its left end, its crossings and its right end. -/
def rule (left cross right : Char) (widths : List Nat) : List Char :=
  left :: [cross].intercalate (widths.map fun w => List.replicate (w + 2) '─') ++ [right]

/-- One line of text of a row. -/
def textLine (widths : List Nat) (cells : List (List Char)) : List Char :=
  let columns := (widths.zip cells).map fun (w, line) => ' ' :: padded w line ++ [' ']
  '│' :: ['│'].intercalate columns ++ ['│']

/-- The lines of text of a row, as many as its highest cell has. -/
def rowLines (widths : List Nat) (row : List (List (List Char))) : List (List Char) :=
  let height := (row.map List.length).foldl max 1
  (List.range height).map fun i => textLine widths (row.map fun lines => lines[i]?.getD [])

/-- The widths of the columns. -/
def columnWidths (rows : List (List (List (List Char)))) : List Nat :=
  match rows with
  | [] => []
  | header :: rows =>
    rows.foldl (fun widths row => (widths.zip row).map fun (w, lines) => max w (cellWidth lines))
      (header.map cellWidth)

/-- The framed table of a header and rows of equally many cells. -/
def frame (header : List String) (rows : List (List String)) : String :=
  let split (row : List String) := row.map fun cell => Text.lines cell.toList
  let widths := columnWidths (split header :: rows.map split)
  let body := rows.flatMap fun row => rowLines widths (split row)
  let bottom := if rows.isEmpty then [] else [rule '╰' '┴' '╯' widths]
  let lines := [rule '╭' '┬' '╮' widths] ++ rowLines widths (split header) ++
    [rule '├' '┼' '┤' widths] ++ body ++ bottom
  String.ofList (['\n'].intercalate lines)

/-- The first cell of the row of a state. -/
def stateCell (A : Automaton) (q : State) : String :=
  (if A.initial = some q then "→" else "") ++ (if A.isFinal q then "*" else "") ++ q.name

/-- The cell for the targets of the transitions on one label. -/
def targetsCell (targets : List State) : String :=
  match targets with
  | [] => "-"
  | [q] => q.name
  | _ => State.listing ", " targets

/-- The transition table of an automaton. -/
def ofAutomaton (A : Automaton) : String :=
  let G := A.adjacency
  let labels := (if A.hasEpsilon then [Label.epsilon] else []) ++
    A.alphabet.toList.map Label.symbol
  frame ("State" :: labels.map Label.toText)
    (A.states.toList.map fun q =>
      stateCell A q :: labels.map fun a => targetsCell (G.targets q a))

end RegularLanguages.Table
