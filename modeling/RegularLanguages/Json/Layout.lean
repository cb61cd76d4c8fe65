import RegularLanguages.Json.Quoted

/-!
# Layout of lists and objects

Lists and objects are written over several lines, every entry on a line of its own that is
indented by two spaces more than the brackets. Without entries the brackets stand together.
-/

namespace RegularLanguages.Json

/-- A line break followed by the indentation of the given depth. -/
def lineBreak (depth : Nat) : List Char := '\n' :: List.replicate (2 * depth) ' '

/-- Entries between brackets at the given depth. The entries are written at the next depth. -/
def block (opening closing : Char) (depth : Nat) (entries : List (List Char)) : List Char :=
  match entries with
  | [] => [opening, closing]
  | entry :: entries =>
    opening :: (lineBreak (depth + 1) ++ entry ++
      (entries.flatMap fun entry => ',' :: lineBreak (depth + 1) ++ entry) ++
      lineBreak depth ++ [closing])

/-- A list of strings. -/
def strings (depth : Nat) (texts : List String) : List Char :=
  block '[' ']' depth (texts.map fun text => encode text.toList)

/-- An object whose values are already written. -/
def object (depth : Nat) (fields : List (String × List Char)) : List Char :=
  block '\x7b' '\x7d' depth (fields.map fun (key, value) =>
    encode key.toList ++ ':' :: ' ' :: value)

end RegularLanguages.Json
