/-!
# Lines of a text

The lines of a text are the parts between its line breaks. There is one line more than there are
line breaks, so the empty text has one empty line.
-/

namespace RegularLanguages.Text

/-- The lines of a text. -/
def lines : List Char → List (List Char)
  | [] => [[]]
  | c :: cs =>
    if c = '\n' then [] :: lines cs
    else
      match lines cs with
      | [] => [[c]]
      | line :: rest => (c :: line) :: rest

end RegularLanguages.Text
