import RegularLanguages.Json.Value

/-!
# Reading strings, lists and objects

Readers for JSON of a known shape. A reader takes a text and returns what it reads and the text
behind it. Each reports the first fault in the text.
-/

namespace RegularLanguages.Json

/-- Reads a string. -/
def readString (cs : List Char) : Except Fault (String × List Char) :=
  match skipSpace cs with
  | '"' :: rest => do
    let (text, rest) ← decode rest
    return (String.ofList text, rest)
  | rest => .error (misplaced rest)

/-- The text in front of the next element of a list, if there is one: behind a comma, unless it
is the first. -/
def nextElement (first : Bool) (cs : List Char) : Except Fault (Option (List Char)) :=
  match skipSpace cs with
  | [] => .error .truncated
  | ']' :: _ => .ok none
  | c :: rest =>
    if first then .ok (some (c :: rest))
    else if c = ',' then
      match skipSpace rest with
      | [] => .error .truncated
      | ']' :: _ => .error .malformed
      | rest => .ok (some rest)
    else .error .malformed

/-- Reads the closing bracket of a list behind its last element. -/
def closeList (cs : List Char) : Except Fault (List Char) :=
  match skipSpace cs with
  | [] => .error .truncated
  | ']' :: rest => .ok rest
  | _ => .error .malformed

/-- Reads the elements of a list with at most `fuel` elements and its closing bracket. -/
def readElements {α : Type} (read : List Char → Except Fault (α × List Char)) :
    (fuel : Nat) → (first : Bool) → List Char → Except Fault (List α × List Char)
  | 0, _, _ => .error .truncated
  | fuel + 1, first, cs => do
    match ← nextElement first cs with
    | none => return ([], ← closeList cs)
    | some rest =>
      let (x, rest) ← read rest
      let (xs, rest) ← readElements read fuel false rest
      return (x :: xs, rest)

/-- Reads a list. -/
def readList {α : Type} (read : List Char → Except Fault (α × List Char)) (cs : List Char) :
    Except Fault (List α × List Char) :=
  match skipSpace cs with
  | '[' :: rest => readElements read (rest.length + 1) true rest
  | rest => .error (misplaced rest)

/-- Reads the key of an entry of an object, behind a comma unless it is the first, or finds the
object closed. -/
def nextKey (first : Bool) (cs : List Char) : Except Fault (Option String × List Char) :=
  let key (cs : List Char) : Except Fault (Option String × List Char) :=
    match skipSpace cs with
    | [] => .error .truncated
    | '"' :: rest => do
      let (text, rest) ← decode rest
      return (some (String.ofList text), rest)
    | _ => .error .malformed
  match skipSpace cs with
  | [] => .error .truncated
  | '\x7d' :: rest => .ok (none, rest)
  | c :: rest =>
    if first then key (c :: rest) else if c = ',' then key rest else .error .malformed

/-- Reads the entries of an object with at most `fuel` entries and its closing bracket. What to
do with an entry is decided when its key is known; the text is then in front of the colon. -/
def readEntries {σ : Type} (entry : σ → String → List Char → Except Fault (σ × List Char)) :
    (fuel : Nat) → (first : Bool) → σ → List Char → Except Fault (σ × List Char)
  | 0, _, _, _ => .error .truncated
  | fuel + 1, first, s, cs => do
    match ← nextKey first cs with
    | (none, rest) => return (s, rest)
    | (some key, rest) =>
      let (s, rest) ← entry s key rest
      readEntries entry fuel false s rest

/-- Reads an object. -/
def readObject {σ : Type} (entry : σ → String → List Char → Except Fault (σ × List Char))
    (s : σ) (cs : List Char) : Except Fault (σ × List Char) :=
  match skipSpace cs with
  | '\x7b' :: rest => readEntries entry (rest.length + 1) true s rest
  | rest => .error (misplaced rest)

end RegularLanguages.Json
