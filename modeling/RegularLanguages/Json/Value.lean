import RegularLanguages.Json.Number

/-!
# JSON values that are not looked at

Values of fields that a record does not have are skipped whatever they are, and a value that
stands where another shape is needed is read far enough to tell whether it is JSON at all.
Skipping keeps the open brackets in a list, so values may be nested to any depth.
-/

namespace RegularLanguages.Json

/-- Whether a character separates the tokens of JSON. -/
def isSpace (c : Char) : Bool := c = ' ' || c = '\n' || c = '\t' || c = '\r'

/-- A text without the space at its start. -/
def skipSpace (cs : List Char) : List Char := cs.dropWhile isSpace

/-- Reads the rest of a literal name. -/
def readLiteral : (expected : List Char) → List Char → Except Fault (List Char)
  | [], rest => .ok rest
  | _ :: _, [] => .error .truncated
  | e :: expected, c :: rest => if c = e then readLiteral expected rest else .error .malformed

/-- Skips a value that is not a list or an object. A number that the text ends in is malformed
here. -/
def skipScalar : List Char → Except Fault (List Char)
  | [] => .error .truncated
  | 'n' :: rest => readLiteral ['u', 'l', 'l'] rest
  | 't' :: rest => readLiteral ['r', 'u', 'e'] rest
  | 'f' :: rest => readLiteral ['a', 'l', 's', 'e'] rest
  | '"' :: rest => skipString (rest.length + 1) rest
  | rest => (readNumber .malformed rest).map (·.2)

/-- What is wrong when the text of a value starts where a value of another kind is needed: it is
of the wrong shape, unless it is a number that is too great, a string that cannot be decoded or
no value at all. Here a number that the text ends in is truncated. -/
def misplaced : List Char → Fault
  | [] => .truncated
  | '[' :: _ => .misshapen
  | '\x7b' :: _ => .misshapen
  | 'n' :: rest => ofResult (readLiteral ['u', 'l', 'l'] rest)
  | 't' :: rest => ofResult (readLiteral ['r', 'u', 'e'] rest)
  | 'f' :: rest => ofResult (readLiteral ['a', 'l', 's', 'e'] rest)
  | '"' :: rest => ofResult (decode rest)
  | rest =>
    match readNumber .truncated rest with
    | .ok (x, _) => if x.isTooGreat then .malformed else .misshapen
    | .error fault => fault
where
  ofResult {α : Type} : Except Fault α → Fault
    | .ok _ => .misshapen
    | .error fault => fault

/-- The kinds of brackets. -/
inductive Bracket
  | list
  | object
deriving DecidableEq

/-- The character that closes a bracket. -/
def Bracket.close : Bracket → Char
  | list => ']'
  | object => '\x7d'

/-- Skips the colon behind a key. -/
def skipColon (cs : List Char) : Except Fault (List Char) :=
  match skipSpace cs with
  | [] => .error .truncated
  | ':' :: rest => .ok rest
  | _ => .error .malformed

/-- Skips what comes in front of the value of an entry: a key and a colon in an object. -/
def skipKey : Bracket → List Char → Except Fault (List Char)
  | .list, cs => .ok cs
  | .object, cs =>
    match skipSpace cs with
    | [] => .error .truncated
    | '"' :: rest => do skipColon (← skipString (rest.length + 1) rest)
    | _ => .error .malformed

/-- Where skipping is: in front of a value, behind an opening bracket, or behind a value. -/
inductive Place
  | before
  | opened
  | behind

/-- Skips values until all open brackets are closed. -/
def skipValues : (fuel : Nat) → List Bracket → Place → List Char → Except Fault (List Char)
  | 0, _, _, _ => .error .truncated
  | _ + 1, [], .behind, cs => .ok cs
  | fuel + 1, enclosing, .before, cs =>
    match skipSpace cs with
    | '[' :: rest => skipValues fuel (.list :: enclosing) .opened rest
    | '\x7b' :: rest => skipValues fuel (.object :: enclosing) .opened rest
    | rest => do skipValues fuel enclosing .behind (← skipScalar rest)
  | fuel + 1, enclosing, .opened, cs =>
    match enclosing, skipSpace cs with
    | _, [] => .error .truncated
    | [], _ => .error .malformed
    | bracket :: outer, c :: rest =>
      if c = bracket.close then skipValues fuel outer .behind rest
      else do skipValues fuel enclosing .before (← skipKey bracket (c :: rest))
  | fuel + 1, bracket :: outer, .behind, cs =>
    match skipSpace cs with
    | [] => .error .truncated
    | c :: rest =>
      if c = bracket.close then skipValues fuel outer .behind rest
      else if c = ',' then do
        skipValues fuel (bracket :: outer) .before (← skipKey bracket rest)
      else .error .malformed

/-- Skips one value. -/
def skipValue (cs : List Char) : Except Fault (List Char) :=
  skipValues (2 * cs.length + 2) [] .before cs

end RegularLanguages.Json
