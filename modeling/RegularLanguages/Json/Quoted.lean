/-!
# Quoted strings

JSON strings. `encode` writes a text in quotes and escapes quotes, backslashes and control
characters, everything else stands for itself. `decode` reads the rest of a string behind its
opening quote. It also knows the escapes that `encode` has no use for, such as `\/` and `\u0041`;
characters beyond U+FFFF may be escaped by a pair of surrogates, a surrogate alone is refused.

Reading distinguishes three kinds of faults. It goes from left to right and reports the first.
-/

namespace RegularLanguages.Json

/-- What can be wrong with a text that should be the JSON of some shape. -/
inductive Fault
  /-- The text is not JSON. -/
  | malformed
  /-- The text is JSON so far, but of another shape. -/
  | misshapen
  /-- The text ends too early. -/
  | truncated
deriving DecidableEq

/-- The hexadecimal digit of a number below 16. -/
def hexDigit (n : Nat) : Char := Nat.digitChar n

/-- The value of a hexadecimal digit of either case. -/
def hexValue? (c : Char) : Option Nat :=
  if c.isDigit then some (c.toNat - '0'.toNat)
  else if 'a' ≤ c ∧ c ≤ 'f' then some (c.toNat - 'a'.toNat + 10)
  else if 'A' ≤ c ∧ c ≤ 'F' then some (c.toNat - 'A'.toNat + 10)
  else none

/-- Whether a character may not stand in a string as it is. -/
def isControl (c : Char) : Bool := c.toNat < 0x20

/-- The letters of the short escapes and what they stand for. -/
def shortEscapes : List (Char × Char) :=
  [('"', '"'), ('\\', '\\'), ('/', '/'), ('b', '\x08'), ('f', '\x0c'), ('n', '\n'), ('r', '\r'),
    ('t', '\t')]

/-- The characters that write one character of a string. -/
def escape (c : Char) : List Char :=
  if c = '"' then ['\\', '"']
  else if c = '\\' then ['\\', '\\']
  else if c = '\x08' then ['\\', 'b']
  else if c = '\x0c' then ['\\', 'f']
  else if c = '\n' then ['\\', 'n']
  else if c = '\r' then ['\\', 'r']
  else if c = '\t' then ['\\', 't']
  else if isControl c then
    ['\\', 'u', '0', '0', hexDigit (c.toNat / 16), hexDigit (c.toNat % 16)]
  else [c]

/-- A text in quotes. -/
def encode (text : List Char) : List Char := '"' :: text.flatMap escape ++ ['"']

/-- Reads the four digits of an escape. If fewer than four bytes are left the text ends too
early. -/
def readUnit : List Char → Except Fault (Nat × List Char)
  | a :: b :: c :: d :: rest =>
    match hexValue? a, hexValue? b, hexValue? c, hexValue? d with
    | some a, some b, some c, some d => .ok (((a * 16 + b) * 16 + c) * 16 + d, rest)
    | _, _, _, _ => .error .malformed
  | rest => .error (if (String.ofList rest).utf8ByteSize < 4 then .truncated else .malformed)

/-- Whether a number is the first half of a pair of surrogates. -/
def isLeading (n : Nat) : Bool := 0xD800 ≤ n && n ≤ 0xDBFF

/-- Whether a number is the second half of a pair of surrogates. -/
def isTrailing (n : Nat) : Bool := 0xDC00 ≤ n && n ≤ 0xDFFF

/-- Reads the character that an escape with digits stands for, behind `\u`. -/
def readCodePoint (cs : List Char) : Except Fault (Char × List Char) := do
  let (n, rest) ← readUnit cs
  if isTrailing n then
    throw .malformed
  if !isLeading n then
    return (Char.ofNat n, rest)
  match rest with
  | [] => throw .truncated
  | '\\' :: [] => throw .truncated
  | '\\' :: 'u' :: rest =>
    let (m, rest) ← readUnit rest
    if !isTrailing m then
      throw .malformed
    return (Char.ofNat (0x10000 + (n - 0xD800) * 0x400 + (m - 0xDC00)), rest)
  | _ => throw .malformed

/-- Reads an escape behind its backslash. -/
def readEscape : List Char → Except Fault (Char × List Char)
  | [] => .error .truncated
  | 'u' :: rest => readCodePoint rest
  | c :: rest =>
    match shortEscapes.lookup c with
    | some d => .ok (d, rest)
    | none => .error .malformed

/-- Reads a string behind its opening quote with at most `fuel` characters, and returns what is
left behind the closing quote. -/
def decodeWith : (fuel : Nat) → List Char → Except Fault (List Char × List Char)
  | 0, _ => .error .truncated
  | _ + 1, [] => .error .truncated
  | _ + 1, '"' :: rest => .ok ([], rest)
  | fuel + 1, '\\' :: rest => do
    let (c, rest) ← readEscape rest
    let (cs, rest) ← decodeWith fuel rest
    return (c :: cs, rest)
  | fuel + 1, c :: rest =>
    if isControl c then .error .malformed
    else do
      let (cs, rest) ← decodeWith fuel rest
      return (c :: cs, rest)

/-- Reads a string behind its opening quote. -/
def decode (cs : List Char) : Except Fault (List Char × List Char) := decodeWith (cs.length + 1) cs

/-- Skips a string behind its opening quote. Surrogates that stand alone are of no concern. -/
def skipString : (fuel : Nat) → List Char → Except Fault (List Char)
  | 0, _ => .error .truncated
  | _ + 1, [] => .error .truncated
  | _ + 1, '"' :: rest => .ok rest
  | _ + 1, '\\' :: [] => .error .truncated
  | fuel + 1, '\\' :: 'u' :: rest => do
    let (_, rest) ← readUnit rest
    skipString fuel rest
  | fuel + 1, '\\' :: c :: rest =>
    if (shortEscapes.lookup c).isSome then skipString fuel rest else .error .malformed
  | fuel + 1, c :: rest => if isControl c then .error .malformed else skipString fuel rest

end RegularLanguages.Json
