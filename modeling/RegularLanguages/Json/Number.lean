import RegularLanguages.Json.Quoted

/-!
# Numbers

JSON numbers. No record has a number in it, so a number is read to know where it ends, and to
tell apart a value of the wrong shape from one that no reader could take: a number beyond the
range of double precision.

That range is tested on what a number comes to when at most 64 bits of its digits are kept and
the two factors, the digits kept and the power of ten, are rounded to 53 bits on their own before
they are multiplied. Close to the end of the range this is not the same as rounding the number.
-/

namespace RegularLanguages.Json

/-- A number as it is written, without its sign. -/
structure Numeral where
  whole : List Char
  decimals : List Char
  exponent : Int

/-- Reads digits, of which there must be at least one. `atEnd` is the fault of a text that ends
in front of the first. -/
def readDigits (atEnd : Fault) (cs : List Char) : Except Fault (List Char × List Char) :=
  match cs.span Char.isDigit with
  | ([], []) => .error atEnd
  | ([], _) => .error .malformed
  | (digits, rest) => .ok (digits, rest)

/-- Reads the exponent of a number, if there is one. -/
def readExponent (atEnd : Fault) : List Char → Except Fault (Int × List Char)
  | c :: rest =>
    if c = 'e' ∨ c = 'E' then do
      let (negative, rest) := match rest with
        | '+' :: rest => (false, rest)
        | '-' :: rest => (true, rest)
        | rest => (false, rest)
      let (digits, rest) ← readDigits atEnd rest
      let n : Int := Nat.ofDigitChars 10 digits 0
      return (if negative then -n else n, rest)
    else .ok (0, c :: rest)
  | [] => .ok (0, [])

/-- Reads the decimals of a number, if there are any. -/
def readDecimals (atEnd : Fault) : List Char → Except Fault (List Char × List Char)
  | '.' :: rest => readDigits atEnd rest
  | rest => .ok ([], rest)

/-- Reads a number behind its sign. Its first digit is zero only if the whole part is zero. -/
def readUnsigned (atEnd : Fault) (cs : List Char) : Except Fault (Numeral × List Char) := do
  let (whole, rest) ← readDigits atEnd cs
  if whole.head? = some '0' ∧ whole.length > 1 then
    throw .malformed
  let (decimals, rest) ← readDecimals atEnd rest
  let (exponent, rest) ← readExponent atEnd rest
  return (⟨whole, decimals, exponent⟩, rest)

/-- Reads a number. `atEnd` is the fault of a text that ends where a digit is needed. -/
def readNumber (atEnd : Fault) : List Char → Except Fault (Numeral × List Char)
  | '-' :: rest => readUnsigned atEnd rest
  | rest => readUnsigned atEnd rest

/-! ## The range of double precision -/

/-- Appends digits to a number as long as it stays below 2^64. Returns also the digits from the
first one on that does not fit. -/
def appendDigits (n : Nat) : List Char → Nat × List Char
  | [] => (n, [])
  | d :: digits =>
    let longer := 10 * n + (d.toNat - '0'.toNat)
    if longer < UInt64.size then appendDigits longer digits else (n, d :: digits)

/-- The digits of a number that are kept, as a whole number, and the power of ten behind them.
Digits of the whole part that do not fit still count as places, decimals that do not fit are
dropped. -/
def Numeral.kept (x : Numeral) : Nat × Int :=
  let (n, places) := appendDigits 0 x.whole
  let (n, dropped) := appendDigits n x.decimals
  (n, x.exponent + places.length + dropped.length - x.decimals.length)

/-- The nearest number to `n` with at most `bits` bits in front of its zero bits. Of two such
numbers that are as near, the one that is even in its last place. -/
def roundToBits (bits n : Nat) : Nat :=
  let place := 1 <<< (Nat.log2 n + 1 - bits)
  let q := n / place
  let twice := 2 * (n % place)
  if place < twice ∨ (twice = place ∧ q % 2 = 1) then (q + 1) * place else q * place

/-- The least number that is too great for double precision: half a place above the greatest
number in it. -/
def doubleLimit : Nat := (1 <<< 1024) - (1 <<< 970)

/-- Whether a number is beyond the range of double precision. A negative power of ten never takes
it there. -/
def Numeral.isTooGreat (x : Numeral) : Bool :=
  let (n, exponent) := x.kept
  if n = 0 ∨ exponent < 0 then false
  else if 308 < exponent then true
  else doubleLimit ≤ roundToBits 53 n * roundToBits 53 (Nat.pow 10 exponent.toNat)

end RegularLanguages.Json
