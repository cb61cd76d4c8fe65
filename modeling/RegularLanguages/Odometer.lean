import RegularLanguages.Word

/-!
# Odometers

An odometer gives out the words over some symbols one after the other, beginning with the empty
word. Its digits are places in the list of symbols, one for each symbol of the word that comes
next. To go on, the last digit is turned, and with a digit that goes back to the first place the
digit in front of it; when all of them go back, there is one digit more. An odometer without
symbols ends behind the empty word.
-/

namespace RegularLanguages

/-- The symbols in order, and the digits of the word that comes next, if there is one more. -/
structure Odometer where
  symbols : List Char
  digits : Option (List (Fin symbols.length))

namespace Odometer

/-- The odometer over the given symbols, in front of the empty word. -/
def ofSymbols (symbols : List Char) : Odometer := ⟨(OrderedSet.ofList symbols).toList, some []⟩

/-- Turns the last digit, and every digit behind which all went back to the first place. The flag
tells whether the first digit went back, too. -/
def turn {n : Nat} : List (Fin n) → List (Fin n) × Bool
  | [] => ([], true)
  | d :: ds =>
    let (turned, back) := turn ds
    if back then
      if h : d.val + 1 < n then (⟨d.val + 1, h⟩ :: turned, false)
      else (⟨0, d.pos⟩ :: turned, true)
    else (d :: turned, false)

/-- The digits of the word behind, unless there are no symbols. -/
def following? {n : Nat} (ds : List (Fin n)) : Option (List (Fin n)) :=
  if h : 0 < n then
    let (turned, back) := turn ds
    some (if back then List.replicate (ds.length + 1) ⟨0, h⟩ else turned)
  else none

/-- Gives out a word and goes on to the one behind it. -/
def next (o : Odometer) : Option (Word × Odometer) :=
  match o.digits with
  | none => none
  | some ds => some (ds.map o.symbols.get, ⟨o.symbols, following? ds⟩)

/-- The word that is given out when `k` others have been. -/
def item? (o : Odometer) : Nat → Option Word
  | 0 => o.next.map (·.1)
  | k + 1 =>
    match o.next with
    | none => none
    | some (_, o) => o.item? k

end Odometer

end RegularLanguages
