import RegularLanguages.Text.Range

/-!
# Blank characters

The characters that separate words without being part of them, that is those with the Unicode
property `White_Space`, and the removal of them from the ends of a text.
-/

namespace RegularLanguages.Text

/-- The blank code points. -/
def blankRanges : List (Nat × Nat) :=
  [(0x9, 0xD), (0x20, 0x20), (0x85, 0x85), (0xA0, 0xA0), (0x1680, 0x1680), (0x2000, 0x200A),
    (0x2028, 0x2029), (0x202F, 0x202F), (0x205F, 0x205F), (0x3000, 0x3000)]

/-- Whether `c` is blank. -/
def isBlank (c : Char) : Bool := inRanges blankRanges c

/-- A text without the blanks at its start. -/
def trimStart (cs : List Char) : List Char := cs.dropWhile isBlank

/-- A text without the blanks at its end. -/
def trimEnd (cs : List Char) : List Char := (cs.reverse.dropWhile isBlank).reverse

/-- A text without the blanks at either end. -/
def trim (cs : List Char) : List Char := trimEnd (trimStart cs)

end RegularLanguages.Text
