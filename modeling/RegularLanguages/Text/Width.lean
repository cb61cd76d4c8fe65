import RegularLanguages.Text.CharWidth
import RegularLanguages.Text.Emoji

/-!
# Widths on a terminal

The number of columns that a line of text takes on a terminal. It is not the sum of the widths of
the characters, because some characters merge with the ones behind them: letters form ligatures,
pictures are joined to one picture or take a skin tone, letters make flags, and a variation
selector chooses between a picture and text.

A line is read from its end to its start. What has been read is remembered as far as it matters to
the characters in front of it, which is the `Context`. Each character adds to the width what it
takes in its context. This can be less than nothing, where a group of characters turns out to take
less room than its parts. Characters up to U+00A0 merge with nothing.
-/

namespace RegularLanguages.Text

/-- What stands behind a character, as far as the character can merge with it. The letters that
need a joiner in front of them to merge tell whether it is there. -/
inductive Follower
  | plain
  | alef
  | lamed (joined : Bool)
  | khmerLetter
  | bugineseYa (joined : Bool)
  /-- A Buginese vowel sign I, a joiner and the letter ya. -/
  | bugineseIYa
  | tifinagh (joined : Bool)
  /-- The Tifinagh consonant joiner and a consonant. -/
  | tifinaghPair
  | lisuTone
  | orkhonI (joined : Bool)
  | skinTone
  | flagLetter
  /-- Two or more letters of flags. -/
  | flagLetters
  | picture
  /-- A joiner and a picture. -/
  | joinedPicture
  /-- The sign of a key, a joiner and a picture. -/
  | joinedKey
  /-- A letter of a flag, a joiner and a picture. -/
  | joinedFlagLetter
  /-- Two or more letters of flags, a joiner and a picture. -/
  | joinedFlagLetters (odd : Bool)
  /-- The end of the name of a flag, a joiner and a picture. -/
  | tagEnd
  /-- Invisible letters at the end of the name of a flag. -/
  | tagLetters (count : Nat)
  /-- Invisible digits at the end of the name of a flag. -/
  | tagDigits (count : Nat)
deriving DecidableEq

/-- What is known about the text behind a character. -/
structure Context where
  follower : Follower
  /-- A variation selector asks for a picture. -/
  pictured : Bool
  /-- A variation selector asks for text. -/
  textual : Bool

namespace Follower

/-- Whether letters in front form a ligature that characters without display do not break. -/
def isLigature : Follower → Bool
  | lamed _ | khmerLetter | bugineseYa _ | bugineseIYa | tifinagh _ | tifinaghPair | lisuTone
  | orkhonI _ => true
  | _ => false

/-- Whether a variation selector in front leaves the follower as it is. -/
def ignoresVariation (f : Follower) : Bool := f = alef || f.isLigature

/-- The follower behind a joiner, if it forms ligatures. -/
def joined : Follower → Follower
  | lamed _ => lamed true
  | bugineseYa _ => bugineseYa true
  | tifinagh _ => tifinagh true
  | orkhonI _ => orkhonI true
  | f => f

end Follower

/-- The zero width joiner. -/
def joiner : Nat := 0x200D

/-- Whether a character is a variation selector or one of the few others that do not break a
ligature. -/
def isInLigature (c : Char) : Bool :=
  inRanges [(0x34F, 0x34F), (0x17B4, 0x17B5), (0x180B, 0x180D), (0x180F, 0x180F),
    (0xFE00, 0xFE0F), (0xE0100, 0xE01EF)] c

/-- Whether a letter forms a ligature with an alef behind it. -/
def isLam (c : Char) : Bool :=
  inRanges [(0x644, 0x644), (0x6B5, 0x6B8), (0x76A, 0x76A), (0x8A6, 0x8A6), (0x8C7, 0x8C7)] c

/-- Whether a letter is an alef of any form. -/
def isAlef (c : Char) : Bool :=
  inRanges [(0x622, 0x623), (0x625, 0x625), (0x627, 0x627), (0x671, 0x673), (0x675, 0x675),
    (0x773, 0x774), (0x870, 0x882)] c

/-- Whether a Khmer letter is written below the letter in front if a coeng sign is between. -/
def isKhmerLetter (c : Char) : Bool :=
  inRanges [(0x1780, 0x1782), (0x1784, 0x1787), (0x1789, 0x1793), (0x1795, 0x1798),
    (0x179B, 0x179D), (0x17A0, 0x17A0), (0x17A2, 0x17A2), (0x17A7, 0x17A7), (0x17AB, 0x17AC),
    (0x17AF, 0x17AF)] c

/-- Whether a letter is a Tifinagh consonant. -/
def isTifinagh (c : Char) : Bool := inRanges [(0x2D31, 0x2D65), (0x2D6F, 0x2D6F)] c

/-- What a character takes by itself, and what it is to the character in front. -/
def placeAlone (c : Char) : Int × Follower :=
  let follower : Follower :=
    if c.toNat = 0x5DC then .lamed false
    else if isAlef c then .alef
    else if isKhmerLetter c then .khmerLetter
    else if c.toNat = 0x1A10 then .bugineseYa false
    else if isTifinagh c then .tifinagh false
    else if c.toNat = 0xA4FC ∨ c.toNat = 0xA4FD then .lisuTone
    else if c.toNat = 0x10C03 then .orkhonI false
    else if isFlagLetter c then .flagLetter
    else if isSkinTone c then .skinTone
    else if isPicture c then .picture
    else .plain
  (charWidth c, follower)

/-- What a character takes if it merges with the letters behind it, and what it is then to the
character in front. -/
def placeLetter (c : Char) : Follower → Option (Int × Follower)
  | .alef =>
    if isLam c then some (0, .plain)
    else if isTransparent c then some (0, .alef)
    else none
  | .lamed true => if c.toNat = 0x5D0 then some (0, .plain) else none
  | .khmerLetter => if c.toNat = 0x17D2 then some (-1, .plain) else none
  | .bugineseYa true => if c.toNat = 0x1A17 then some (0, .bugineseIYa) else none
  | .bugineseIYa => if c.toNat = 0x1A15 then some (0, .plain) else none
  | .tifinagh joined =>
    if c.toNat = 0x2D7F then some (1, .tifinaghPair)
    else if joined && isTifinagh c then some (0, .plain)
    else none
  | .tifinaghPair => if isTifinagh c then some (-1, .plain) else none
  | .lisuTone => if 0xA4F8 ≤ c.toNat ∧ c.toNat ≤ 0xA4FB then some (0, .plain) else none
  | .orkhonI true => if c.toNat = 0x10C32 then some (0, .plain) else none
  | _ => none

/-- What a character takes if it merges with the picture behind it, and what it is then to the
character in front. -/
def placePicture (c : Char) : Follower → Option (Int × Follower)
  | .picture | .flagLetters => if c.toNat = joiner then some (0, .joinedPicture) else none
  | .skinTone =>
    if isToneable c then some (0, .picture)
    else if c.toNat = joiner then some (0, .joinedPicture)
    else none
  | .joinedPicture =>
    if c.toNat = 0x20E3 then some (0, .joinedKey)
    else if c.toNat = 0xE007F then some (0, .tagEnd)
    else if isFlagLetter c then some (1, .joinedFlagLetter)
    else if isSkinTone c then some (0, .skinTone)
    else if isPicture c then some (0, .picture)
    else none
  | _ => none

/-- What a character takes if it is part of a flag that goes on behind it, and what it is then to
the character in front. The name of a flag in invisible characters has three to six letters, or
three digits and up to four letters behind them. -/
def placeFlag (c : Char) : Follower → Option (Int × Follower)
  | .flagLetter | .flagLetters => if isFlagLetter c then some (1, .flagLetters) else none
  | .joinedFlagLetter => if isFlagLetter c then some (-1, .joinedFlagLetters false) else none
  | .joinedFlagLetters odd =>
    if isFlagLetter c then some (if odd then -1 else 3, .joinedFlagLetters !odd)
    else if c.toNat = joiner then some (0, .joinedPicture)
    else none
  | .tagEnd =>
    if isTagLetter c then some (0, .tagLetters 1)
    else if isTagDigit c then some (0, .tagDigits 1)
    else none
  | .tagLetters n =>
    if n < 6 ∧ isTagLetter c then some (0, .tagLetters (n + 1))
    else if n < 5 ∧ isTagDigit c then some (0, .tagDigits 1)
    else if 3 ≤ n ∧ c.toNat = 0x1F3F4 then some (0, .picture)
    else none
  | .tagDigits n =>
    if n < 3 ∧ isTagDigit c then some (0, .tagDigits (n + 1))
    else if n = 3 ∧ c.toNat = 0x1F3F4 then some (0, .picture)
    else none
  | _ => none

/-- What a character takes in front of a follower without a variation selector between them. -/
def placeBefore (c : Char) (f : Follower) : Int × Follower :=
  if f.isLigature && c.toNat = joiner then (0, f.joined)
  else if f.isLigature && isInLigature c then (0, f)
  else
    match placeLetter c f with
    | some placed => placed
    | none =>
      match placePicture c f with
      | some placed => placed
      | none => (placeFlag c f).getD (placeAlone c)

namespace Context

/-- The context at the end of a line, and of anything that merges with nothing in front. -/
def plain : Context := ⟨.plain, false, false⟩

/-- The context without the request for a picture, which is not met. -/
def withoutPictured (x : Context) : Context :=
  if x.follower.ignoresVariation then { x with pictured := false } else plain

/-- The context without the request for text, which is not met. -/
def withoutTextual (x : Context) : Context :=
  if x.follower.ignoresVariation then { x with textual := false } else plain

/-- The context in front of the selector that asks for a picture. -/
def askPicture (x : Context) : Context :=
  if x.follower.ignoresVariation || x.follower = .joinedPicture || x.follower = .joinedKey then
    { x with pictured := true }
  else { plain with pictured := true }

/-- The context in front of the selector that asks for text. -/
def askText (x : Context) : Context :=
  if x.follower.ignoresVariation then { x with textual := true } else { plain with textual := true }

/-- What a character takes in a context, and the context that it leaves. -/
def place (x : Context) (c : Char) : Int × Context :=
  if x.pictured && isVariable c then
    let merges := x.follower = .joinedPicture || x.follower = .joinedKey
    (if merges then 0 else 2, { plain with follower := .picture })
  else
    let x := if x.pictured then x.withoutPictured else x
    if c.toNat < 0xA1 then (1, plain)
    else if c.toNat = 0xFE0F then (0, x.askPicture)
    else if c.toNat = 0xFE0E then (0, x.askText)
    else if x.textual && narrowsAsText c then (1, plain)
    else
      let x := if x.textual then x.withoutTextual else x
      let (width, follower) := placeBefore c x.follower
      (width, { plain with follower })

/-- The width of the end of a line, and the context in front of it, with one more character. -/
def extend (c : Char) : Int × Context → Int × Context
  | (total, x) =>
    let (width, x) := x.place c
    (total + width, x)

end Context

/-- The number of columns of a line of text. -/
def width (line : List Char) : Nat := (line.foldr Context.extend (0, .plain)).1.toNat

end RegularLanguages.Text
