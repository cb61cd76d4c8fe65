import RegularLanguages.Json.Quoted

/-!
# Reading a quoted string undoes writing it

Each character is written by an escape or by itself, and reading takes one character of the text
for it, whatever comes behind. So a text is read back as it was, up to the closing quote.

Results:
* `readEscape_short`, `readEscape_unit`: what the escapes stand for.
* `decodeWith_escape`: one character is read back.
* **`decode_escape`**: the characters in front of the closing quote are read back.
-/

namespace RegularLanguages.Json

variable {c : Char} {cs rest : List Char} {fuel : Nat}

theorem hexValue?_hexDigit : ∀ n < 16, hexValue? (hexDigit n) = some n := by decide

/-- A character below 256 is read from four digits of which the first two are zero. -/
theorem readUnit_byte {n : Nat} (hn : n < 256) :
    readUnit ('0' :: '0' :: hexDigit (n / 16) :: hexDigit (n % 16) :: rest) = .ok (n, rest) := by
  have hzero : hexValue? '0' = some 0 := by decide
  have hhigh := hexValue?_hexDigit (n / 16) (by omega)
  have hlow := hexValue?_hexDigit (n % 16) (by omega)
  have hsum : ((0 * 16 + 0) * 16 + n / 16) * 16 + n % 16 = n := by omega
  simp only [readUnit, hzero, hhigh, hlow, hsum]

theorem readEscape_unit (hc : isControl c = true) :
    readEscape ('u' :: '0' :: '0' :: hexDigit (c.toNat / 16) :: hexDigit (c.toNat % 16) :: rest) =
      .ok (c, rest) := by
  have hlt : c.toNat < 0x20 := of_decide_eq_true hc
  have htrailing : isTrailing c.toNat = false := by
    simp only [isTrailing, Bool.and_eq_false_iff, decide_eq_false_iff_not]
    omega
  have hleading : isLeading c.toNat = false := by
    simp only [isLeading, Bool.and_eq_false_iff, decide_eq_false_iff_not]
    omega
  rw [readEscape, readCodePoint, readUnit_byte (by omega)]
  simp [bind, Except.bind, htrailing, hleading, pure, Except.pure]

theorem readEscape_short {letter : Char} (hu : letter ≠ 'u')
    (h : shortEscapes.lookup letter = some c) : readEscape (letter :: rest) = .ok (c, rest) := by
  rw [readEscape.eq_3 _ _ hu, h]

/-- A character that is escaped is put in front of the characters behind it. -/
theorem decodeWith_escaped (h : readEscape cs = .ok (c, rest)) :
    decodeWith (fuel + 1) ('\\' :: cs) =
      (decodeWith fuel rest).map fun (text, rest) => (c :: text, rest) := by
  rw [decodeWith, h]
  show (decodeWith fuel rest >>= fun (text, rest) => pure (c :: text, rest)) = _
  cases decodeWith fuel rest <;> rfl

/-- So is a character that stands for itself. -/
theorem decodeWith_plain (hquote : c ≠ '"') (hbackslash : c ≠ '\\') (hc : ¬ isControl c = true) :
    decodeWith (fuel + 1) (c :: cs) =
      (decodeWith fuel cs).map fun (text, rest) => (c :: text, rest) := by
  rw [decodeWith.eq_5 _ _ _ hquote hbackslash, if_neg hc]
  cases decodeWith fuel cs <;> rfl

/-- A character is written by a short escape, by an escape with digits or by itself. -/
theorem escape_cases (c : Char) :
    (∃ letter, letter ≠ 'u' ∧ shortEscapes.lookup letter = some c ∧ escape c = ['\\', letter]) ∨
      (isControl c = true ∧ escape c =
        ['\\', 'u', '0', '0', hexDigit (c.toNat / 16), hexDigit (c.toNat % 16)]) ∨
      c ≠ '"' ∧ c ≠ '\\' ∧ ¬ isControl c = true ∧ escape c = [c] := by
  have hshort (d letter : Char) (h : letter ≠ 'u' ∧ shortEscapes.lookup letter = some d)
      (hc : c = d) : ∃ l, l ≠ 'u' ∧ shortEscapes.lookup l = some c ∧ ['\\', letter] = ['\\', l] :=
    ⟨letter, h.1, hc ▸ h.2, rfl⟩
  unfold escape
  split
  case isTrue h => exact Or.inl (hshort '"' '"' (by decide) h)
  rename_i hquote
  split
  case isTrue h => exact Or.inl (hshort '\\' '\\' (by decide) h)
  rename_i hbackslash
  split
  case isTrue h => exact Or.inl (hshort '\x08' 'b' (by decide) h)
  split
  case isTrue h => exact Or.inl (hshort '\x0c' 'f' (by decide) h)
  split
  case isTrue h => exact Or.inl (hshort '\n' 'n' (by decide) h)
  split
  case isTrue h => exact Or.inl (hshort '\r' 'r' (by decide) h)
  split
  case isTrue h => exact Or.inl (hshort '\t' 't' (by decide) h)
  split
  case isTrue h => exact Or.inr (Or.inl ⟨h, rfl⟩)
  case isFalse h => exact Or.inr (Or.inr ⟨hquote, hbackslash, h, rfl⟩)

/-- One character is read back. -/
theorem decodeWith_escape :
    decodeWith (fuel + 1) (escape c ++ cs) =
      (decodeWith fuel cs).map fun (text, rest) => (c :: text, rest) := by
  rcases escape_cases c with ⟨letter, hu, hletter, he⟩ | ⟨hc, he⟩ | ⟨hquote, hbackslash, hc, he⟩
  · rw [he]
    exact decodeWith_escaped (readEscape_short hu hletter)
  · rw [he]
    exact decodeWith_escaped (readEscape_unit hc)
  · rw [he]
    exact decodeWith_plain hquote hbackslash hc

theorem one_le_length_escape (c : Char) : 1 ≤ (escape c).length := by
  rcases escape_cases c with ⟨letter, -, -, he⟩ | ⟨-, he⟩ | ⟨-, -, -, he⟩
  all_goals simp [he]

/-- Every character takes a unit of fuel, and so does the closing quote. -/
theorem decodeWith_flatMap_escape (rest : List Char) : ∀ (text : List Char) (fuel : Nat),
    text.length < fuel →
      decodeWith fuel (text.flatMap escape ++ '"' :: rest) = .ok (text, rest)
  | _, 0, h => absurd h (Nat.not_lt_zero _)
  | [], fuel + 1, _ => rfl
  | c :: text, fuel + 1, h => by
    have hrest := decodeWith_flatMap_escape rest text fuel (Nat.lt_of_succ_lt_succ h)
    rw [List.flatMap_cons, List.append_assoc, decodeWith_escape, hrest]
    rfl

theorem length_le_flatMap_escape : ∀ text : List Char, text.length ≤ (text.flatMap escape).length
  | [] => Nat.le_refl _
  | c :: text => by
    have hc := one_le_length_escape c
    have htext := length_le_flatMap_escape text
    rw [List.flatMap_cons, List.length_append, List.length_cons]
    omega

/-- **The characters in front of the closing quote are read back.** -/
theorem decode_escape (text rest : List Char) :
    decode (text.flatMap escape ++ '"' :: rest) = .ok (text, rest) := by
  refine decodeWith_flatMap_escape rest text _ ?_
  have hlength := length_le_flatMap_escape text
  rw [List.length_append, List.length_cons]
  omega

end RegularLanguages.Json
