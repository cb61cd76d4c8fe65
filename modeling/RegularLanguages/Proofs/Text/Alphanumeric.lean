import RegularLanguages.Text.Alphanumeric
import RegularLanguages.Text.Blank

/-!
# Letters and digits are no blanks

The two sets of characters are given by lists of ranges, and no range of the one list meets a
range of the other. So a blank between symbols is never taken for a symbol.
-/

namespace RegularLanguages.Text

variable {c : Char}

theorem not_inRanges_of_disjoint {xs ys : List (Nat × Nat)}
    (h : (xs.all fun x => ys.all fun y => x.2 < y.1 || y.2 < x.1) = true)
    (hc : inRanges xs c = true) : inRanges ys c = false := by
  simp only [inRanges, List.any_eq_true, Bool.and_eq_true, decide_eq_true_eq] at hc
  obtain ⟨x, hx, hlow, hhigh⟩ := hc
  simp only [List.all_eq_true, Bool.or_eq_true, decide_eq_true_eq] at h
  rw [← Bool.not_eq_true, inRanges, List.any_eq_true]
  rintro ⟨y, hy, hcy⟩
  simp only [Bool.and_eq_true, decide_eq_true_eq] at hcy
  have := h x hx y hy
  omega

/-- The letters and digits below U+0080 as ranges. -/
theorem inRanges_of_isAlphanum (h : c.isAlphanum = true) :
    inRanges [(0x30, 0x39), (0x41, 0x5A), (0x61, 0x7A)] c = true := by
  delta Char.isAlphanum Char.isAlpha Char.isUpper Char.isLower Char.isDigit at h
  simp [UInt32.le_iff_toNat_le] at h
  simp only [inRanges, List.any_cons, List.any_nil, Bool.or_false, Bool.or_eq_true,
    Bool.and_eq_true, decide_eq_true_eq]
  omega

theorem not_isBlank_of_isAlphanumeric (h : isAlphanumeric c = true) : isBlank c = false := by
  rcases (Bool.or_eq_true _ _).mp h with h | h
  · exact not_inRanges_of_disjoint (by decide) (inRanges_of_isAlphanum h)
  · exact not_inRanges_of_disjoint (by decide +kernel) h

theorem isAlphanumeric_of_isDigit (h : c.isDigit = true) : isAlphanumeric c = true := by
  rw [isAlphanumeric, Char.isAlphanum, h, Bool.or_true, Bool.true_or]

theorem not_isDigit_of_isBlank (h : isBlank c = true) : c.isDigit = false := by
  rw [← Bool.not_eq_true]
  intro hdigit
  rw [not_isBlank_of_isAlphanumeric (isAlphanumeric_of_isDigit hdigit)] at h
  exact nomatch h

/-- A letter or digit is none of the other characters. -/
theorem ne_of_isAlphanumeric {d : Char} (h : isAlphanumeric c = true)
    (hd : isAlphanumeric d = false) : c ≠ d := by
  rintro rfl
  rw [h] at hd
  exact absurd hd (by simp)

end RegularLanguages.Text
