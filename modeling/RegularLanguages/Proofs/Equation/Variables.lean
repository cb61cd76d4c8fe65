import Mathlib.Data.List.Basic
import Mathlib.Data.List.TakeWhile
import RegularLanguages.Equation.Parser
import RegularLanguages.Proofs.Text.Alphanumeric
import RegularLanguages.Regex.Printer

/-!
# Variables in a text

A variable is an `x` with a number. It is found at the end of a term, where it belongs, and
anywhere else, where a term is refused for it. The search looks at the text alone: in the text of
an expression, a symbol `x` in front of digits is found as well.

Results:
* `ofChars?_chars`: a variable is read as itself.
* **`findVariable?_eq_none_iff`**: the search for a variable finds one if there is one.
* `findVariable?_chars_eq_none_iff`, `findVariable?_unite_eq_none_iff`: the search in the text of
  an expression.
* `trailingVariable?_append`, `trailingVariable?_eq_some`: the variable at the end of a term.
-/

namespace RegularLanguages

namespace Variable

variable {v : Variable}

/-- The characters of a variable. -/
def chars (v : Variable) : List Char := 'x' :: Nat.toDigits 10 v.index

theorem toList_toText (v : Variable) : v.toText.toList = v.chars := by
  rw [toText, String.toList_append, Nat.toString_eq_repr, Nat.toList_repr]
  rfl

theorem isDigit_of_mem_toDigits {n : Nat} : ∀ c ∈ Nat.toDigits 10 n, c.isDigit = true :=
  fun _ hc => Nat.isDigit_of_mem_toDigits (by decide) (by decide) hc

/-- A variable is read as itself, if its number is not too great. -/
theorem ofChars?_chars (h : v.index < bound) : ofChars? v.chars = some v := by
  have hdigits : ((Nat.toDigits 10 v.index).isEmpty ||
      !(Nat.toDigits 10 v.index).all Char.isDigit) = false := by
    rw [Bool.or_eq_false_iff, List.isEmpty_eq_false_iff, Bool.not_eq_false', List.all_eq_true]
    exact ⟨Nat.toDigits_ne_nil, isDigit_of_mem_toDigits⟩
  rw [chars, ofChars?, hdigits]
  dsimp only
  rw [Nat.ofDigitChars_toDigits (by decide) (by decide), if_neg (by simp), if_pos h]

theorem lt_bound_of_ofChars? {cs : List Char} (h : ofChars? cs = some v) : v.index < bound := by
  unfold ofChars? at h
  split at h
  · split at h
    · exact nomatch h
    · dsimp only at h
      split at h
      · rename_i hlt
        rw [← Option.some.inj h]
        exact hlt
      · exact nomatch h
  · exact nomatch h

/-- A variable consists of letters and digits. -/
theorem isAlphanumeric_of_mem_chars : ∀ c ∈ v.chars, Text.isAlphanumeric c = true := by
  intro c hc
  rcases List.mem_cons.mp hc with rfl | hc
  · decide +kernel
  · exact Text.isAlphanumeric_of_isDigit (isDigit_of_mem_toDigits c hc)

theorem not_isBlank_of_mem_chars : ∀ c ∈ v.chars, Text.isBlank c = false :=
  fun c hc => Text.not_isBlank_of_isAlphanumeric (isAlphanumeric_of_mem_chars c hc)

end Variable

namespace EquationSystem

variable {cs ds front left right term : List Char} {d : Char} {v : Variable} {r s : Regex}

/-! ## Variables in a text -/

theorem findVariable?_cons_eq_none_iff : findVariable? (d :: cs) = none ↔
    (d = 'x' → Variable.ofChars? ('x' :: cs.takeWhile Char.isDigit) = none) ∧
      findVariable? cs = none := by
  rw [findVariable?]
  by_cases hd : d = 'x'
  · rw [if_pos hd]
    cases hv : Variable.ofChars? ('x' :: cs.takeWhile Char.isDigit) with
    | none => simp
    | some v => simp [hd]
  · simp [hd]

/-- No `x` in the text stands in front of the digits of a variable. -/
def NoVariable (cs : List Char) : Prop := ∀ front rest,
  cs = front ++ 'x' :: rest → Variable.ofChars? ('x' :: rest.takeWhile Char.isDigit) = none

/-- **The search for a variable** finds one if there is one. -/
theorem findVariable?_eq_none_iff : findVariable? cs = none ↔ NoVariable cs := by
  unfold NoVariable
  induction cs with
  | nil => simp [findVariable?]
  | cons d cs ih =>
    rw [findVariable?_cons_eq_none_iff, ih]
    constructor
    · rintro ⟨hd, hcs⟩ front rest heq
      cases front with
      | nil =>
        obtain ⟨rfl, rfl⟩ := List.cons.inj heq
        exact hd rfl
      | cons e front => exact hcs front rest (List.cons.inj heq).2
    · intro h
      refine ⟨?_, fun front rest heq => h (d :: front) rest (congrArg (d :: ·) heq)⟩
      rintro rfl
      exact h [] cs rfl

theorem takeWhile_isDigit_append (hd : d.isDigit = false) :
    (cs ++ d :: ds).takeWhile Char.isDigit = cs.takeWhile Char.isDigit := by
  have hstop : (d :: ds).takeWhile Char.isDigit = [] :=
    List.takeWhile_cons_of_neg (by rw [hd]; exact Bool.false_ne_true)
  rw [List.takeWhile_append, hstop, List.append_nil]
  split
  · rename_i h
    exact (List.IsPrefix.eq_of_length (List.takeWhile_prefix _) h).symm
  · rfl

/-- A character that is no part of a variable separates what is found. -/
theorem findVariable?_append (hd : d.isDigit = false) (hx : d ≠ 'x') :
    findVariable? (cs ++ d :: ds) = (findVariable? cs).or (findVariable? ds) := by
  induction cs with
  | nil =>
    rw [List.nil_append, findVariable?.eq_def (d :: ds)]
    exact if_neg hx
  | cons e cs ih =>
    rw [List.cons_append, findVariable?, findVariable?, takeWhile_isDigit_append hd, ih]
    by_cases he : e = 'x'
    · rw [if_pos he, if_pos he]
      cases Variable.ofChars? ('x' :: cs.takeWhile Char.isDigit) <;> rfl
    · rw [if_neg he, if_neg he]

/-- A part of a text shows no variable that the text does not show, unless digits go on behind
it. -/
theorem findVariable?_of_append (h : findVariable? (left ++ cs ++ right) = none)
    (hright : ∀ d, right.head? = some d → d.isDigit = false) : findVariable? cs = none := by
  rw [findVariable?_eq_none_iff] at h ⊢
  intro front rest hcs
  have hdigits : (rest ++ right).takeWhile Char.isDigit = rest.takeWhile Char.isDigit := by
    cases right with
    | nil => rw [List.append_nil]
    | cons d ds => exact takeWhile_isDigit_append (hright d rfl)
  rw [← hdigits]
  refine h (left ++ front) (rest ++ right) ?_
  simp [hcs]

/-! ## Variables in the text of an expression -/

/-- Parentheses do not hide variables. -/
theorem findVariable?_guarded (required : Nat) (r : Regex) :
    findVariable? (Regex.guarded required r cs) = findVariable? cs := by
  unfold Regex.guarded
  split
  · rw [List.cons_append, findVariable?, if_neg (by decide),
      findVariable?_append (by decide) (by decide), findVariable?, Option.or_none]
  · rfl

/-- The text of an expression has a variable if that of a union term has one. -/
theorem findVariable?_chars_eq_none_iff : findVariable? r.chars = none ↔
    ∀ t ∈ r.unionTerms, findVariable? t.chars = none := by
  induction r with
  | union l r ihl ihr =>
    rw [Regex.chars, findVariable?_append (by decide) (by decide), Option.or_eq_none_iff, ihl, ihr,
      Regex.unionTerms, List.forall_mem_append]
  | _ => simp [Regex.unionTerms]

theorem findVariable?_unite_eq_none_iff : findVariable? (r.unite s).chars = none ↔
    findVariable? r.chars = none ∧ findVariable? s.chars = none := by
  unfold Regex.unite
  split
  · rename_i hs
    exact (and_iff_left_of_imp fun h => findVariable?_chars_eq_none_iff.mp h s hs).symm
  · split
    · rename_i hr
      exact (and_iff_right_of_imp fun h => findVariable?_chars_eq_none_iff.mp h r hr).symm
    · rw [Regex.chars, findVariable?_append (by decide) (by decide), Option.or_eq_none_iff]

theorem findVariable?_foldl_unite_eq_none_iff : ∀ {rs : List Regex} {r : Regex},
    findVariable? (rs.foldl Regex.unite r).chars = none ↔
      ∀ t ∈ r :: rs, findVariable? t.chars = none
  | [], r => by simp
  | s :: rs, r => by
    rw [List.foldl_cons, findVariable?_foldl_unite_eq_none_iff, List.forall_mem_cons,
      findVariable?_unite_eq_none_iff, and_assoc, List.forall_mem_cons, List.forall_mem_cons]

/-! ## The variable at the end of a term -/

theorem splitDigits_append (hd : d.isDigit = false) (hds : ∀ e ∈ ds, e.isDigit = true) :
    splitDigits (cs ++ d :: ds) = (cs ++ [d], ds) := by
  have hrev : (cs ++ d :: ds).reverse = ds.reverse ++ d :: cs.reverse := by simp
  have hpos : ∀ e ∈ ds.reverse, e.isDigit = true := fun e he => hds e (List.mem_reverse.mp he)
  have hneg : ¬ d.isDigit = true := by rw [hd]; exact Bool.false_ne_true
  unfold splitDigits
  dsimp only
  rw [hrev, List.dropWhile_append_of_pos hpos, List.takeWhile_append_of_pos hpos,
    List.dropWhile_cons_of_neg hneg, List.takeWhile_cons_of_neg hneg]
  simp

theorem splitDigits_spec (cs : List Char) : (splitDigits cs).1 ++ (splitDigits cs).2 = cs ∧
    ∀ d ∈ (splitDigits cs).2, d.isDigit = true := by
  constructor
  · rw [splitDigits, ← List.reverse_append, List.takeWhile_append_dropWhile, List.reverse_reverse]
  · intro d hd
    exact List.mem_takeWhile_imp (List.mem_reverse.mp hd)

/-- A variable at the end is found. -/
theorem trailingVariable?_append (h : v.index < Variable.bound) :
    trailingVariable? (cs ++ v.chars) = some (cs, v) := by
  unfold trailingVariable?
  rw [Variable.chars, splitDigits_append (by decide) Variable.isDigit_of_mem_toDigits]
  dsimp only
  rw [List.getLast?_concat, if_pos rfl, List.dropLast_concat]
  exact congrArg (Option.map fun v => (cs, v)) (Variable.ofChars?_chars h)

theorem trailingVariable?_eq_some (h : trailingVariable? term = some (front, v)) :
    ∃ digits, term = front ++ 'x' :: digits ∧ (∀ d ∈ digits, d.isDigit = true) ∧
      Variable.ofChars? ('x' :: digits) = some v := by
  obtain ⟨hterm, hdigits⟩ := splitDigits_spec term
  unfold trailingVariable? at h
  generalize splitDigits term = parts at h hterm hdigits
  obtain ⟨head, digits⟩ := parts
  dsimp only at h hterm hdigits
  split at h
  · rename_i hx
    obtain ⟨w, hw, heq⟩ := Option.map_eq_some_iff.mp h
    obtain ⟨rfl, rfl⟩ := Prod.mk.inj heq
    have hhead : head.dropLast ++ ['x'] = head :=
      List.dropLast_append_getLast? 'x' (Option.mem_def.mpr hx)
    refine ⟨digits, ?_, hdigits, hw⟩
    calc
      term = head ++ digits := hterm.symm
      _ = head.dropLast ++ ['x'] ++ digits := by rw [hhead]
      _ = head.dropLast ++ 'x' :: digits := by rw [List.append_assoc, List.singleton_append]
  · exact nomatch h

/-- A text without variables has none at its end. -/
theorem trailingVariable?_eq_none (h : findVariable? term = none) :
    trailingVariable? term = none := by
  cases htrail : trailingVariable? term with
  | none => rfl
  | some found =>
    obtain ⟨digits, hterm, hdigits, hv⟩ := trailingVariable?_eq_some htrail
    have hnone := findVariable?_eq_none_iff.mp h _ _ hterm
    rw [List.takeWhile_eq_self_iff.mpr hdigits, hv] at hnone
    exact nomatch hnone

end EquationSystem

end RegularLanguages
