import RegularLanguages.Proofs.Equation.Splitting
import RegularLanguages.Proofs.Equation.Variables
import RegularLanguages.Proofs.Regex.Association

/-!
# Reading a term

A coefficient stands in front of its variable, a union in parentheses, with a blank between them.
So a term is not split, its variable is found at its end, and the coefficient is what is left. But
the coefficient is searched for variables as a text, in which a symbol `x` followed by digits
looks like one.

Results:
* `parseTerm_cases`: what reading a term finds.
* `parseTerms_congr`: the blanks around terms do not matter.
* **`parseTerm_termChars`**, **`parseTerm_chars`**: a term is read back, unless its text shows a
  variable in the wrong place.
-/

namespace RegularLanguages.EquationSystem

variable {front term : List Char} {v : Variable} {r c : Regex} {line : Nat}

/-! ## Terms with a coefficient -/

/-- The characters of a coefficient with its variable. -/
def termChars (v : Variable) : Regex → List Char
  | .epsilon => v.chars
  | c => Regex.guarded 1 c c.chars ++ ' ' :: v.chars

theorem toList_termText (v : Variable) (c : Regex) :
    (LinearForm.termText v c).toList = termChars v c := by
  cases c <;> simp [LinearForm.termText, termChars, Variable.toList_toText, Regex.guarded,
    Regex.strength, Regex.toText]

theorem termChars_eq (hc : c ≠ .epsilon) (v : Variable) :
    termChars v c = Regex.guarded 1 c c.chars ++ [' '] ++ v.chars := by
  rw [List.append_assoc, List.singleton_append]
  cases c with
  | epsilon => exact absurd rfl hc
  | _ => rfl

theorem termChars_ne_nil (v : Variable) (c : Regex) : termChars v c ≠ [] := by
  cases c <;> simp [termChars, Variable.chars]

theorem unsplit_termChars (h : c.Writable) : Unsplit 0 (termChars v c) := by
  have hv : Unsplit 0 v.chars := unsplit_of_isAlphanumeric Variable.isAlphanumeric_of_mem_chars
  by_cases hc : c = .epsilon
  · rw [hc]
    exact hv
  · rw [termChars_eq hc]
    exact ((unsplit_guarded h 0).append
      (unsplit_singleton (by decide))).append hv

theorem trimmed_termChars (h : c.Writable) : Text.Trimmed (termChars v c) := by
  by_cases hc : c = .epsilon
  · rw [hc]
    exact Text.trimmed_of_forall Variable.not_isBlank_of_mem_chars
  · rw [termChars_eq hc, List.append_assoc]
    refine Text.trimmed_append (Regex.guarded_ne_nil (Regex.chars_ne_nil c))
      (List.cons_ne_nil ' ' _) ?_ ?_
    · intro d hd
      exact Regex.not_isBlank_of_mem_guarded h d (List.mem_of_head? hd)
    · intro d hd
      rw [List.singleton_append, Variable.chars, List.getLast?_cons_cons] at hd
      exact Variable.not_isBlank_of_mem_chars d (List.mem_of_getLast? hd)

/-- What is done with the coefficient of a term, once its variable has been taken off. -/
def readCoefficient (line : Nat) (term coefficient : List Char) (v : Option Variable) :
    Except EquationError (Regex × Option Variable) :=
  match findVariable? coefficient with
  | some w => .error (.misplacedVariable line w)
  | none =>
    if coefficient.isEmpty && v.isSome then .ok (.epsilon, v)
    else
      match Regex.parseChars coefficient with
      | .ok r => .ok (r, v)
      | .error cause => .error (.invalidTerm line (String.ofList term) cause)

theorem parseTerm_eq (line : Nat) (term : List Char) : parseTerm line term =
    match trailingVariable? (Text.trim term) with
    | some (front, v) => readCoefficient line (Text.trim term) (Text.trimEnd front) (some v)
    | none => readCoefficient line (Text.trim term) (Text.trim term) none := by
  unfold parseTerm
  dsimp only
  cases trailingVariable? (Text.trim term) with
  | none => rfl
  | some found => rfl

/-- A coefficient that is read shows no variable; without characters it is the empty word. -/
theorem readCoefficient_eq_ok {cs : List Char} {v o : Option Variable}
    (h : readCoefficient line term cs v = .ok (r, o)) : findVariable? cs = none ∧
      (v.isSome = true ∧ r = .epsilon ∨ Regex.parseChars cs = .ok r) ∧ o = v := by
  unfold readCoefficient at h
  split at h
  · exact nomatch h
  · rename_i hfind
    split at h
    · rename_i hempty
      obtain ⟨rfl, rfl⟩ := Prod.mk.inj (Except.ok.inj h)
      exact ⟨hfind, .inl ⟨(Bool.and_eq_true_iff.mp hempty).2, rfl⟩, rfl⟩
    · split at h
      · rename_i hparse
        obtain ⟨rfl, rfl⟩ := Prod.mk.inj (Except.ok.inj h)
        exact ⟨hfind, .inr hparse, rfl⟩
      · exact nomatch h

/-- The blanks around terms do not matter. -/
theorem parseTerms_congr : ∀ {terms terms' : List (List Char)} {form : LinearForm}
    {uses : List (Nat × Variable)}, terms.map Text.trim = terms'.map Text.trim →
      parseTerms line terms form uses = parseTerms line terms' form uses
  | [], [], _, _, _ => rfl
  | [], _ :: _, _, _, h => nomatch h
  | _ :: _, [], _, _, h => nomatch h
  | term :: terms, term' :: terms', form, uses, h => by
    obtain ⟨hterm, hterms⟩ := List.cons.inj h
    have heq : parseTerm line term = parseTerm line term' := by
      unfold parseTerm
      rw [hterm]
    rw [parseTerms, parseTerms, heq]
    refine bind_congr fun found => ?_
    exact parseTerms_congr hterms

/-- What reading a term finds: a variable at its end with a coefficient or without one, or an
expression alone, and no other variable. -/
theorem parseTerm_cases {v : Option Variable} (h : parseTerm line term = .ok (r, v)) :
    (∃ w front, v = some w ∧ trailingVariable? (Text.trim term) = some (front, w) ∧
      findVariable? (Text.trimEnd front) = none ∧
      (r = .epsilon ∨ Regex.parseChars (Text.trimEnd front) = .ok r)) ∨
    v = none ∧ findVariable? (Text.trim term) = none ∧
      Regex.parseChars (Text.trim term) = .ok r := by
  rw [parseTerm_eq] at h
  cases htrail : trailingVariable? (Text.trim term) with
  | none =>
    rw [htrail] at h
    obtain ⟨hfind, hr, rfl⟩ := readCoefficient_eq_ok h
    exact .inr ⟨rfl, hfind, hr.resolve_left fun hv => nomatch hv.1⟩
  | some found =>
    obtain ⟨front, w⟩ := found
    rw [htrail] at h
    obtain ⟨hfind, hr, rfl⟩ := readCoefficient_eq_ok h
    exact .inl ⟨w, front, rfl, rfl, hfind, hr.imp_left And.right⟩

/-- **A coefficient with its variable is read back**, unless the coefficient shows a variable. -/
theorem parseTerm_termChars (hc : c.Writable) (hv : v.index < Variable.bound) :
    parseTerm line (termChars v c) =
      match findVariable? c.chars with
      | some w => .error (.misplacedVariable line w)
      | none => .ok (c.leftAssociated, some v) := by
  have htrim : Text.trim (termChars v c) = termChars v c := (trimmed_termChars hc).trim_eq
  rw [parseTerm_eq, htrim]
  by_cases hε : c = .epsilon
  · have htrail : trailingVariable? ([] ++ v.chars) = some ([], v) := trailingVariable?_append hv
    subst hε
    rw [List.nil_append] at htrail
    rw [termChars, htrail]
    rfl
  · have hcoefficient : Text.trimEnd (Regex.guarded 1 c c.chars ++ [' ']) =
        Regex.guarded 1 c c.chars := by
      refine Text.trimEnd_padded (List.forall_mem_singleton.mpr (by decide)) fun d hd => ?_
      exact Regex.not_isBlank_of_mem_guarded hc d (List.mem_of_getLast? hd)
    have hne : (Regex.guarded 1 c c.chars).isEmpty = false := by
      rw [List.isEmpty_eq_false_iff]
      exact Regex.guarded_ne_nil (Regex.chars_ne_nil c)
    rw [termChars_eq hε, trailingVariable?_append hv]
    dsimp only
    rw [hcoefficient, readCoefficient, findVariable?_guarded, Regex.parseChars_guarded hc, hne]
    cases findVariable? c.chars with
    | none => rfl
    | some w => rfl

/-! ## Terms without a variable -/

theorem trim_chars (hr : r.Writable) : Text.trim r.chars = r.chars :=
  (Text.trimmed_of_forall (Regex.not_isBlank_of_mem_chars hr)).trim_eq

/-- What is read as a term without variable has none in its text. -/
theorem findVariable?_of_parseTerm (h : parseTerm line term = .ok (r, none)) :
    findVariable? (Text.trim term) = none := by
  rcases parseTerm_cases h with ⟨v, front, hv, -⟩ | ⟨-, hfind, -⟩
  · exact nomatch hv
  · exact hfind

/-- **A union term of the constant part is read back**, unless it shows a variable. -/
theorem parseTerm_chars (hr : r.Writable) (h : findVariable? r.chars = none) :
    parseTerm line r.chars = .ok (r.leftAssociated, none) := by
  have htrail : trailingVariable? (Text.trim r.chars) = none := by
    rw [trim_chars hr]
    exact trailingVariable?_eq_none h
  rw [parseTerm_eq, htrail, trim_chars hr]
  dsimp only
  rw [readCoefficient, h, Regex.parseChars_chars hr]
  simp

end RegularLanguages.EquationSystem
