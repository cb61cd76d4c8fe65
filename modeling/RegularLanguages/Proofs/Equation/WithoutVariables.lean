import RegularLanguages.Proofs.Equation.Lines
import RegularLanguages.Proofs.Equation.Operands
import RegularLanguages.Proofs.Equation.Solving

/-!
# A right hand side without variables is an expression

If no variable is found in a right hand side, none is found in its terms, and each term is read as
an expression by itself. The expressions are united one after the other, and an operand that is
there already is left out. The reader of expressions takes the same text as a whole. Both read the
same texts, since reading a text is reading its terms, and what they read means the same.

Results:
* `findVariable?_of_mem_splitTerms`: the terms show no variable that the text does not show.
* `parseTerm_eq_ok_iff`, `parseTerms_eq_ok_iff`: how terms without variables are read.
* `parse_equation_eq_ok_iff`: how a text of one such equation is read.
* **`exists_parse_iff_and_matches_iff`**: an equation and an expression are read alike.
-/

namespace RegularLanguages.EquationSystem

open Regex (UnionSign significant parseChars)

variable {cs left right term : List Char} {terms : List (List Char)} {r : Regex}
  {form form' : LinearForm} {line : Nat} {uses uses' : List (Nat × Variable)} {v : Variable}
  {S : EquationSystem}

/-! ## Parts of a text -/

theorem significant_trimEnd (cs : List Char) : significant (Text.trimEnd cs) = significant cs := by
  obtain ⟨right, hright, hcs⟩ := Text.exists_trimEnd cs
  conv_rhs =>
    rw [hcs, Regex.significant_append, Regex.significant_of_isBlank hright, List.append_nil]

theorem significant_trim (cs : List Char) : significant (Text.trim cs) = significant cs := by
  obtain ⟨left, right, hleft, hright, hcs⟩ := Text.exists_trim cs
  conv_rhs =>
    rw [hcs, Regex.significant_append, Regex.significant_append,
      Regex.significant_of_isBlank hleft, Regex.significant_of_isBlank hright, List.nil_append,
      List.append_nil]

/-- A padded text shows what it shows without the blanks. -/
theorem findVariable?_of_padded (hright : ∀ c ∈ right, Text.isBlank c = true)
    (h : findVariable? (left ++ cs ++ right) = none) : findVariable? cs = none :=
  findVariable?_of_append h fun d hd =>
    Text.not_isDigit_of_isBlank (hright d (List.mem_of_head? hd))

theorem findVariable?_trimEnd (h : findVariable? cs = none) :
    findVariable? (Text.trimEnd cs) = none := by
  obtain ⟨right, hright, hcs⟩ := Text.exists_trimEnd cs
  have hpadded : findVariable? ([] ++ Text.trimEnd cs ++ right) = none := by
    rwa [List.nil_append, ← hcs]
  exact findVariable?_of_padded hright hpadded

theorem findVariable?_trim (h : findVariable? cs = none) : findVariable? (Text.trim cs) = none := by
  obtain ⟨left, right, -, hright, hcs⟩ := Text.exists_trim cs
  rw [hcs] at h
  exact findVariable?_of_padded hright h

/-- **The terms of a text** show no variable that the text does not show. -/
theorem findVariable?_of_mem_splitTerms (cs : List Char) :
    findVariable? cs = none → ∀ t ∈ splitTerms 0 cs, findVariable? t = none := by
  induction cs using splitTerms_induction with
  | single t ht => exact fun h => List.forall_mem_singleton.mpr h
  | cons t sign rest ht ih =>
    have hsign : sign.toChar.isDigit = false ∧ sign.toChar ≠ 'x' := by cases sign <;> decide
    intro h
    rw [findVariable?_append hsign.1 hsign.2, Option.or_eq_none_iff] at h
    exact List.forall_mem_cons.mpr ⟨h.1, ih h.2⟩

/-! ## Terms without variables -/

/-- A term without variables is read as an expression. -/
theorem parseTerm_eq_ok_iff (h : findVariable? term = none) {o : Option Variable} :
    parseTerm line term = .ok (r, o) ↔ parseChars term = .ok r ∧ o = none := by
  have htrim := findVariable?_trim h
  rw [parseTerm_eq, trailingVariable?_eq_none htrim,
    ← Regex.parseChars_congr (significant_trim term)]
  constructor
  · intro hread
    obtain ⟨-, hr, ho⟩ := readCoefficient_eq_ok hread
    exact ⟨hr.resolve_left fun hv => (nomatch hv.1), ho⟩
  · rintro ⟨hr, rfl⟩
    dsimp only
    rw [readCoefficient, htrim, hr]
    simp

/-- Terms without variables are read as expressions and united. -/
theorem parseTerms_eq_ok_iff (h : ∀ t ∈ terms, findVariable? t = none) :
    parseTerms line terms form uses = .ok (form', uses') ↔ ∃ rs, terms.mapM parseChars = .ok rs ∧
      form' = rs.foldl (LinearForm.add · none ·) form ∧ uses' = uses := by
  simp only [mapM_eq_ok_iff]
  induction terms generalizing form with
  | nil =>
    simp only [parseTerms, Except.ok.injEq, Prod.mk.injEq, List.forall₂_nil_left_iff,
      exists_eq_left, List.foldl_nil]
    exact and_congr eq_comm eq_comm
  | cons t terms ih =>
    obtain ⟨ht, hterms⟩ := List.forall_mem_cons.mp h
    simp only [parseTerms, bind_eq_ok_iff, Prod.exists, parseTerm_eq_ok_iff ht,
      List.forall₂_cons_left_iff]
    constructor
    · rintro ⟨r, o, ⟨hr, rfl⟩, hrest⟩
      obtain ⟨rs, hrs, hform, huses⟩ := (ih hterms).mp hrest
      exact ⟨r :: rs, ⟨r, rs, hr, hrs, rfl⟩, hform, huses⟩
    · rintro ⟨_, ⟨r, rs, hr, hrs, rfl⟩, hform, huses⟩
      exact ⟨r, none, ⟨hr, rfl⟩, (ih hterms).mpr ⟨rs, hrs, hform, huses⟩⟩

/-! ## One equation -/

theorem parseLines_singleton {reading reading' : Reading} {text : List Char} :
    parseLines reading line [text] = .ok reading' ↔ parseLine reading line text = .ok reading' := by
  simp only [parseLines, bind_eq_ok_iff, Except.ok.injEq, exists_eq_right]

/-- **A text of one equation without variables** is read if its terms are, and the constant part is
the union of what they are. -/
theorem parse_equation_eq_ok_iff {text : String} (hv : v.index < Variable.bound)
    (htext : text.toList = equationChars v right) (hright : ∀ c ∈ right, c ≠ '\n' ∧ c ≠ '#')
    (hfind : findVariable? right = none) : parse text = .ok S ↔
      ∃ r rs, (splitTerms 0 (Text.trimEnd right)).mapM parseChars = .ok (r :: rs) ∧
        S = ⟨[(v, ⟨[], some (rs.foldl Regex.unite r)⟩)]⟩ := by
  have hlines : Text.lines text.toList = [equationChars v right] := by
    rw [htext]
    exact Text.lines_of_not_mem fun h => (forall_mem_equationChars hright _ h).1 rfl
  have hterms := findVariable?_of_mem_splitTerms _ (findVariable?_trimEnd hfind)
  have hline : parseLine ⟨[], []⟩ 1 (equationChars v right) =
      (parseTerms 1 (splitTerms 0 (Text.trimEnd right)) .zero []).map fun found =>
        ⟨[(v, found.1)], found.2⟩ := parseLine_equation hv List.not_mem_nil hright
  rw [parse_eq_ok_iff, hlines]
  simp only [parseLines_singleton, hline]
  constructor
  · rintro ⟨reading, h, -, rfl⟩
    obtain ⟨⟨form, uses⟩, hread, rfl⟩ := map_eq_ok h
    obtain ⟨rs, hrs, rfl, rfl⟩ := (parseTerms_eq_ok_iff hterms).mp hread
    cases rs with
    | nil =>
      rw [mapM_eq_ok_iff, List.forall₂_nil_right_iff] at hrs
      exact absurd hrs (splitTerms_ne_nil _ _)
    | cons r rs =>
      refine ⟨r, rs, hrs, ?_⟩
      rw [LinearForm.zero, LinearForm.foldl_add_none]
      rfl
  · rintro ⟨r, rs, hrs, rfl⟩
    have hread : parseTerms 1 (splitTerms 0 (Text.trimEnd right)) .zero [] =
        .ok (⟨[], some (rs.foldl Regex.unite r)⟩, []) :=
      (parseTerms_eq_ok_iff hterms).mpr
        ⟨r :: rs, hrs, (LinearForm.foldl_add_none [] (r :: rs)).symm, rfl⟩
    rw [hread]
    exact ⟨_, rfl, fun u hu => absurd hu List.not_mem_nil, rfl⟩

/-- **An equation and an expression are read alike.** If a text has no line breaks, no comments and
no variables, then the equation with this right hand side is read iff the text is read as an
expression. The constant part of the equation, which is also the solution, means the same as the
expression. -/
theorem exists_parse_iff_and_matches_iff (text : String) (hcomment : '#' ∉ text.toList)
    (hline : '\n' ∉ text.toList) (hfind : findVariable? text.toList = none) :
    ((∃ S, parse ("x0 = " ++ text) = .ok S) ↔ ∃ r, Regex.parse text = .ok r) ∧
      ∀ S r, parse ("x0 = " ++ text) = .ok S → Regex.parse text = .ok r →
        ∃ c, S.equations = [(⟨0⟩, ⟨[], some c⟩)] ∧ (∀ w, c.Matches w ↔ r.Matches w) ∧
          S.solve = .ok ⟨[(⟨0⟩, some c)]⟩ := by
  have hright : ∀ c ∈ ' ' :: text.toList, c ≠ '\n' ∧ c ≠ '#' :=
    List.forall_mem_cons.mpr ⟨by decide, fun c hc =>
      ⟨fun h => hline (h ▸ hc), fun h => hcomment (h ▸ hc)⟩⟩
  have htext : ("x0 = " ++ text).toList = equationChars ⟨0⟩ (' ' :: text.toList) := by
    rw [String.toList_append]
    rfl
  have hsame : significant (Text.trimEnd (' ' :: text.toList)) = significant text.toList :=
    (significant_trimEnd _).trans (Regex.significant_cons_of_isBlank (by decide))
  have hparse (S : EquationSystem) := parse_equation_eq_ok_iff (S := S) (by decide) htext hright
    ((if_neg (by decide)).trans hfind)
  have hregex (r : Regex) : Regex.parse text = .ok r ↔ ∃ s ss,
      (splitTerms 0 (Text.trimEnd (' ' :: text.toList))).mapM parseChars = .ok (s :: ss) ∧
        ss.foldl Regex.union s = r := by
    rw [← parseChars_eq_ok_iff_terms, Regex.parseChars_congr hsame]
    rfl
  constructor
  · constructor
    · rintro ⟨S, hS⟩
      obtain ⟨s, ss, h, -⟩ := (hparse S).mp hS
      exact ⟨_, (hregex _).mpr ⟨s, ss, h, rfl⟩⟩
    · rintro ⟨r, hr⟩
      obtain ⟨s, ss, h, -⟩ := (hregex r).mp hr
      exact ⟨_, (hparse _).mpr ⟨s, ss, h, rfl⟩⟩
  · intro S r hS hr
    obtain ⟨s, ss, h, rfl⟩ := (hparse S).mp hS
    obtain ⟨s', ss', h', rfl⟩ := (hregex r).mp hr
    obtain ⟨rfl, rfl⟩ := List.cons.inj (Except.ok.inj (h.symm.trans h'))
    exact ⟨_, rfl, fun w => Regex.matches_foldl_unite ss s, solveRounds_of_isClosed rfl _ _⟩

/-- A term that stands twice is in the expression twice and in the equation once. The `x` in front
of a letter is no variable, and the sign in the group splits nothing. -/
theorem parse_repeated_term :
    let text := " a |(b+x)y + a "
    let c : Regex :=
      .union (.symbol 'a') (.concat (.union (.symbol 'b') (.symbol 'x')) (.symbol 'y'))
    let r : Regex := .union c (.symbol 'a')
    let S : EquationSystem := ⟨[(⟨0⟩, ⟨[], some c⟩)]⟩
    ('#' ∉ text.toList ∧ '\n' ∉ text.toList ∧ findVariable? text.toList = none) ∧
      parse ("x0 = " ++ text) = .ok S ∧ Regex.parse text = .ok r ∧
      (∀ w, c.Matches w ↔ r.Matches w) ∧ S.solve = .ok ⟨[(⟨0⟩, some c)]⟩ := by
  intro text c r S
  have hcomment : '#' ∉ text.toList := by decide
  have hline : '\n' ∉ text.toList := by decide
  have hfind : findVariable? text.toList = none := by decide
  have hS : parse ("x0 = " ++ text) = .ok S := by decide +kernel
  have hr : Regex.parse text = .ok r := by decide +kernel
  obtain ⟨-, hsame⟩ := exists_parse_iff_and_matches_iff text hcomment hline hfind
  obtain ⟨c', hc', hmatches, hsolve⟩ := hsame S r hS hr
  obtain rfl : c = c' := by simpa [S] using hc'
  exact ⟨⟨hcomment, hline, hfind⟩, hS, hr, hmatches, hsolve⟩

/-- Behind a group that is closed but not opened nothing is split, and the term is refused for what
the expression is refused for. -/
example : Regex.parse "a)+(b" = .error (.unmatched 1 ')') ∧
    parse "x0 = a)+(b" = .error (.invalidTerm 1 "a)+(b" (.unmatched 1 ')')) := by decide +kernel

end RegularLanguages.EquationSystem
