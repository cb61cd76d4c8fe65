import RegularLanguages.Proofs.Equation.Splitting
import RegularLanguages.Proofs.Regex.Grammar

/-!
# A text is read by its terms or as a whole

A right hand side is split at the union operators outside of parentheses, and its terms are read
one by one. The grammar does not split a text, but a derived expression is a chain of terms, which
have union operators in groups only. So a text is derived iff each of its terms is, and its tree is
the union of theirs.

Splitting counts parentheses and looks at nothing else, also where more of them are closed than
opened, and a term may be any text. Therefore the way from the terms to the text goes by the
splitting itself (`splitTerms_induction`), not by a derivation.

Results:
* `splitTerms_significant`: blanks do not matter for where a text is split.
* `splitTerms_chars`: a derived text is split into its terms.
* `exists_expression_of_terms`: derived terms are joined to a derived text.
* **`parseChars_eq_ok_iff_terms`**: reading a text is reading its terms.
-/

namespace RegularLanguages

open Regex (UnionSign significant parseChars)
open Regex.Derivation (Expression Term)

namespace Regex.Derivation

/-! ## Expressions as chains of terms -/

/-- The terms of an expression, from left to right. -/
def Expression.operands : Expression → List Term
  | .term t => [t]
  | .union e _ t => e.operands ++ [t]

/-- The expression with a further term in front. -/
def Expression.behind (t : Term) (sign : UnionSign) : Expression → Expression
  | .term u => .union (.term t) sign u
  | .union e sign' u => .union (e.behind t sign) sign' u

theorem Expression.chars_behind (t : Term) (sign : UnionSign) (e : Expression) :
    (e.behind t sign).chars = t.chars ++ sign.toChar :: e.chars := by
  cases e with
  | term u => exact chars_union _ _ u
  | union e sign' u =>
    rw [behind, chars_union, chars_behind t sign e, chars_union, List.append_assoc,
      List.cons_append]

theorem Expression.operands_behind (t : Term) (sign : UnionSign) (e : Expression) :
    (e.behind t sign).operands = t :: e.operands := by
  cases e with
  | term u => rfl
  | union e sign' u =>
    rw [behind, operands, operands_behind t sign e]
    rfl

/-- A chain of unions is associated to the left. -/
theorem Expression.exists_operands (e : Expression) :
    ∃ t ts, e.operands = t :: ts ∧ (ts.map Term.tree).foldl Regex.union t.tree = e.tree := by
  cases e with
  | term t => exact ⟨t, [], rfl, rfl⟩
  | union e sign u =>
    obtain ⟨t, ts, hoperands, htree⟩ := exists_operands e
    refine ⟨t, ts ++ [u], ?_, ?_⟩
    · rw [operands, hoperands, List.cons_append]
    · rw [List.map_append, List.foldl_append, htree]
      rfl

end Regex.Derivation

namespace EquationSystem

variable {cs : List Char} {r : Regex}

/-! ## Texts that the grammar derives -/

theorem splitTerms_chars_append (sign : UnionSign) : ∀ (e : Expression) (ds : List Char),
    splitTerms 0 (e.chars ++ sign.toChar :: ds) =
      e.operands.map Term.chars ++ splitTerms 0 ds
  | .term t, ds => (unsplit_term 0 t).splitTerms_append sign ds
  | .union e sign' t, ds => by
    rw [Expression.chars_union, List.append_assoc, List.cons_append,
      splitTerms_chars_append sign' e, (unsplit_term 0 t).splitTerms_append, Expression.operands,
      List.map_append, List.append_assoc]
    rfl

/-- **A derived text is split into its terms.** -/
theorem splitTerms_chars (e : Expression) : splitTerms 0 e.chars = e.operands.map Term.chars := by
  cases e with
  | term t => exact (unsplit_term 0 t).splitTerms_eq
  | union e sign t =>
    rw [Expression.chars_union, splitTerms_chars_append, (unsplit_term 0 t).splitTerms_eq,
      Expression.operands, List.map_append]
    rfl

/-! ## Any text -/

/-- **Splitting a text** leaves it as it is, or takes off what stands in front of the first union
operator outside of parentheses. -/
theorem splitTerms_cases : ∀ (cs : List Char) (depth : Int), splitTerms depth cs = [cs] ∨
    ∃ t, ∃ sign : UnionSign, ∃ rest, cs = t ++ sign.toChar :: rest ∧
      splitTerms depth t = [t] ∧ splitTerms depth cs = t :: splitTerms 0 rest
  | [], _ => .inl rfl
  | c :: cs, depth => by
    by_cases hc : (c = '+' ∨ c = '|') ∧ depth = 0
    · obtain ⟨hsign, rfl⟩ := hc
      obtain ⟨sign, rfl⟩ : ∃ sign : UnionSign, sign.toChar = c :=
        hsign.elim (fun h => ⟨.plus, h.symm⟩) fun h => ⟨.bar, h.symm⟩
      exact .inr ⟨[], sign, cs, rfl, rfl, splitTerms_sign sign cs⟩
    · rw [splitTerms_cons hc]
      rcases splitTerms_cases cs
        (if c = '(' then depth + 1 else if c = ')' then depth - 1 else depth) with h | h
      · left
        rw [h, List.modifyHead_cons]
      · obtain ⟨t, sign, rest, rfl, ht, hrest⟩ := h
        right
        refine ⟨c :: t, sign, rest, rfl, ?_, ?_⟩
        · rw [splitTerms_cons hc, ht, List.modifyHead_cons]
        · rw [hrest, List.modifyHead_cons]

/-- What holds of texts that are not split and goes from the rest of a text to the text holds of
all texts and their terms. -/
theorem splitTerms_induction {P : List Char → List (List Char) → Prop}
    (single : ∀ t, splitTerms 0 t = [t] → P t [t])
    (cons : ∀ t (sign : UnionSign) rest, splitTerms 0 t = [t] → P rest (splitTerms 0 rest) →
      P (t ++ sign.toChar :: rest) (t :: splitTerms 0 rest)) (cs : List Char) :
    P cs (splitTerms 0 cs) := by
  generalize hn : cs.length = n
  induction n using Nat.strongRecOn generalizing cs with
  | ind n ih =>
    rcases splitTerms_cases cs 0 with h | ⟨t, sign, rest, rfl, ht, h⟩
    · rw [h]
      exact single cs h
    · rw [h]
      refine cons t sign rest ht (ih rest.length ?_ rest rfl)
      rw [← hn, List.length_append, List.length_cons]
      omega

theorem not_isBlank_sign (sign : UnionSign) : Text.isBlank sign.toChar = false := by
  cases sign <;> decide

/-- **Blanks do not matter** for where a text is split. -/
theorem splitTerms_significant : ∀ (cs : List Char) (depth : Int),
    splitTerms depth (significant cs) = (splitTerms depth cs).map significant
  | [], _ => rfl
  | c :: cs, depth => by
    have ih := splitTerms_significant cs
    by_cases hblank : Text.isBlank c = true
    · -- a blank is neither a union operator nor a parenthesis
      have hne {d : Char} (hd : Text.isBlank d = false) : c ≠ d := by
        rintro rfl
        rw [hblank] at hd
        exact nomatch hd
      have hdrop (ds : List Char) : significant (c :: ds) = significant ds :=
        Regex.significant_cons_of_isBlank hblank
      rw [hdrop, ih, splitTerms_cons fun h => h.1.elim (hne (by decide)) (hne (by decide)),
        if_neg (hne (by decide)), if_neg (hne (by decide))]
      cases splitTerms depth cs with
      | nil => rfl
      | cons t ts => rw [List.modifyHead_cons, List.map_cons, List.map_cons, hdrop]
    · have hkeep (ds : List Char) : significant (c :: ds) = c :: significant ds :=
        Regex.significant_cons (Bool.not_eq_true _ ▸ hblank)
      rw [hkeep]
      by_cases hc : (c = '+' ∨ c = '|') ∧ depth = 0
      · rw [splitTerms, if_pos hc, splitTerms, if_pos hc, ih, List.map_cons]
        rfl
      · rw [splitTerms_cons hc, splitTerms_cons hc, ih]
        generalize splitTerms _ cs = terms
        cases terms with
        | nil => rfl
        | cons t ts =>
          rw [List.map_cons, List.modifyHead_cons, List.modifyHead_cons, List.map_cons, hkeep]

/-! ## Reading by terms -/

/-- What is read and not split is derived as a term. -/
theorem exists_term_of_parseChars (hcs : splitTerms 0 cs = [cs]) (h : parseChars cs = .ok r) :
    ∃ t : Term, t.chars = significant cs ∧ t.tree = r := by
  obtain ⟨e, hchars, rfl⟩ := Regex.parseChars_eq_ok_iff_exists_derivation.mp h
  have hterms : e.operands.map Term.chars = [significant cs] := by
    rw [← splitTerms_chars, hchars, splitTerms_significant, hcs, List.map_singleton]
  obtain ⟨t, ts, hoperands, htree⟩ := e.exists_operands
  rw [hoperands, List.map_cons, List.cons.injEq, List.map_eq_nil_iff] at hterms
  obtain ⟨ht, rfl⟩ := hterms
  exact ⟨t, ht, htree⟩

/-- **Terms that are read** are the terms of a derived text. -/
theorem exists_expression_of_terms (cs : List Char) : ∀ rs : List Regex,
    List.Forall₂ (fun t r => parseChars t = .ok r) (splitTerms 0 cs) rs →
      ∃ e : Expression, e.chars = significant cs ∧ e.operands.map Term.tree = rs := by
  induction cs using splitTerms_induction with
  | single t ht =>
    intro rs h
    obtain ⟨r, _, hr, hnil, rfl⟩ := List.forall₂_cons_left_iff.mp h
    obtain rfl := List.forall₂_nil_left_iff.mp hnil
    obtain ⟨u, hchars, rfl⟩ := exists_term_of_parseChars ht hr
    exact ⟨.term u, hchars, rfl⟩
  | cons t sign rest ht ih =>
    intro rs h
    obtain ⟨r, rs, hr, hrest, rfl⟩ := List.forall₂_cons_left_iff.mp h
    obtain ⟨u, hu, rfl⟩ := exists_term_of_parseChars ht hr
    obtain ⟨e, he, rfl⟩ := ih rs hrest
    refine ⟨e.behind u sign, ?_, ?_⟩
    · rw [Expression.chars_behind, hu, he, Regex.significant_append,
        Regex.significant_cons (not_isBlank_sign sign)]
    · rw [Expression.operands_behind, List.map_cons]

/-- **Reading a text is reading its terms.** The tree is the union of the trees of the terms,
associated to the left. -/
theorem parseChars_eq_ok_iff_terms : parseChars cs = .ok r ↔ ∃ s ss,
    (splitTerms 0 cs).mapM parseChars = .ok (s :: ss) ∧ ss.foldl Regex.union s = r := by
  simp only [mapM_eq_ok_iff]
  constructor
  · intro h
    obtain ⟨e, hchars, rfl⟩ := Regex.parseChars_eq_ok_iff_exists_derivation.mp h
    obtain ⟨t, ts, hoperands, htree⟩ := e.exists_operands
    have hterms : (splitTerms 0 cs).map significant = (t :: ts).map Term.chars := by
      rw [← splitTerms_significant, ← hchars, splitTerms_chars, hoperands]
    refine ⟨t.tree, ts.map Term.tree, ?_, htree⟩
    rw [← List.map_cons (f := Term.tree), List.forall₂_map_right_iff]
    rw [← List.forall₂_eq_eq_eq, List.forall₂_map_left_iff, List.forall₂_map_right_iff] at hterms
    refine hterms.imp fun text u hu => ?_
    exact Regex.parseChars_eq_ok_iff_exists_derivation.mpr ⟨.term u, hu.symm, rfl⟩
  · rintro ⟨s, ss, h, rfl⟩
    obtain ⟨e, hchars, htrees⟩ := exists_expression_of_terms cs _ h
    obtain ⟨t, ts, hoperands, htree⟩ := e.exists_operands
    rw [hoperands, List.map_cons, List.cons.injEq] at htrees
    obtain ⟨rfl, rfl⟩ := htrees
    exact Regex.parseChars_eq_ok_iff_exists_derivation.mpr ⟨e, hchars, htree.symm⟩

end EquationSystem

end RegularLanguages
