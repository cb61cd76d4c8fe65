import RegularLanguages.Equation.Parser
import RegularLanguages.Proofs.Regex.Characters
import RegularLanguages.Proofs.Regex.Derivation
import RegularLanguages.Proofs.Text.Lines

/-!
# Where a right hand side is split

A right hand side is split at the union operators outside of parentheses. In the grammar, a union
that is an operand stands in parentheses, so a derived expression is split between its terms only.
The text of an expression follows the grammar: it is split into its union terms, and terms joined
by `+` are split where they have been joined.

Results:
* **`unsplit_expression`**, `unsplit_term`: what the grammar derives is not split inside of
  parentheses, and a term nowhere.
* `unsplit_guarded`: nor is the text of an expression that is no union.
* `splits_chars`: the text of an expression is split into its union terms.
* **`splits_intercalate`**: joined texts are split where they have been joined.
-/

namespace RegularLanguages.EquationSystem

open Regex (Token UnionSign)
open Regex.Derivation (Expression Term Factor Atom)

variable {cs ds : List Char} {d : Char} {r : Regex}

/-! ## Texts that are not split -/

/-- The text is not split where `depth` parentheses are open, and closes those it opens. -/
def Unsplit (depth : Nat) (cs : List Char) : Prop := ∀ rest,
  splitTerms depth (cs ++ rest) = (splitTerms depth rest).modifyHead (cs ++ ·)

theorem Unsplit.append {depth : Nat} (hcs : Unsplit depth cs) (hds : Unsplit depth ds) :
    Unsplit depth (cs ++ ds) := by
  intro rest
  rw [List.append_assoc, hcs, hds, List.modifyHead_modifyHead]
  congr 1
  funext term
  exact (List.append_assoc cs ds term).symm

theorem splitTerms_ne_nil (depth : Int) : ∀ cs, splitTerms depth cs ≠ []
  | [] => by simp [splitTerms]
  | d :: cs => by
    rw [splitTerms]
    split
    · simp
    · dsimp only
      split <;> simp

/-- A character at which nothing is split stays with what follows. -/
theorem splitTerms_cons {depth : Int} (h : ¬ ((d = '+' ∨ d = '|') ∧ depth = 0)) :
    splitTerms depth (d :: cs) =
      (splitTerms (if d = '(' then depth + 1 else if d = ')' then depth - 1 else depth)
        cs).modifyHead (d :: ·) := by
  rw [splitTerms, if_neg h]
  dsimp only
  split
  · rename_i hnil
    exact absurd hnil (splitTerms_ne_nil _ _)
  · rename_i hcons
    rw [hcons]
    rfl

/-- Characters that are neither parentheses nor union operators. -/
theorem unsplit_of_forall {depth : Nat} (h : ∀ d ∈ cs, d ≠ '+' ∧ d ≠ '|' ∧ d ≠ '(' ∧ d ≠ ')') :
    Unsplit depth cs := by
  intro rest
  induction cs with
  | nil => exact (congrFun List.modifyHead_id _).symm
  | cons d cs ih =>
    obtain ⟨⟨hplus, hbar, hopen, hclose⟩, hcs⟩ := List.forall_mem_cons.mp h
    rw [List.cons_append, splitTerms_cons (fun hd => hd.1.elim hplus hbar), if_neg hopen,
      if_neg hclose, ih hcs, List.modifyHead_modifyHead]
    rfl

theorem unsplit_singleton {depth : Nat} (h : d ≠ '+' ∧ d ≠ '|' ∧ d ≠ '(' ∧ d ≠ ')') :
    Unsplit depth [d] :=
  unsplit_of_forall (List.forall_mem_singleton.mpr h)

/-- Inside of parentheses a union operator is a character like others. -/
theorem unsplit_sign (sign : UnionSign) {depth : Nat} (h : depth ≠ 0) :
    Unsplit depth [sign.toChar] := by
  intro rest
  cases sign
  all_goals
    rw [List.singleton_append, splitTerms_cons (fun hd => h (by exact_mod_cast hd.2))]
    rfl

theorem Unsplit.parentheses {depth : Nat} (h : Unsplit (depth + 1) cs) :
    Unsplit depth ('(' :: cs ++ [')']) := by
  intro rest
  have hopen : splitTerms depth ('(' :: (cs ++ ')' :: rest)) =
      (splitTerms ↑(depth + 1) (cs ++ ')' :: rest)).modifyHead ('(' :: ·) :=
    splitTerms_cons (by simp)
  have hclose : splitTerms ↑(depth + 1) (')' :: rest) =
      (splitTerms depth rest).modifyHead (')' :: ·) := by
    rw [splitTerms_cons (by simp), if_neg (by decide), if_pos rfl]
    congr 2
    omega
  rw [List.append_assoc, List.singleton_append, List.cons_append, hopen, h, hclose,
    List.modifyHead_modifyHead, List.modifyHead_modifyHead]
  simp [Function.comp_def]

theorem unsplit_of_isAlphanumeric {depth : Nat} (h : ∀ d ∈ cs, Text.isAlphanumeric d = true) :
    Unsplit depth cs := by
  refine unsplit_of_forall fun d hd => ?_
  have hne {e : Char} := Text.ne_of_isAlphanumeric (h d hd) (d := e)
  exact ⟨hne (by decide +kernel), hne (by decide +kernel), hne (by decide +kernel),
    hne (by decide +kernel)⟩

/-! ## Texts that the grammar derives -/

mutual

/-- **Only the outermost unions of an expression are split.** -/
theorem unsplit_expression {depth : Nat} (h : depth ≠ 0) : ∀ e : Expression,
    Unsplit depth e.chars
  | .term t => unsplit_term depth t
  | .union e sign t => by
    rw [Expression.chars_union]
    exact (unsplit_expression h e).append ((unsplit_sign sign h).append (unsplit_term depth t))

theorem unsplit_term (depth : Nat) : ∀ t : Term, Unsplit depth t.chars
  | .factor f => unsplit_factor depth f
  | .concat t dotted f => by
    have hdot : Unsplit depth ((Regex.Derivation.dotTokens dotted).map Token.toChar) := by
      cases dotted
      · exact unsplit_of_forall (List.forall_mem_nil _)
      · exact unsplit_singleton (by decide)
    have hchars : (Term.concat t dotted f).chars = t.chars ++
        (Regex.Derivation.dotTokens dotted).map Token.toChar ++ f.tokens.map Token.toChar := by
      simp only [Term.chars, Term.tokens, List.map_append]
    rw [hchars]
    exact ((unsplit_term depth t).append hdot).append (unsplit_factor depth f)

theorem unsplit_factor (depth : Nat) : ∀ f : Factor, Unsplit depth (f.tokens.map Token.toChar)
  | .atom a => unsplit_atom depth a
  | .star f => by
    rw [Factor.tokens, List.map_append]
    exact (unsplit_factor depth f).append (unsplit_singleton (by decide))

theorem unsplit_atom (depth : Nat) : ∀ a : Atom, Unsplit depth (a.tokens.map Token.toChar)
  | .symbol c h => unsplit_of_isAlphanumeric
      (List.forall_mem_singleton.mpr ((Bool.and_eq_true _ _).mp h).1)
  | .epsilon => unsplit_singleton (by decide)
  | .group e => by
    rw [Atom.tokens, List.map_append]
    exact (unsplit_expression (Nat.succ_ne_zero depth) e).parentheses

end

/-- **The text of an expression** is split nowhere if it is no union or stands in parentheses. -/
theorem unsplit_guarded (h : r.Writable) (depth : Nat) :
    Unsplit depth (Regex.guarded 1 r r.chars) := by
  obtain ⟨t, ht, -⟩ := Regex.Derivation.exists_term (Regex.printed r).term
    (Regex.readable_of_mem_guardedTokens (Regex.readable_of_mem_tokens h))
  have hchars : t.chars = Regex.guarded 1 r r.chars := by
    rw [Term.chars, ht, Regex.map_toChar_guardedTokens, Regex.map_toChar_tokens]
  rw [← hchars]
  exact unsplit_term depth t

/-! ## Texts in front of others -/

theorem splitTerms_sign (sign : UnionSign) (cs : List Char) :
    splitTerms 0 (sign.toChar :: cs) = [] :: splitTerms 0 cs := by
  cases sign <;> exact if_pos ⟨by decide, rfl⟩

theorem Unsplit.splitTerms_eq (h : Unsplit 0 cs) : splitTerms 0 cs = [cs] := by
  have hnil : splitTerms 0 (cs ++ []) = (splitTerms 0 []).modifyHead (cs ++ ·) := h []
  rw [List.append_nil] at hnil
  rw [hnil, splitTerms, List.modifyHead_cons, List.append_nil]

/-- What is not split is a term of its own in front of a union operator. -/
theorem Unsplit.splitTerms_append (h : Unsplit 0 cs) (sign : UnionSign) (rest : List Char) :
    splitTerms 0 (cs ++ sign.toChar :: rest) = cs :: splitTerms 0 rest := by
  have hrest : splitTerms 0 (cs ++ sign.toChar :: rest) =
      (splitTerms 0 (sign.toChar :: rest)).modifyHead (cs ++ ·) := h _
  rw [hrest, splitTerms_sign, List.modifyHead_cons, List.append_nil]

/-! ## The terms of a text -/

/-- Up to blanks around them, the terms of the text, by itself and in front of other terms. -/
structure Splits (cs : List Char) (terms : List (List Char)) : Prop where
  atEnd : (splitTerms 0 cs).map Text.trim = terms.map Text.trim
  before : ∀ rest, (splitTerms 0 (cs ++ '+' :: rest)).map Text.trim =
    terms.map Text.trim ++ (splitTerms 0 rest).map Text.trim

theorem splits_of_unsplit (h : Unsplit 0 cs) : Splits cs [cs] :=
  ⟨congrArg (List.map Text.trim) h.splitTerms_eq,
    fun rest => congrArg (List.map Text.trim) (h.splitTerms_append .plus rest)⟩

theorem Splits.plus {terms terms' : List (List Char)} (hcs : Splits cs terms)
    (hds : Splits ds terms') : Splits (cs ++ '+' :: ds) (terms ++ terms') := by
  constructor
  · rw [hcs.before, hds.atEnd, List.map_append]
  · intro rest
    rw [List.append_assoc, List.cons_append, hcs.before, hds.before, List.map_append,
      List.append_assoc]

/-- A blank in front belongs to the first term. -/
theorem Splits.blank {terms : List (List Char)} (h : Splits cs terms) :
    Splits (' ' :: cs) terms := by
  have hblank (cs : List Char) : (splitTerms 0 (' ' :: cs)).map Text.trim =
      (splitTerms 0 cs).map Text.trim := by
    rw [splitTerms_cons (by decide), if_neg (by decide), if_neg (by decide)]
    cases splitTerms 0 cs <;> rfl
  constructor
  · rw [hblank, h.atEnd]
  · intro rest
    rw [List.cons_append, hblank, h.before]

/-- **The text of an expression is split into its union terms.** -/
theorem splits_chars : ∀ {r : Regex}, r.Writable → Splits r.chars (r.unionTerms.map Regex.chars)
  | .union l r, h => by
    obtain ⟨hl, hr⟩ := List.forall_mem_append.mp h
    rw [Regex.unionTerms, List.map_append]
    exact (splits_chars hl).plus (splits_chars hr)
  | .epsilon, h => splits_of_unsplit (unsplit_guarded h 0)
  | .symbol _, h => splits_of_unsplit (unsplit_guarded h 0)
  | .concat _ _, h => splits_of_unsplit (unsplit_guarded h 0)
  | .star _, h => splits_of_unsplit (unsplit_guarded h 0)

/-- A text that is neither split nor padded is one term, also with a blank behind it. -/
theorem splits_blank_behind (h : Unsplit 0 cs) (hne : cs ≠ []) (htrim : Text.Trimmed cs) :
    Splits (cs ++ [' ']) [cs] := by
  have hblank : Unsplit 0 [' '] := unsplit_singleton (by decide)
  have hsplits := splits_of_unsplit (h.append hblank)
  have hterms : [cs ++ [' ']].map Text.trim = [cs].map Text.trim := by
    rw [List.map_singleton, List.map_singleton, htrim.trim_eq, htrim.trim_append_blank hne]
  exact ⟨hterms ▸ hsplits.atEnd, hterms ▸ hsplits.before⟩

/-- **A joined text is split into what it has been joined from**, the last part further. -/
theorem splits_intercalate {last : List Char} {terms : List (List Char)}
    (hlast : Splits last terms) : ∀ {texts : List (List Char)},
    (∀ text ∈ texts, Splits (text ++ [' ']) [text]) →
      Splits ([' ', '+', ' '].intercalate (texts ++ [last])) (texts ++ terms)
  | [], _ => by
    rw [List.nil_append, List.intercalate_singleton]
    exact hlast
  | text :: texts, h => by
    obtain ⟨htext, htexts⟩ := List.forall_mem_cons.mp h
    have hrest := htext.plus (splits_intercalate hlast htexts).blank
    obtain ⟨next, rest, hnext⟩ : ∃ next rest, texts ++ [last] = next :: rest :=
      List.exists_cons_of_ne_nil (by simp)
    rw [List.cons_append, hnext, List.intercalate_cons_cons, ← hnext]
    simpa using hrest

end RegularLanguages.EquationSystem
