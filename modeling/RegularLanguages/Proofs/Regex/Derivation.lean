import RegularLanguages.Proofs.Regex.Parsing
import RegularLanguages.Regex.Derivation
import RegularLanguages.Regex.Descent

/-!
# The grammar is unambiguous

The end of a text tells which rule comes last: a factor with a star ends with it, any other one
with its atom, and a group with its closing parenthesis. So derivations are compared from the
right. What stands in front must not belong to the derivation, which is so at the start of the
text and behind an opening parenthesis, for a term also behind the sign of a union
(`Expression.Starts`, `Term.Starts`). A factor has no such condition.

Results:
* `Factor.unique`, `Term.unique`, `Expression.unique`: two derivations at the end of one list of
  tokens are the same, and so is what stands in front of them.
* **`Expression.eq_of_chars`**: a text has at most one derivation.
* `isExpression_iff`: the derivations are those of the grammar relation.
-/

namespace RegularLanguages.Regex

/-! ## Tokens are determined by their characters -/

namespace Token

variable {t u : Token} {ts us : List Token}

theorem toChar_injective (ht : t.Readable) (hu : u.Readable) (h : t.toChar = u.toChar) :
    t = u := by
  have hread := ht.2
  rw [h, hu.2] at hread
  exact (Option.some.inj hread).symm

theorem map_toChar_injective : ∀ {ts us : List Token}, (∀ t ∈ ts, t.Readable) →
    (∀ u ∈ us, u.Readable) → ts.map toChar = us.map toChar → ts = us
  | [], _, _, _, h => (List.map_eq_nil_iff.mp h.symm).symm
  | t :: ts, us, ht, hu, h => by
    obtain ⟨u, us, rfl, htu, htail⟩ := List.map_eq_cons_iff.mp h.symm
    obtain ⟨ht, hts⟩ := List.forall_mem_cons.mp ht
    obtain ⟨hu, hus⟩ := List.forall_mem_cons.mp hu
    rw [toChar_injective ht hu htu.symm, map_toChar_injective hts hus htail.symm]

theorem readable_union (sign : UnionSign) : (union sign.toChar).Readable := by
  cases sign <;> exact ⟨by decide, by decide⟩

theorem readable_symbol_of_isSymbol {c : Char} (h : isSymbol c = true) : (symbol c).Readable := by
  obtain ⟨hc, hε⟩ := (Bool.and_eq_true _ _).mp h
  exact readable_symbol hc (of_decide_eq_true hε)

theorem isSymbol_of_readable {c : Char} (h : (symbol c).Readable) : isSymbol c = true := by
  have hread := h.2
  unfold ofChar? at hread
  grind [isSymbol, toChar]

theorem exists_sign {c : Char} (h : (union c).Readable) : ∃ sign : UnionSign, sign.toChar = c := by
  have hread := h.2
  unfold ofChar? at hread
  have hc : c = '+' ∨ c = '|' := by grind [toChar]
  rcases hc with rfl | rfl
  · exact ⟨.plus, rfl⟩
  · exact ⟨.bar, rfl⟩

end Token

theorem UnionSign.toChar_injective {s s' : UnionSign} (h : s.toChar = s'.toChar) : s = s' := by
  cases s <;> cases s' <;> first | rfl | exact absurd h (by decide)

namespace Derivation

open Token (endsOperand)

variable {pre pre' : List Token}

/-! ## What stands at the ends of a derivation -/

/-- A term can start behind these tokens. -/
def Term.Starts (pre : List Token) : Prop :=
  ∀ t ∈ pre.getLast?, t = .opening ∨ ∃ c, t = .union c

/-- An expression can start behind these tokens. -/
def Expression.Starts (pre : List Token) : Prop := ∀ t ∈ pre.getLast?, t = .opening

theorem Expression.Starts.term (h : Expression.Starts pre) : Term.Starts pre :=
  fun t ht => Or.inl (h t ht)

@[simp] theorem Term.starts_concat {t : Token} :
    Term.Starts (pre ++ [t]) ↔ t = .opening ∨ ∃ c, t = .union c := by
  simp [Term.Starts]

@[simp] theorem Expression.starts_concat {t : Token} :
    Expression.Starts (pre ++ [t]) ↔ t = .opening := by
  simp [Expression.Starts]

/-- The token that an atom ends with. -/
def Atom.lastToken : Atom → Token
  | .symbol c _ => .symbol c
  | .epsilon => .epsilon
  | .group _ => .closing

theorem Atom.exists_end (a : Atom) : ∃ ts, a.tokens = ts ++ [a.lastToken] := by
  cases a with
  | symbol c h => exact ⟨[], rfl⟩
  | epsilon => exact ⟨[], rfl⟩
  | group e => exact ⟨.opening :: e.tokens, by rw [Atom.tokens, Atom.lastToken]⟩

theorem Atom.lastToken_unique {a a' : Atom} (h : pre ++ a.tokens = pre' ++ a'.tokens) :
    a.lastToken = a'.lastToken := by
  obtain ⟨ts, ha⟩ := a.exists_end
  obtain ⟨ts', ha'⟩ := a'.exists_end
  rw [ha, ha', ← List.append_assoc, ← List.append_assoc, List.append_singleton_inj] at h
  exact h.2

theorem Atom.endsOperand_lastToken (a : Atom) : endsOperand a.lastToken = true := by
  cases a <;> rfl

theorem Atom.lastToken_ne_star (a : Atom) : a.lastToken ≠ .star := by
  cases a <;> simp [Atom.lastToken]

theorem Factor.exists_end (f : Factor) : ∃ ts t, f.tokens = ts ++ [t] ∧ endsOperand t = true := by
  cases f with
  | atom a =>
    obtain ⟨ts, h⟩ := a.exists_end
    exact ⟨ts, a.lastToken, by rw [Factor.tokens, h], a.endsOperand_lastToken⟩
  | star f => exact ⟨f.tokens, .star, by rw [Factor.tokens], rfl⟩

theorem Term.exists_end (t : Term) : ∃ ts u, t.tokens = ts ++ [u] ∧ endsOperand u = true := by
  cases t with
  | factor f =>
    obtain ⟨ts, u, h, hu⟩ := f.exists_end
    exact ⟨ts, u, by rw [Term.tokens, h], hu⟩
  | concat t dotted f =>
    obtain ⟨ts, u, h, hu⟩ := f.exists_end
    exact ⟨t.tokens ++ dotTokens dotted ++ ts, u, by rw [Term.tokens, h, List.append_assoc _ ts],
      hu⟩

/-- No term starts behind a term, whether a dot is in between or not. -/
theorem Term.not_starts (t : Term) (dotted : Bool) :
    ¬ Term.Starts (pre ++ t.tokens ++ dotTokens dotted) := by
  cases dotted with
  | true =>
    rw [dotTokens, if_pos rfl, Term.starts_concat]
    simp
  | false =>
    obtain ⟨ts, u, h, hu⟩ := t.exists_end
    rw [dotTokens, if_neg (by simp), List.append_nil, h, ← List.append_assoc, Term.starts_concat]
    rintro (rfl | ⟨c, rfl⟩)
    · exact absurd hu Bool.false_ne_true
    · exact absurd hu Bool.false_ne_true

/-- The dot between two operands shows whether it is written. -/
theorem Term.dotted_unique {t t' : Term} {dotted dotted' : Bool}
    (h : pre ++ t.tokens ++ dotTokens dotted = pre' ++ t'.tokens ++ dotTokens dotted') :
    pre ++ t.tokens = pre' ++ t'.tokens ∧ dotted = dotted' := by
  have hend {pre pre' : List Token} {t : Term} : pre ++ t.tokens ≠ pre' ++ [.dot] := by
    obtain ⟨ts, u, h, hu⟩ := t.exists_end
    rw [h, ← List.append_assoc]
    intro he
    obtain rfl := (List.append_singleton_inj.mp he).2
    exact absurd hu Bool.false_ne_true
  cases dotted <;> cases dotted' <;> simp only [dotTokens, Bool.false_eq_true, ↓reduceIte,
    List.append_nil, List.append_singleton_inj, and_true] at h ⊢
  · exact h
  · exact absurd h hend
  · exact absurd h.symm hend
  · exact h

theorem starts_behind_sign (pre ts : List Token) {sign : UnionSign} :
    Term.Starts (pre ++ (ts ++ [.union sign.toChar])) := by
  rw [← List.append_assoc, Term.starts_concat]
  exact Or.inr ⟨_, rfl⟩

/-! ## Two derivations at the end of one list of tokens -/

mutual

theorem Expression.unique : ∀ (e e' : Expression) {pre pre' : List Token},
    Expression.Starts pre → Expression.Starts pre' → pre ++ e.tokens = pre' ++ e'.tokens →
      pre = pre' ∧ e = e'
  | .term t, .term t', pre, pre', hpre, hpre', h => by
    obtain ⟨rfl, rfl⟩ := Term.unique t t' hpre.term hpre'.term h
    exact ⟨rfl, rfl⟩
  | .term t, .union e' sign' t', pre, pre', hpre, _, h => by
    rw [Expression.tokens, Expression.tokens, List.append_cons, ← List.append_assoc] at h
    obtain ⟨rfl, -⟩ := Term.unique t t' hpre.term (starts_behind_sign _ _) h
    rw [← List.append_assoc, Expression.starts_concat] at hpre
    exact absurd hpre (by simp)
  | .union e sign t, .term t', pre, pre', _, hpre', h => by
    rw [Expression.tokens, Expression.tokens, List.append_cons, ← List.append_assoc] at h
    obtain ⟨rfl, -⟩ := Term.unique t t' (starts_behind_sign _ _) hpre'.term h
    rw [← List.append_assoc, Expression.starts_concat] at hpre'
    exact absurd hpre' (by simp)
  | .union e sign t, .union e' sign' t', pre, pre', hpre, hpre', h => by
    rw [Expression.tokens, Expression.tokens, List.append_cons, List.append_cons e'.tokens,
      ← List.append_assoc, ← List.append_assoc pre'] at h
    obtain ⟨hfront, rfl⟩ := Term.unique t t' (starts_behind_sign _ _) (starts_behind_sign _ _) h
    rw [← List.append_assoc, ← List.append_assoc, List.append_singleton_inj] at hfront
    obtain ⟨hfront, hsign⟩ := hfront
    obtain ⟨rfl, rfl⟩ := Expression.unique e e' hpre hpre' hfront
    obtain rfl := UnionSign.toChar_injective (Token.union.inj hsign)
    exact ⟨rfl, rfl⟩

theorem Term.unique : ∀ (t t' : Term) {pre pre' : List Token},
    Term.Starts pre → Term.Starts pre' → pre ++ t.tokens = pre' ++ t'.tokens →
      pre = pre' ∧ t = t'
  | .factor f, .factor f', pre, pre', _, _, h => by
    obtain ⟨rfl, rfl⟩ := Factor.unique f f' h
    exact ⟨rfl, rfl⟩
  | .factor f, .concat t' dotted' f', pre, pre', hpre, _, h => by
    rw [Term.tokens, Term.tokens, ← List.append_assoc, ← List.append_assoc] at h
    obtain ⟨rfl, -⟩ := Factor.unique f f' h
    exact absurd hpre (t'.not_starts dotted')
  | .concat t dotted f, .factor f', pre, pre', _, hpre', h => by
    rw [Term.tokens, Term.tokens, ← List.append_assoc, ← List.append_assoc] at h
    obtain ⟨rfl, -⟩ := Factor.unique f f' h
    exact absurd hpre' (t.not_starts dotted)
  | .concat t dotted f, .concat t' dotted' f', pre, pre', hpre, hpre', h => by
    rw [Term.tokens, Term.tokens, ← List.append_assoc, ← List.append_assoc, ← List.append_assoc,
      ← List.append_assoc] at h
    obtain ⟨hbefore, rfl⟩ := Factor.unique f f' h
    obtain ⟨hfront, rfl⟩ := Term.dotted_unique hbefore
    obtain ⟨rfl, rfl⟩ := Term.unique t t' hpre hpre' hfront
    exact ⟨rfl, rfl⟩

theorem Factor.unique : ∀ (f f' : Factor) {pre pre' : List Token},
    pre ++ f.tokens = pre' ++ f'.tokens → pre = pre' ∧ f = f'
  | .atom a, .atom a', pre, pre', h => by
    obtain ⟨rfl, rfl⟩ := Atom.unique a a' h
    exact ⟨rfl, rfl⟩
  | .atom a, .star f', pre, pre', h => by
    obtain ⟨ts, ha⟩ := a.exists_end
    rw [Factor.tokens, Factor.tokens, ha, ← List.append_assoc, ← List.append_assoc] at h
    exact absurd (List.append_singleton_inj.mp h).2 a.lastToken_ne_star
  | .star f, .atom a', pre, pre', h => by
    obtain ⟨ts, ha⟩ := a'.exists_end
    rw [Factor.tokens, Factor.tokens, ha, ← List.append_assoc, ← List.append_assoc] at h
    exact absurd (List.append_singleton_inj.mp h).2.symm a'.lastToken_ne_star
  | .star f, .star f', pre, pre', h => by
    rw [Factor.tokens, Factor.tokens, ← List.append_assoc, ← List.append_assoc] at h
    obtain ⟨rfl, rfl⟩ := Factor.unique f f' (List.append_singleton_inj.mp h).1
    exact ⟨rfl, rfl⟩

theorem Atom.unique : ∀ (a a' : Atom) {pre pre' : List Token},
    pre ++ a.tokens = pre' ++ a'.tokens → pre = pre' ∧ a = a'
  | .group e, .group e', pre, pre', h => by
    rw [Atom.tokens, Atom.tokens, ← List.append_assoc, ← List.append_assoc] at h
    have h := (List.append_singleton_inj.mp h).1
    rw [List.append_cons, List.append_cons pre'] at h
    obtain ⟨hpre, rfl⟩ := Expression.unique e e' (Expression.starts_concat.mpr rfl)
      (Expression.starts_concat.mpr rfl) h
    exact ⟨(List.append_singleton_inj.mp hpre).1, rfl⟩
  | .symbol c hc, .symbol c' hc', pre, pre', h => by
    obtain ⟨rfl, hsymbol⟩ := List.append_singleton_inj.mp h
    obtain rfl := Token.symbol.inj hsymbol
    exact ⟨rfl, rfl⟩
  | .epsilon, .epsilon, pre, pre', h => ⟨(List.append_singleton_inj.mp h).1, rfl⟩
  | .symbol _ _, .epsilon, _, _, h => nomatch Atom.lastToken_unique h
  | .symbol _ _, .group _, _, _, h => nomatch Atom.lastToken_unique h
  | .epsilon, .symbol _ _, _, _, h => nomatch Atom.lastToken_unique h
  | .epsilon, .group _, _, _, h => nomatch Atom.lastToken_unique h
  | .group _, .symbol _ _, _, _, h => nomatch Atom.lastToken_unique h
  | .group _, .epsilon, _, _, h => nomatch Atom.lastToken_unique h

end

/-! ## Derivations and the grammar relation -/

theorem readable_of_mem_dotTokens {dotted : Bool} : ∀ t ∈ dotTokens dotted, t.Readable := by
  intro t ht
  cases dotted with
  | true =>
    obtain rfl := List.mem_singleton.mp ht
    exact ⟨by decide, by decide⟩
  | false => exact absurd ht List.not_mem_nil

mutual

theorem Expression.readable : ∀ e : Expression, ∀ t ∈ e.tokens, t.Readable
  | .term t => t.readable
  | .union e sign t => by
    rw [Expression.tokens, List.forall_mem_append, List.forall_mem_cons]
    exact ⟨e.readable, Token.readable_union sign, t.readable⟩

theorem Term.readable : ∀ t : Term, ∀ u ∈ t.tokens, u.Readable
  | .factor f => f.readable
  | .concat t dotted f => by
    rw [Term.tokens, List.forall_mem_append, List.forall_mem_append]
    exact ⟨⟨t.readable, readable_of_mem_dotTokens⟩, f.readable⟩

theorem Factor.readable : ∀ f : Factor, ∀ t ∈ f.tokens, t.Readable
  | .atom a => a.readable
  | .star f => by
    rw [Factor.tokens, List.forall_mem_append, List.forall_mem_singleton]
    exact ⟨f.readable, by decide, by decide⟩

theorem Atom.readable : ∀ a : Atom, ∀ t ∈ a.tokens, t.Readable
  | .symbol c h => by
    rw [Atom.tokens, List.forall_mem_singleton]
    exact Token.readable_symbol_of_isSymbol h
  | .epsilon => by
    rw [Atom.tokens, List.forall_mem_singleton]
    exact Token.readable_epsilon
  | .group e => by
    rw [Atom.tokens, List.forall_mem_append, List.forall_mem_cons, List.forall_mem_singleton]
    exact ⟨⟨⟨by decide, by decide⟩, e.readable⟩, by decide, by decide⟩

end

/-- The characters of the text of a term. -/
def Term.chars (t : Term) : List Char := t.tokens.map Token.toChar

theorem Expression.chars_union (e : Expression) (sign : UnionSign) (t : Term) :
    (e.union sign t).chars = e.chars ++ sign.toChar :: t.chars := List.map_append

/-- **A text has at most one derivation.** -/
theorem Expression.eq_of_chars {e e' : Expression} (h : e.chars = e'.chars) : e = e' := by
  have hstart : Expression.Starts [] := by simp [Expression.Starts]
  have htokens : [] ++ e.tokens = [] ++ e'.tokens :=
    Token.map_toChar_injective e.readable e'.readable h
  exact (Expression.unique e e' hstart hstart htokens).2

mutual

theorem Expression.isExpression : ∀ e : Expression, IsExpression e.tokens e.tree
  | .term t => .term t.isTerm
  | .union e sign t => .union sign.toChar e.isExpression t.isTerm

theorem Term.isTerm : ∀ t : Term, IsTerm t.tokens t.tree
  | .factor f => .factor f.isFactor
  | .concat t true f => by
    rw [Term.tokens, List.append_assoc]
    exact .dotted t.isTerm f.isFactor
  | .concat t false f => by
    rw [Term.tokens, List.append_assoc]
    exact .juxtaposed t.isTerm f.isFactor

theorem Factor.isFactor : ∀ f : Factor, IsFactor f.tokens f.tree
  | .atom a => .atom a.isAtom
  | .star f => .star f.isFactor

theorem Atom.isAtom : ∀ a : Atom, IsAtom a.tokens a.tree
  | .symbol c _ => .symbol c
  | .epsilon => .epsilon
  | .group e => .group e.isExpression

end

mutual

theorem exists_expression {ts : List Token} {r : Regex} : IsExpression ts r →
    (∀ t ∈ ts, t.Readable) → ∃ e : Expression, e.tokens = ts ∧ e.tree = r
  | .term h, hts => by
    obtain ⟨t, rfl, rfl⟩ := exists_term h hts
    exact ⟨.term t, rfl, rfl⟩
  | .union c hl hr, hts => by
    obtain ⟨hls, hbehind⟩ := List.forall_mem_append.mp hts
    obtain ⟨hc, hrs⟩ := List.forall_mem_cons.mp hbehind
    obtain ⟨e, rfl, rfl⟩ := exists_expression hl hls
    obtain ⟨t, rfl, rfl⟩ := exists_term hr hrs
    obtain ⟨sign, rfl⟩ := Token.exists_sign hc
    exact ⟨.union e sign t, rfl, rfl⟩

theorem exists_term {ts : List Token} {r : Regex} : IsTerm ts r →
    (∀ t ∈ ts, t.Readable) → ∃ t : Term, t.tokens = ts ∧ t.tree = r
  | .factor h, hts => by
    obtain ⟨f, rfl, rfl⟩ := exists_factor h hts
    exact ⟨.factor f, rfl, rfl⟩
  | .dotted hl hr, hts => by
    obtain ⟨hls, hbehind⟩ := List.forall_mem_append.mp hts
    obtain ⟨t, rfl, rfl⟩ := exists_term hl hls
    obtain ⟨f, rfl, rfl⟩ := exists_factor hr (List.forall_mem_cons.mp hbehind).2
    exact ⟨.concat t true f, by rw [Term.tokens, List.append_assoc]; rfl, rfl⟩
  | .juxtaposed hl hr, hts => by
    obtain ⟨hls, hrs⟩ := List.forall_mem_append.mp hts
    obtain ⟨t, rfl, rfl⟩ := exists_term hl hls
    obtain ⟨f, rfl, rfl⟩ := exists_factor hr hrs
    exact ⟨.concat t false f, by rw [Term.tokens, List.append_assoc]; rfl, rfl⟩

theorem exists_factor {ts : List Token} {r : Regex} : IsFactor ts r →
    (∀ t ∈ ts, t.Readable) → ∃ f : Factor, f.tokens = ts ∧ f.tree = r
  | .atom h, hts => by
    obtain ⟨a, rfl, rfl⟩ := exists_atom h hts
    exact ⟨.atom a, rfl, rfl⟩
  | .star h, hts => by
    obtain ⟨f, rfl, rfl⟩ := exists_factor h (List.forall_mem_append.mp hts).1
    exact ⟨.star f, rfl, rfl⟩

theorem exists_atom {ts : List Token} {r : Regex} : IsAtom ts r →
    (∀ t ∈ ts, t.Readable) → ∃ a : Atom, a.tokens = ts ∧ a.tree = r
  | .symbol c, hts => ⟨.symbol c (Token.isSymbol_of_readable (hts _ List.mem_cons_self)), rfl, rfl⟩
  | .epsilon, _ => ⟨.epsilon, rfl, rfl⟩
  | .group h, hts => by
    obtain ⟨hinner, _⟩ := List.forall_mem_append.mp hts
    obtain ⟨e, rfl, rfl⟩ := exists_expression h (List.forall_mem_cons.mp hinner).2
    exact ⟨.group e, rfl, rfl⟩

end

/-- **The grammar relation holds of what has a derivation.** -/
theorem isExpression_iff {ts : List Token} {r : Regex} (hts : ∀ t ∈ ts, t.Readable) :
    IsExpression ts r ↔ ∃ e : Expression, e.tokens = ts ∧ e.tree = r := by
  constructor
  · intro h
    exact exists_expression h hts
  · rintro ⟨e, rfl, rfl⟩
    exact e.isExpression

end Derivation

end RegularLanguages.Regex
