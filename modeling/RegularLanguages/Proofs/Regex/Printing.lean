import RegularLanguages.Proofs.Regex.Parsing
import RegularLanguages.Proofs.Regex.Simplification
import RegularLanguages.Regex.Printer

/-!
# A printed expression is read as the same chains

An operand is printed without parentheses where it binds strongly enough, so the operands of a
chain of unions or of concatenations stand next to each other, whichever way the chain was
associated. The grammar associates chains to the left, and this is all that printing and reading
change (`leftAssociated`).

The induction over the expression carries what the text is in each place where it can be
printed: as a whole or behind other alternatives, as a term or behind other factors, and as a
factor (`Printed`).

Results:
* `matches_leftAssociated`: the language stays.
* **`printed`**: the tokens of a text derive the expression associated to the left.
* **`parse_toText`**: the text of an expression over letters and digits is read.
-/

namespace RegularLanguages.Regex

variable {l m r : Regex} {w : Word}

/-! ## Associating chains to the left -/

/-- A chain of unions behind `l`, its alternatives added one after the other. -/
def unionOnto (l : Regex) : Regex → Regex
  | union a b => union (unionOnto l a) b
  | r => union l r

/-- A chain of concatenations behind `l`, its factors added one after the other. -/
def concatOnto (l : Regex) : Regex → Regex
  | concat a b => concat (concatOnto l a) b
  | r => concat l r

/-- The expression with all chains associated to the left. -/
def leftAssociated : Regex → Regex
  | epsilon => epsilon
  | symbol c => symbol c
  | union l r => unionOnto l.leftAssociated r.leftAssociated
  | concat l r => concatOnto l.leftAssociated r.leftAssociated
  | star r => star r.leftAssociated

@[simp] theorem strength_union (l r : Regex) : (union l r).strength = 0 := rfl

@[simp] theorem strength_concat (l r : Regex) : (concat l r).strength = 1 := rfl

theorem unionOnto_of_strength (h : 0 < r.strength) : unionOnto l r = union l r := by
  cases r with
  | union a b => exact absurd h (by simp)
  | _ => rfl

theorem concatOnto_of_strength (h : r.strength ≠ 1) : concatOnto l r = concat l r := by
  cases r with
  | concat a b => exact absurd rfl h
  | _ => rfl

theorem unionOnto_assoc (l m r : Regex) :
    unionOnto (unionOnto l m) r = unionOnto l (unionOnto m r) := by
  induction r with
  | union a b ih _ => rw [unionOnto, ih, unionOnto, unionOnto]
  | _ => rfl

theorem concatOnto_assoc (l m r : Regex) :
    concatOnto (concatOnto l m) r = concatOnto l (concatOnto m r) := by
  induction r with
  | concat a b ih _ => rw [concatOnto, ih, concatOnto, concatOnto]
  | _ => rfl

@[simp] theorem strength_unionOnto (l r : Regex) : (unionOnto l r).strength = 0 := by
  cases r <;> rfl

@[simp] theorem strength_concatOnto (l r : Regex) : (concatOnto l r).strength = 1 := by
  cases r <;> rfl

@[simp] theorem strength_leftAssociated (r : Regex) : r.leftAssociated.strength = r.strength := by
  cases r with
  | union l r => exact strength_unionOnto _ _
  | concat l r => exact strength_concatOnto _ _
  | _ => rfl

theorem matches_unionOnto : (unionOnto l r).Matches w ↔ (union l r).Matches w := by
  induction r with
  | union a b ih _ => rw [unionOnto, matches_union, ih, matches_union, matches_union, matches_union,
      or_assoc]
  | _ => rfl

theorem matches_concatOnto : (concatOnto l r).Matches w ↔ (concat l r).Matches w := by
  induction r generalizing w with
  | concat a b ih _ =>
    simp only [concatOnto, matches_concat, ih]
    constructor
    · rintro ⟨_, z, ⟨x, y, hx, hy, rfl⟩, hz, rfl⟩
      exact ⟨x, y ++ z, hx, ⟨y, z, hy, hz, rfl⟩, (List.append_assoc x y z).symm⟩
    · rintro ⟨x, _, hx, ⟨y, z, hy, hz, rfl⟩, rfl⟩
      exact ⟨x ++ y, z, ⟨x, y, hx, hy, rfl⟩, hz, List.append_assoc x y z⟩
  | _ => rfl

/-- **Associating chains to the left keeps the language.** -/
theorem matches_leftAssociated : r.leftAssociated.Matches w ↔ r.Matches w := by
  induction r generalizing w with
  | epsilon => rfl
  | symbol c => rfl
  | union l r ihl ihr =>
    rw [leftAssociated, matches_unionOnto, matches_union, ihl, ihr, matches_union]
  | concat l r ihl ihr =>
    rw [leftAssociated, matches_concatOnto]
    simp only [matches_concat, ihl, ihr]
  | star r ih => exact matches_star_congr fun _ _ => ih

/-! ## The tokens of a text -/

/-- The tokens of an operand, in parentheses if it binds less strongly than required. -/
def guardedTokens (required : Nat) (operand : Regex) (ts : List Token) : List Token :=
  if operand.strength < required then .opening :: ts ++ [.closing] else ts

/-- The tokens of the text of an expression. -/
def tokens : Regex → List Token
  | epsilon => [.epsilon]
  | symbol c => [.symbol c]
  | union l r => l.tokens ++ .union '+' :: r.tokens
  | concat l r => guardedTokens 1 l l.tokens ++ guardedTokens 1 r r.tokens
  | star r => guardedTokens 2 r r.tokens ++ [.star]

theorem map_toChar_guardedTokens (required : Nat) (operand : Regex) (ts : List Token) :
    (guardedTokens required operand ts).map Token.toChar =
      guarded required operand (ts.map Token.toChar) := by
  unfold guardedTokens guarded
  by_cases h : operand.strength < required
  · simp [if_pos h, Token.toChar]
  · simp [if_neg h]

theorem map_toChar_tokens : ∀ r : Regex, r.tokens.map Token.toChar = r.chars
  | epsilon => rfl
  | symbol c => rfl
  | union l r => by
    simp [tokens, chars, map_toChar_tokens l, map_toChar_tokens r, Token.toChar]
  | concat l r => by
    simp [tokens, chars, map_toChar_guardedTokens, map_toChar_tokens l, map_toChar_tokens r]
  | star r => by
    simp [tokens, chars, map_toChar_guardedTokens, map_toChar_tokens r, Token.toChar]

/-- What the text of an expression is, in each place where it can be printed. -/
structure Printed (r : Regex) : Prop where
  whole : IsExpression r.tokens r.leftAssociated
  /-- Behind other alternatives. -/
  alternative : ∀ {ts l}, IsExpression ts l →
    IsExpression (ts ++ .union '+' :: r.tokens) (unionOnto l r.leftAssociated)
  term : IsTerm (guardedTokens 1 r r.tokens) r.leftAssociated
  /-- Behind other factors. -/
  nextFactor : ∀ {ts l}, IsTerm ts l →
    IsTerm (ts ++ guardedTokens 1 r r.tokens) (concatOnto l r.leftAssociated)
  factor : IsFactor (guardedTokens 2 r r.tokens) r.leftAssociated

/-- An expression that is printed as a factor without parentheses is a factor in every place. -/
theorem printed_of_isFactor (hr : 2 ≤ r.strength) (h : IsFactor r.tokens r.leftAssociated) :
    r.Printed := by
  have hterm : guardedTokens 1 r r.tokens = r.tokens := if_neg (by omega)
  have hfactor : guardedTokens 2 r r.tokens = r.tokens := if_neg (by omega)
  constructor
  case whole => exact .term (.factor h)
  case alternative =>
    intro ts l hl
    rw [unionOnto_of_strength (by rw [strength_leftAssociated]; omega)]
    exact .union '+' hl (.factor h)
  case term =>
    rw [hterm]
    exact .factor h
  case nextFactor =>
    intro ts l hl
    rw [hterm, concatOnto_of_strength (by rw [strength_leftAssociated]; omega)]
    exact .juxtaposed hl h
  case factor =>
    rw [hfactor]
    exact h

/-- **The tokens of the text derive the expression associated to the left.** -/
theorem printed : ∀ r : Regex, r.Printed
  | epsilon => printed_of_isFactor (by simp [strength]) (.atom .epsilon)
  | symbol c => printed_of_isFactor (by simp [strength]) (.atom (.symbol c))
  | star r => printed_of_isFactor (by simp [strength]) (.star (printed r).factor)
  | concat l r => by
    have hl := printed l
    have hr := printed r
    have hterm : guardedTokens 1 (concat l r) (concat l r).tokens = (concat l r).tokens :=
      if_neg (by simp [strength])
    have hfactor : guardedTokens 2 (concat l r) (concat l r).tokens =
        .opening :: (concat l r).tokens ++ [.closing] := if_pos (by simp [strength])
    have h : IsTerm (concat l r).tokens (concat l r).leftAssociated := hr.nextFactor hl.term
    constructor
    case whole => exact .term h
    case alternative =>
      intro ts k hk
      rw [unionOnto_of_strength (by simp)]
      exact .union '+' hk h
    case term =>
      rw [hterm]
      exact h
    case nextFactor =>
      intro ts k hk
      rw [hterm, tokens, leftAssociated, ← List.append_assoc, ← concatOnto_assoc]
      exact hr.nextFactor (hl.nextFactor hk)
    case factor =>
      rw [hfactor]
      exact .atom (.group (.term h))
  | union l r => by
    have hl := printed l
    have hr := printed r
    have h : IsExpression (union l r).tokens (union l r).leftAssociated := hr.alternative hl.whole
    have hguarded {required : Nat} (hrequired : 0 < required) :
        guardedTokens required (union l r) (union l r).tokens =
          .opening :: (union l r).tokens ++ [.closing] := if_pos hrequired
    have hfactor {required : Nat} (hrequired : 0 < required) :
        IsFactor (guardedTokens required (union l r) (union l r).tokens)
          (union l r).leftAssociated := by
      rw [hguarded hrequired]
      exact .atom (.group h)
    constructor
    case whole => exact h
    case alternative =>
      intro ts k hk
      rw [tokens, leftAssociated, ← unionOnto_assoc, ← List.cons_append, ← List.append_assoc]
      exact hr.alternative (hl.alternative hk)
    case term => exact .factor (hfactor (by omega))
    case nextFactor =>
      intro ts k hk
      rw [concatOnto_of_strength (by simp)]
      exact .juxtaposed hk (hfactor (by omega))
    case factor => exact hfactor (by omega)

/-! ## Reading the text -/

/-- Every symbol of the expression is a letter or a digit, and none is `ε`. -/
def Writable (r : Regex) : Prop :=
  ∀ c ∈ r.leaves, Text.isAlphanumeric c = true ∧ c ≠ epsilonChar

theorem readable_of_mem_guardedTokens {required : Nat} {operand : Regex} {ts : List Token}
    (h : ∀ t ∈ ts, t.Readable) : ∀ t ∈ guardedTokens required operand ts, t.Readable := by
  intro t ht
  unfold guardedTokens at ht
  by_cases hs : operand.strength < required
  · rw [if_pos hs] at ht
    simp only [List.cons_append, List.mem_cons, List.mem_append, List.not_mem_nil,
      or_false] at ht
    rcases ht with rfl | ht | rfl
    · exact ⟨by decide, by decide⟩
    · exact h t ht
    · exact ⟨by decide, by decide⟩
  · rw [if_neg hs] at ht
    exact h t ht

theorem readable_of_mem_tokens : ∀ {r : Regex}, r.Writable → ∀ t ∈ r.tokens, t.Readable
  | epsilon, _, t, ht => by
    rw [List.mem_singleton.mp ht]
    exact Token.readable_epsilon
  | symbol c, h, t, ht => by
    rw [List.mem_singleton.mp ht]
    have hc := h c (List.mem_singleton_self c)
    exact Token.readable_symbol hc.1 hc.2
  | union l r, h, t, ht => by
    obtain ⟨hl, hr⟩ := List.forall_mem_append.mp h
    rcases List.mem_append.mp ht with ht | ht
    · exact readable_of_mem_tokens hl t ht
    · rcases List.mem_cons.mp ht with rfl | ht
      · exact ⟨by decide, by decide⟩
      · exact readable_of_mem_tokens hr t ht
  | concat l r, h, t, ht => by
    obtain ⟨hl, hr⟩ := List.forall_mem_append.mp h
    rcases List.mem_append.mp ht with ht | ht
    · exact readable_of_mem_guardedTokens (readable_of_mem_tokens hl) t ht
    · exact readable_of_mem_guardedTokens (readable_of_mem_tokens hr) t ht
  | star r, h, t, ht => by
    rcases List.mem_append.mp ht with ht | ht
    · exact readable_of_mem_guardedTokens (readable_of_mem_tokens (r := r) h) t ht
    · rw [List.mem_singleton.mp ht]
      exact ⟨by decide, by decide⟩

/-- **The text of an expression over letters and digits is read**, with the chains associated to
the left. -/
theorem parse_toText (h : r.Writable) : parse r.toText = .ok r.leftAssociated := by
  have hread := readable_of_mem_tokens h
  refine parseChars_of_isExpression hread ?_ (printed r).whole
  rw [toText, String.toList_ofList, ← map_toChar_tokens, Token.significant_map_toChar hread]

example : parse (concat (symbol 'a') (concat (star (union (symbol 'b') epsilon))
    (symbol 'c'))).toText = .ok (concat (concat (symbol 'a')
      (star (union (symbol 'b') epsilon))) (symbol 'c')) := rfl

end RegularLanguages.Regex
