import RegularLanguages.Proofs.Regex.Derivation

/-!
# The reader accepts exactly the grammar

What the reader holds accounts for every token that it has read (`Reading.Covers`): the open
groups around the operand at hand, the finished alternatives and factors of its group, and the
operand itself, in this order. One token is read at a time, so one case per kind of token keeps
this, and what is left when the text ends is an expression.

Results:
* `scan_eq_ok_iff`: what scanning finds are the characters that are no blanks.
* `covers_step`, `covers_foldlM`: one token and all tokens keep the account.
* `parseChars_eq_ok_iff`: reading succeeds exactly on what the grammar derives.
* **`parse_eq_ok_iff_derivation`**: and the tree is that of the only derivation, which blanks, the
  sign of a union and the dots do not change.
-/

namespace RegularLanguages.Regex

variable {r : Regex}

/-! ## What the reader holds -/

/-- The tokens of the finished alternatives of a group, with the sign behind them. -/
inductive CoversAlternatives : Option Regex → List Token → Prop
  | none : CoversAlternatives none []
  | some {ts : List Token} {l : Regex} (c : Char) :
      IsExpression ts l → CoversAlternatives (some l) (ts ++ [.union c])

/-- The tokens of the finished factors of a term, with the dot behind them if there is one. -/
inductive CoversFactors : Option Regex → List Token → Prop
  | none : CoversFactors none []
  | dotted {ts : List Token} {l : Regex} : IsTerm ts l → CoversFactors (some l) (ts ++ [.dot])
  | juxtaposed {ts : List Token} {l : Regex} : IsTerm ts l → CoversFactors (some l) ts

/-- The tokens of the operand at hand, none if it has not begun. -/
inductive CoversOperand : Option Regex → List Token → Prop
  | none : CoversOperand none []
  | some {ts : List Token} {r : Regex} : IsFactor ts r → CoversOperand (some r) ts

/-- The tokens of what is finished in a group. -/
def Finished.Covers (done : Finished) (ts : List Token) : Prop :=
  ∃ us vs, CoversAlternatives done.alternatives us ∧ CoversFactors done.factors vs ∧
    ts = us ++ vs

/-- The tokens of the open groups, the innermost one first. -/
inductive CoversOuter : List (Nat × Finished) → List Token → Prop
  | nil : CoversOuter [] []
  | cons {outer : List (Nat × Finished)} {done : Finished} {ts us : List Token} (position : Nat) :
      CoversOuter outer ts → done.Covers us →
        CoversOuter ((position, done) :: outer) (ts ++ us ++ [.opening])

/-- **The account of the reader**: the tokens that have been read are those of the open groups,
of what is finished in the group at hand, and of the operand at hand. -/
def Reading.Covers (reading : Reading) (ts : List Token) : Prop :=
  ∃ us vs ws, CoversOuter reading.outer us ∧ reading.done.Covers vs ∧
    CoversOperand reading.operand ws ∧ ts = us ++ vs ++ ws

section Finished

variable {done : Finished} {factors : Option Regex} {ts us : List Token}

theorem covers_start : Finished.start.Covers [] := ⟨[], [], .none, .none, rfl⟩

theorem isTerm_of_covers (h : CoversFactors factors ts) (hr : IsFactor us r)
    (alternatives : Option Regex) :
    IsTerm (ts ++ us) (Finished.term ⟨alternatives, factors⟩ r) := by
  cases h with
  | none => exact .factor hr
  | dotted hl =>
    rw [List.append_assoc]
    exact .dotted hl hr
  | juxtaposed hl => exact .juxtaposed hl hr

theorem isExpression_of_covers (h : done.Covers ts) (hr : IsFactor us r) :
    IsExpression (ts ++ us) (done.whole r) := by
  obtain ⟨alternatives, factors⟩ := done
  obtain ⟨vs, ws, halternatives, hfactors, rfl⟩ := h
  have hterm := isTerm_of_covers hfactors hr alternatives
  cases halternatives with
  | none => exact .term hterm
  | some c hl =>
    rw [List.append_assoc, ← List.append_cons]
    exact .union c hl hterm

theorem covers_behind {operand : Option Regex} (h : done.Covers ts)
    (hr : CoversOperand operand us) : (done.behind operand).Covers (ts ++ us) := by
  obtain ⟨vs, ws, halternatives, hfactors, rfl⟩ := h
  cases hr with
  | none =>
    rw [List.append_nil]
    exact ⟨vs, ws, halternatives, hfactors, rfl⟩
  | some hr =>
    rw [List.append_assoc]
    exact ⟨vs, ws ++ us, halternatives, .juxtaposed (isTerm_of_covers hfactors hr _), rfl⟩

theorem covers_nextFactor (h : done.Covers ts) (hr : IsFactor us r) :
    (done.nextFactor r).Covers (ts ++ us ++ [.dot]) := by
  obtain ⟨vs, ws, halternatives, hfactors, rfl⟩ := h
  have hterm := isTerm_of_covers hfactors hr done.alternatives
  refine ⟨vs, ws ++ us ++ [Token.dot], halternatives, .dotted hterm, ?_⟩
  simp only [List.append_assoc]

theorem covers_nextAlternative (h : done.Covers ts) (hr : IsFactor us r) (c : Char) :
    (done.nextAlternative r).Covers (ts ++ us ++ [.union c]) :=
  ⟨_, [], .some c (isExpression_of_covers h hr), .none, (List.append_nil _).symm⟩

end Finished

namespace Reading

variable {reading reading' : Reading} {ts : List Token}

/-- A single token that is an operand, wherever it is read. -/
theorem covers_atom {t : Token} (h : reading.Covers ts) (ht : IsAtom [t] r) :
    (reading.atom r).Covers (ts ++ [t]) := by
  obtain ⟨done, operand, outer⟩ := reading
  obtain ⟨us, vs, ws, houter, hdone, hoperand, rfl⟩ := h
  rw [atom_eq]
  exact ⟨us, vs ++ ws, [t], houter, covers_behind hdone hoperand, .some (.atom ht),
    by simp only [List.append_assoc]⟩

/-- **One token keeps the account.** -/
theorem covers_step {position : Nat} {t : Token} (h : reading.Covers ts)
    (hstep : reading.step (position, t) = .ok reading') : reading'.Covers (ts ++ [t]) := by
  cases t with
  | symbol c => exact Except.ok.inj hstep ▸ covers_atom h (.symbol c)
  | epsilon => exact Except.ok.inj hstep ▸ covers_atom h .epsilon
  | opening =>
    obtain ⟨done, operand, outer⟩ := reading
    obtain ⟨us, vs, ws, houter, hdone, hoperand, rfl⟩ := h
    rw [← Except.ok.inj hstep, openGroup_eq]
    refine ⟨_, [], [], .cons position houter (covers_behind hdone hoperand), covers_start, .none,
      ?_⟩
    simp only [List.append_assoc, List.append_nil]
  | star =>
    obtain ⟨done, operand, outer⟩ := reading
    obtain ⟨us, vs, ws, houter, hdone, hoperand, rfl⟩ := h
    cases hoperand with
    | none => cases hstep
    | some hr =>
      rw [← Except.ok.inj hstep, List.append_assoc]
      exact ⟨us, vs, ws ++ [.star], houter, hdone, .some (.star hr), rfl⟩
  | union c =>
    obtain ⟨done, operand, outer⟩ := reading
    obtain ⟨us, vs, ws, houter, hdone, hoperand, rfl⟩ := h
    cases hoperand with
    | none => cases hstep
    | some hr =>
      rw [← Except.ok.inj hstep]
      refine ⟨us, _, [], houter, covers_nextAlternative hdone hr c, .none, ?_⟩
      simp only [List.append_assoc, List.append_nil]
  | dot =>
    obtain ⟨done, operand, outer⟩ := reading
    obtain ⟨us, vs, ws, houter, hdone, hoperand, rfl⟩ := h
    cases hoperand with
    | none => cases hstep
    | some hr =>
      rw [← Except.ok.inj hstep]
      refine ⟨us, _, [], houter, covers_nextFactor hdone hr, .none, ?_⟩
      simp only [List.append_assoc, List.append_nil]
  | closing =>
    obtain ⟨done, operand, outer⟩ := reading
    obtain ⟨us, vs, ws, houter, hdone, hoperand, rfl⟩ := h
    cases hoperand with
    | none => cases hstep
    | some hr =>
      cases houter with
      | nil => cases hstep
      | cons q houter hfront =>
        rename_i ts' us'
        rw [← Except.ok.inj hstep]
        refine ⟨_, _, .opening :: (vs ++ ws) ++ [.closing], houter, hfront,
          .some (.atom (.group (isExpression_of_covers hdone hr))), ?_⟩
        simp only [List.append_assoc, List.cons_append, List.nil_append]

/-- **All tokens keep the account.** -/
theorem covers_foldlM : ∀ {found : List (Nat × Token)} {reading reading' : Reading}
    {ts : List Token}, reading.Covers ts → found.foldlM step reading = .ok reading' →
      reading'.Covers (ts ++ found.map Prod.snd)
  | [], _, _, ts, h, hfold => by
    rw [← Except.ok.inj hfold, List.map_nil, List.append_nil]
    exact h
  | (position, t) :: found, _, _, ts, h, hfold => by
    rw [List.foldlM_cons] at hfold
    obtain ⟨between, hstep, hfold⟩ := bind_eq_ok hfold
    rw [List.map_cons, List.append_cons]
    exact covers_foldlM (covers_step h hstep) hfold

/-- What is left at the end is an expression. -/
theorem isExpression_of_finish {length : Nat} (h : reading.Covers ts)
    (hfinish : reading.finish length = .ok r) : IsExpression ts r := by
  obtain ⟨done, operand, outer⟩ := reading
  obtain ⟨us, vs, ws, houter, hdone, hoperand, rfl⟩ := h
  cases hoperand with
  | none => exact absurd hfinish (by simp [finish])
  | some hr =>
    cases houter with
    | nil =>
      rw [← Except.ok.inj hfinish]
      exact isExpression_of_covers hdone hr
    | cons q houter hfront => exact absurd hfinish (by simp [finish])

end Reading

/-! ## Reading and deriving -/

open RegularLanguages.Regex.Derivation (Expression)

variable {cs : List Char} {ts us : List Token}

/-- **Reading succeeds exactly on what the grammar derives.** -/
theorem parseChars_eq_ok_iff :
    parseChars cs = .ok r ↔ ∃ ts : List Token, (∀ t ∈ ts, t.Readable) ∧
      ts.map Token.toChar = significant cs ∧ IsExpression ts r := by
  constructor
  · intro h
    obtain ⟨found, hscan, h⟩ := bind_eq_ok h
    obtain ⟨hread, hchars⟩ := (Token.scan_eq_ok_iff cs 0).mp ⟨found, hscan, rfl⟩
    refine ⟨found.map Prod.snd, hread, hchars, ?_⟩
    split at h
    · exact absurd h (by simp)
    · obtain ⟨reading, hfold, h⟩ := bind_eq_ok h
      have hstart : Reading.start.Covers [] := ⟨[], [], [], .nil, covers_start, .none, rfl⟩
      exact Reading.isExpression_of_finish (Reading.covers_foldlM hstart hfold) h
  · rintro ⟨ts, hread, hchars, h⟩
    exact parseChars_of_isExpression hread hchars h

/-- What is read has a derivation with its tree. -/
theorem parseChars_eq_ok_iff_exists_derivation :
    parseChars cs = .ok r ↔ ∃ e : Expression, e.chars = significant cs ∧ e.tree = r := by
  rw [parseChars_eq_ok_iff]
  constructor
  · rintro ⟨ts, hread, hchars, h⟩
    obtain ⟨e, rfl, rfl⟩ := (Derivation.isExpression_iff hread).mp h
    exact ⟨e, hchars, rfl⟩
  · rintro ⟨e, hchars, rfl⟩
    exact ⟨e.tokens, e.readable, hchars, e.isExpression⟩

/-- Blanks do not matter for what is read. -/
theorem parseChars_congr {ds : List Char} (h : significant cs = significant ds) :
    parseChars cs = .ok r ↔ parseChars ds = .ok r := by
  rw [parseChars_eq_ok_iff_exists_derivation, parseChars_eq_ok_iff_exists_derivation, h]

theorem isSignificant_of_readable {t : Token} (h : t.Readable) :
    isSignificant t.toChar = true := by
  cases t with
  | symbol c =>
    have hc : isSymbol c = true := Token.isSymbol_of_readable h
    rw [isSignificant, Token.toChar, hc, Bool.true_or, Bool.true_or]
  | union c =>
    obtain ⟨sign, rfl⟩ := Token.exists_sign h
    cases sign <;> decide +kernel
  | _ => decide +kernel

/-! ## What the tree does not show -/

/-- The token without the choices of a text, none if it is a dot. -/
def Token.plain? : Token → Option Token
  | .dot => none
  | .union _ => some (.union '+')
  | t => some t

mutual

/-- Dots and the signs of unions do not change the tree. -/
theorem isExpression_plain {ts : List Token} {r : Regex} : IsExpression ts r →
    IsExpression (ts.filterMap Token.plain?) r
  | .term h => .term (isTerm_plain h)
  | .union c hl hr => by
    have hsign : (Token.union c).plain? = some (.union '+') := rfl
    rw [List.filterMap_append, List.filterMap_cons_some hsign]
    exact .union '+' (isExpression_plain hl) (isTerm_plain hr)

theorem isTerm_plain {ts : List Token} {r : Regex} : IsTerm ts r →
    IsTerm (ts.filterMap Token.plain?) r
  | .factor h => .factor (isFactor_plain h)
  | .dotted hl hr => by
    have hdot : Token.dot.plain? = none := rfl
    rw [List.filterMap_append, List.filterMap_cons_none hdot]
    exact .juxtaposed (isTerm_plain hl) (isFactor_plain hr)
  | .juxtaposed hl hr => by
    rw [List.filterMap_append]
    exact .juxtaposed (isTerm_plain hl) (isFactor_plain hr)

theorem isFactor_plain {ts : List Token} {r : Regex} : IsFactor ts r →
    IsFactor (ts.filterMap Token.plain?) r
  | .atom h => .atom (isAtom_plain h)
  | .star h => by
    rw [List.filterMap_append]
    exact .star (isFactor_plain h)

theorem isAtom_plain {ts : List Token} {r : Regex} : IsAtom ts r →
    IsAtom (ts.filterMap Token.plain?) r
  | .symbol c => .symbol c
  | .epsilon => .epsilon
  | .group h => by
    have hopening : Token.opening.plain? = some .opening := rfl
    rw [List.filterMap_append, List.filterMap_cons_some hopening]
    exact .group (isExpression_plain h)

end

theorem readable_of_mem_plain (h : ∀ t ∈ ts, t.Readable) :
    ∀ t ∈ ts.filterMap Token.plain?, t.Readable := by
  intro t ht
  obtain ⟨u, hu, htu⟩ := List.mem_filterMap.mp ht
  cases u with
  | dot => exact nomatch htu
  | union c => exact Option.some.inj htu ▸ Token.readable_union .plus
  | _ => exact Option.some.inj htu ▸ h _ hu

/-- The characters of the plain tokens are the plain characters. -/
theorem map_toChar_plain : ∀ {ts : List Token}, (∀ t ∈ ts, t.Readable) →
    (ts.filterMap Token.plain?).map Token.toChar = plain (ts.map Token.toChar)
  | [], _ => rfl
  | t :: ts, h => by
    obtain ⟨ht, hts⟩ := List.forall_mem_cons.mp h
    have hrest := map_toChar_plain hts
    cases t with
    | dot => exact hrest
    | union c =>
      obtain ⟨sign, rfl⟩ := Token.exists_sign ht
      cases sign <;> exact congrArg ('+' :: ·) hrest
    | symbol c =>
      have hc := ((Bool.and_eq_true _ _).mp (Token.isSymbol_of_readable ht)).1
      have hne {d : Char} := Text.ne_of_isAlphanumeric hc (d := d)
      have hdot : c ≠ '.' := hne (by decide +kernel)
      have hbar : c ≠ '|' := hne (by decide +kernel)
      have hsymbol : (Token.symbol c).plain? = some (.symbol c) := rfl
      rw [List.filterMap_cons_some hsymbol, List.map_cons, hrest]
      simp [plain, Token.toChar, hdot, hbar]
    | _ => exact congrArg (_ :: ·) hrest

/-- **A text that is read may be written plainly**, without another tree. -/
theorem parseChars_plain (h : parseChars cs = .ok r) :
    parseChars (plain (significant cs)) = .ok r := by
  obtain ⟨ts, hread, hchars, h⟩ := parseChars_eq_ok_iff.mp h
  have hplain := readable_of_mem_plain hread
  refine parseChars_eq_ok_iff.mpr ⟨ts.filterMap Token.plain?, hplain, ?_, isExpression_plain h⟩
  rw [← hchars, ← map_toChar_plain hread, Token.significant_map_toChar hplain]

/-- **The reader accepts exactly its grammar.** A text is read iff every character that is no
blank may stand in an expression and these characters have a derivation, and what is read is the
tree of the only derivation. Texts that differ in blanks, in the signs of unions and in the dots
of concatenations are read with one tree. -/
theorem parse_eq_ok_iff_derivation (text : String) :
    (∀ r, parse text = .ok r ↔
      (∀ c ∈ text.toList, Text.isBlank c = false → isSignificant c = true) ∧
      ∃ e : Expression, e.chars = significant text.toList ∧ e.tree = r ∧
        ∀ e' : Expression, e'.chars = significant text.toList → e' = e) ∧
    (∀ r, parse text = .ok r →
      parse (String.ofList (plain (significant text.toList))) = .ok r) ∧
    ∀ text' r r', plain (significant text.toList) = plain (significant text'.toList) →
      parse text = .ok r → parse text' = .ok r' → r = r' := by
  refine ⟨fun r => ?_, fun r h => ?_, fun text' r r' hplain h h' => ?_⟩
  · unfold parse
    rw [parseChars_eq_ok_iff_exists_derivation]
    constructor
    · rintro ⟨e, hchars, rfl⟩
      refine ⟨fun c hc hblank => ?_, e, hchars, rfl, fun e' hchars' =>
        Expression.eq_of_chars (hchars'.trans hchars.symm)⟩
      have hmem : c ∈ significant text.toList := List.mem_filter.mpr ⟨hc, by rw [hblank]; rfl⟩
      rw [← hchars] at hmem
      obtain ⟨t, ht, rfl⟩ := List.mem_map.mp hmem
      exact isSignificant_of_readable (e.readable t ht)
    · rintro ⟨-, e, hchars, htree, -⟩
      exact ⟨e, hchars, htree⟩
  · unfold parse
    rw [String.toList_ofList]
    exact parseChars_plain h
  · have hr := parseChars_plain h
    rw [hplain, parseChars_plain h'] at hr
    exact (Except.ok.inj hr).symm

/-- A text with blanks, a bar and a dot is read like the plain one. -/
theorem parse_plain_of_spaced :
    parse " a |b . c*" = .ok (union (symbol 'a') (concat (symbol 'b') (star (symbol 'c')))) ∧
      parse "a+bc*" = .ok (union (symbol 'a') (concat (symbol 'b') (star (symbol 'c')))) :=
  ⟨rfl, (parse_eq_ok_iff_derivation " a |b . c*").2.1 _ rfl⟩

end RegularLanguages.Regex
