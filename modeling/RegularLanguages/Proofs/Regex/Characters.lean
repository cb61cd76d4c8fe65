import RegularLanguages.Proofs.Regex.Printing

/-!
# The characters of a text

The text of an expression that can be read consists of the characters of tokens, so it has no
blanks and no characters that have a meaning elsewhere. It is the texts of the union terms with a
`+` between them, and each of these is read like the expression.

Results:
* `not_isBlank_of_mem_chars`, `not_mem_chars`: which characters do not occur.
* **`parseChars_guarded`**: a text in parentheses is read like the text itself.
* `writable_iff_unionTerms`, `Writable.unite`: union terms and united expressions.
-/

namespace RegularLanguages.Regex

variable {l r s t : Regex} {c : Char}

/-! ## Which characters occur -/

theorem guarded_ne_nil {required : Nat} {text : List Char} (h : text ≠ []) :
    guarded required r text ≠ [] := by
  unfold guarded
  split
  · simp
  · exact h

theorem chars_ne_nil : ∀ r : Regex, r.chars ≠ []
  | epsilon => List.cons_ne_nil _ _
  | symbol _ => List.cons_ne_nil _ _
  | union l r => by simp [chars]
  | concat l r => List.append_ne_nil_of_left_ne_nil (guarded_ne_nil (chars_ne_nil l)) _
  | star r => by simp [chars]

/-- Every character is the one of a token. -/
theorem readable_of_mem_chars (h : r.Writable) (hc : c ∈ r.chars) :
    Text.isBlank c = false ∧ ∃ t, Token.ofChar? c = some t := by
  rw [← map_toChar_tokens] at hc
  obtain ⟨t, ht, rfl⟩ := List.mem_map.mp hc
  obtain ⟨hblank, hread⟩ := readable_of_mem_tokens h t ht
  exact ⟨hblank, t, hread⟩

theorem not_isBlank_of_mem_chars (h : r.Writable) : ∀ c ∈ r.chars, Text.isBlank c = false :=
  fun _ hc => (readable_of_mem_chars h hc).1

theorem mem_guarded {required : Nat} {text : List Char} (h : c ∈ guarded required r text) :
    c = '(' ∨ c ∈ text ∨ c = ')' := by
  unfold guarded at h
  split at h
  · simpa using h
  · exact .inr (.inl h)

/-- The parentheses that may stand around a text are no blanks either. -/
theorem not_isBlank_of_mem_guarded {required : Nat} (h : r.Writable) :
    ∀ c ∈ guarded required r r.chars, Text.isBlank c = false := by
  intro c hc
  rcases mem_guarded hc with rfl | hc | rfl
  · decide
  · exact not_isBlank_of_mem_chars h c hc
  · decide

/-- A character that is no token does not occur. -/
theorem not_mem_chars (h : r.Writable) (hc : Token.ofChar? c = none) : c ∉ r.chars := by
  intro hmem
  obtain ⟨-, t, ht⟩ := readable_of_mem_chars h hmem
  rw [hc] at ht
  exact nomatch ht

/-! ## Reading a text -/

theorem writable_of_parseChars {cs : List Char} (h : parseChars cs = .ok r) : r.Writable :=
  symbols_of_parseChars h

/-- **A text is read, also in the parentheses** that it may need in its place. -/
theorem parseChars_guarded (h : r.Writable) :
    parseChars (guarded 1 r r.chars) = .ok r.leftAssociated := by
  have hread : ∀ t ∈ guardedTokens 1 r r.tokens, t.Readable :=
    readable_of_mem_guardedTokens (readable_of_mem_tokens h)
  refine parseChars_of_isExpression hread ?_ (.term (printed r).term)
  rw [← map_toChar_tokens, ← map_toChar_guardedTokens, Token.significant_map_toChar hread]

theorem parseChars_chars (h : r.Writable) : parseChars r.chars = .ok r.leftAssociated := by
  have hparse := parse_toText h
  rwa [parse, toText, String.toList_ofList] at hparse

/-! ## Union terms -/

/-- The leaves of an expression are those of its union terms. -/
theorem writable_iff_unionTerms : r.Writable ↔ ∀ t ∈ r.unionTerms, t.Writable := by
  induction r with
  | union l r ihl ihr =>
    have hleaves : (union l r).Writable ↔ l.Writable ∧ r.Writable := List.forall_mem_append
    rw [hleaves, ihl, ihr]
    exact List.forall_mem_append.symm
  | _ => exact List.forall_mem_singleton.symm

theorem Writable.unite (hr : r.Writable) (hs : s.Writable) : (r.unite s).Writable := by
  unfold Regex.unite
  split
  · exact hr
  · split
    · exact hs
    · exact List.forall_mem_append.mpr ⟨hr, hs⟩

theorem Writable.adjoin {old : Option Regex} (hold : ∀ r, old = some r → r.Writable)
    (hs : s.Writable) : (Regex.adjoin old s).Writable := by
  cases old with
  | none => exact hs
  | some r => exact (hold r rfl).unite hs

end RegularLanguages.Regex
