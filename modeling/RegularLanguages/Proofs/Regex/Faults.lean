import RegularLanguages.Proofs.Regex.Descent

/-!
# A fault is at the first character that is wrong

The reader stops at the first character with which no complete expression starts any more, and
what it holds then tells the two faults at a character apart: where an operand is missing, or
behind a complete expression. At the end of the text it tells what is missing.

Results:
* `after_or_stuck`: the reader gets through the text or is stuck at a character.
* `describes_of_parseChars`, `parseChars_of_describes`: what is reported describes the text, and
  what describes the text is reported.
* **`parse_eq_error_iff_describes`**: the same as one statement.
-/

namespace RegularLanguages.Regex

open Reading

variable {cs front rest : List Char} {c : Char} {reading : Reading} {f : RegexError}

/-! ## Where the reader stops -/

/-- The reader gets to a character and refuses its token. -/
def Stuck (cs : List Char) (f : RegexError) : Prop :=
  ∃ front c rest reading t, cs = front ++ c :: rest ∧ After front reading ∧
    Text.isBlank c = false ∧ Token.ofChar? c = some t ∧ reading.step (front.length, t) = .error f

/-- The reader reads all characters that may stand in an expression, or it is stuck at one. -/
theorem after_or_stuck : ∀ {rest front : List Char} {reading : Reading}, After front reading →
    (∀ c ∈ rest, isAdmissible c = true) →
      (∃ reading', After (front ++ rest) reading') ∨ ∃ f, Stuck (front ++ rest) f
  | [], front, reading, h, _ => by
    rw [List.append_nil]
    exact Or.inl ⟨reading, h⟩
  | c :: rest, front, reading, h, hrest => by
    obtain ⟨hc, hrest⟩ := List.forall_mem_cons.mp hrest
    cases hblank : Text.isBlank c with
    | true =>
      rw [List.append_cons]
      exact after_or_stuck ((after_concat_of_isBlank hblank).mpr h) hrest
    | false =>
      obtain ⟨t, ht⟩ := Token.exists_ofChar?_of_isAdmissible hc hblank
      cases hstep : reading.step (front.length, t) with
      | error f => exact Or.inr ⟨f, front, c, rest, reading, t, rfl, h, hblank, ht, hstep⟩
      | ok reading' =>
        rw [List.append_cons]
        exact after_or_stuck ((after_concat_iff hblank ht).mpr ⟨reading, h, hstep⟩) hrest

theorem not_beginsExpression_of_step {t : Token} (h : After front reading)
    (hc : Text.isBlank c = false) (ht : Token.ofChar? c = some t)
    (hstep : reading.step (front.length, t) = .error f) : ¬ BeginsExpression (front ++ [c]) := by
  intro hbegins
  obtain ⟨reading', hafter⟩ := beginsExpression_iff.mp hbegins
  obtain ⟨between, hbetween, hok⟩ := (after_concat_iff hc ht).mp hafter
  rw [h.unique hbetween, hok] at hstep
  exact absurd hstep (by simp)

/-! ## What is reported -/

theorem parseChars_of_scan_eq_error (h : Token.scan 0 cs = .error f) :
    parseChars cs = .error f := by
  rw [parseChars, h]
  rfl

theorem parseChars_of_isBlank (h : ∀ c ∈ cs, Text.isBlank c = true) :
    parseChars cs = .error .empty := by
  rw [parseChars, Token.scan_eq_nil_iff.mpr h]
  rfl

theorem parseChars_of_scan_eq_ok {found : List (Nat × Token)} (h : Token.scan 0 cs = .ok found)
    (hne : found ≠ []) :
    parseChars cs = (do
      let reading ← found.foldlM step start
      reading.finish cs.length) := by
  cases found with
  | nil => exact absurd rfl hne
  | cons t found =>
    rw [parseChars, h]
    rfl

theorem parseChars_of_after (h : After cs reading) (hne : ∃ c ∈ cs, Text.isBlank c = false) :
    parseChars cs = reading.finish cs.length := by
  obtain ⟨found, hscan, hfold⟩ := h
  obtain ⟨c, hc, hblank⟩ := hne
  have hfound : found ≠ [] := by
    rintro rfl
    rw [Token.scan_eq_nil_iff.mp hscan c hc] at hblank
    exact absurd hblank (by simp)
  rw [parseChars_of_scan_eq_ok hscan hfound, hfold]
  rfl

theorem parseChars_of_stuck (hcs : ∀ c ∈ cs, isAdmissible c = true) (h : Stuck cs f) :
    parseChars cs = .error f := by
  obtain ⟨front, c, rest, reading, t, rfl, ⟨l, hl, hfold⟩, hblank, ht, hstep⟩ := h
  have hrest : ∃ m, Token.scan (front.length + 1) rest = .ok m :=
    Token.exists_scan_eq_ok_iff.mpr (List.forall_mem_cons.mp (List.forall_mem_append.mp hcs).2).2
  obtain ⟨m, hm⟩ := hrest
  have hscan : Token.scan 0 (front ++ c :: rest) = .ok (l ++ (front.length, t) :: m) := by
    rw [Token.scan_append, hl, Nat.zero_add, Token.scan_cons_of_ofChar? hblank ht, hm]
    rfl
  rw [parseChars_of_scan_eq_ok hscan (by simp), List.foldlM_append, hfold]
  show (do
    let reading ← ((front.length, t) :: m).foldlM step reading
    reading.finish (front ++ c :: rest).length) = _
  rw [List.foldlM_cons, hstep]
  rfl

theorem finish_eq_error {length : Nat} (h : reading.finish length = .error f) :
    (reading.operand = none ∧ f = .unexpectedEnd length) ∨
      ((∃ r, reading.operand = some r) ∧
        ∃ position, reading.openPositions.head? = some position ∧ f = .unclosed position) := by
  obtain ⟨done, operand, outer⟩ := reading
  cases operand with
  | none => exact Or.inl ⟨rfl, (Except.error.inj h).symm⟩
  | some r =>
    cases outer with
    | nil => cases h
    | cons group outer => exact Or.inr ⟨⟨r, rfl⟩, group.1, rfl, (Except.error.inj h).symm⟩

/-- A fault at a character describes the text. -/
theorem describes_of_stuck (hcs : ∀ c ∈ cs, isAdmissible c = true) (h : Stuck cs f) :
    f.Describes cs := by
  obtain ⟨front, c, rest, reading, t, rfl, hafter, hblank, ht, hstep⟩ := h
  have hchar := Token.toChar_of_ofChar? ht
  rcases step_eq_error hstep with ⟨hnone, rfl⟩ | ⟨⟨r, hr⟩, houter, rfl, rfl⟩
  · have hlacks := lacksOperand_of_after hafter hnone
    rw [hchar]
    exact ⟨hcs, front, rest, rfl, rfl, hlacks.beginsExpression, hlacks,
      not_beginsExpression_of_step hafter hblank ht hstep⟩
  · exact ⟨hcs, front, rest, by rw [← hchar]; rfl, rfl, rfl,
      isWellFormed_iff.mpr ⟨reading, r, hafter, hr, houter⟩⟩

/-- A fault at the end describes the text. -/
theorem describes_of_finish (hcs : ∀ c ∈ cs, isAdmissible c = true)
    (hne : ∃ c ∈ cs, Text.isBlank c = false) (h : After cs reading)
    (hfinish : reading.finish cs.length = .error f) : f.Describes cs := by
  rcases finish_eq_error hfinish with ⟨hnone, rfl⟩ | ⟨⟨r, hr⟩, position, hposition, rfl⟩
  · have hlacks := lacksOperand_of_after h hnone
    exact ⟨hcs, hne, rfl, hlacks.beginsExpression, hlacks⟩
  · exact ⟨hcs, beginsExpression_iff.mpr ⟨reading, h⟩, endsWithOperand_of_after h hr,
      (opened_of_after h).isLastUnclosed_iff.mpr hposition⟩

/-- **What is reported describes the text.** -/
theorem describes_of_parseChars (h : parseChars cs = .error f) : f.Describes cs := by
  by_cases hcs : ∀ c ∈ cs, isAdmissible c = true
  · by_cases hblank : ∀ c ∈ cs, Text.isBlank c = true
    · rw [parseChars_of_isBlank hblank] at h
      exact Except.error.inj h ▸ hblank
    · have hne : ∃ c ∈ cs, Text.isBlank c = false := by simpa using hblank
      have hcases := after_or_stuck after_nil hcs
      rw [List.nil_append] at hcases
      rcases hcases with ⟨reading, hafter⟩ | ⟨f', hstuck⟩
      · rw [parseChars_of_after hafter hne] at h
        exact describes_of_finish hcs hne hafter h
      · rw [parseChars_of_stuck hcs hstuck] at h
        exact Except.error.inj h ▸ describes_of_stuck hcs hstuck
  · cases hscan : Token.scan 0 cs with
    | ok found => exact absurd (Token.exists_scan_eq_ok_iff.mp ⟨found, hscan⟩) hcs
    | error f' =>
      rw [parseChars_of_scan_eq_error hscan] at h
      obtain ⟨front, found, rest, rfl, hfront, hfound, rfl⟩ := Token.scan_eq_error_iff.mp hscan
      rw [← Except.error.inj h, Nat.zero_add]
      exact ⟨front, rest, rfl, rfl, hfront, hfound⟩

/-- **What describes the text is reported.** -/
theorem parseChars_of_describes (h : f.Describes cs) : parseChars cs = .error f := by
  cases f with
  | empty => exact parseChars_of_isBlank h
  | invalidCharacter position found =>
    obtain ⟨front, rest, rfl, rfl, hfront, hfound⟩ := h
    refine parseChars_of_scan_eq_error (Token.scan_eq_error_iff.mpr ?_)
    exact ⟨front, found, rest, rfl, hfront, hfound, by rw [Nat.zero_add]⟩
  | unexpectedToken position found =>
    obtain ⟨hcs, front, rest, rfl, rfl, hbegins, hlacks, hnot⟩ := h
    obtain ⟨reading, hafter⟩ := beginsExpression_iff.mp hbegins
    have hblank : Text.isBlank found = false := by
      by_contra hblank
      rw [Bool.not_eq_false] at hblank
      exact hnot (beginsExpression_iff.mpr ⟨reading, (after_concat_of_isBlank hblank).mpr hafter⟩)
    obtain ⟨t, ht⟩ := Token.exists_ofChar?_of_isAdmissible (hcs found (by simp)) hblank
    cases hstep : reading.step (front.length, t) with
    | ok reading' =>
      have hnext := (after_concat_iff hblank ht).mpr ⟨reading, hafter, hstep⟩
      exact absurd (beginsExpression_iff.mpr ⟨reading', hnext⟩) hnot
    | error f =>
      have hreport := parseChars_of_stuck hcs ⟨front, found, rest, reading, t, rfl, hafter, hblank,
        ht, hstep⟩
      rcases step_eq_error hstep with ⟨-, rfl⟩ | ⟨⟨r, hr⟩, -⟩
      · rwa [Token.toChar_of_ofChar? ht] at hreport
      · exact absurd (endsWithOperand_of_after hafter hr) hlacks.1
  | unmatched position found =>
    obtain ⟨hcs, front, rest, rfl, rfl, rfl, hwhole⟩ := h
    obtain ⟨reading, r, hafter, hr, houter⟩ := isWellFormed_iff.mp hwhole
    refine parseChars_of_stuck hcs
      ⟨front, ')', rest, reading, .closing, rfl, hafter, by decide, by decide, ?_⟩
    obtain ⟨done, operand, outer⟩ := reading
    obtain rfl : operand = some r := hr
    obtain rfl : outer = [] := houter
    rfl
  | unexpectedEnd position =>
    obtain ⟨hcs, hne, rfl, hbegins, hlacks⟩ := h
    obtain ⟨reading, hafter⟩ := beginsExpression_iff.mp hbegins
    rw [parseChars_of_after hafter hne]
    obtain ⟨done, operand, outer⟩ := reading
    cases operand with
    | none => rfl
    | some r => exact absurd (endsWithOperand_of_after hafter rfl) hlacks.1
  | unclosed position =>
    obtain ⟨hcs, hbegins, hends, hlast⟩ := h
    obtain ⟨reading, hafter⟩ := beginsExpression_iff.mp hbegins
    rw [parseChars_of_after hafter (exists_of_endsWithOperand hends)]
    have hoperand := isSome_operand_of_endsWithOperand hafter hends
    have hopen := (opened_of_after hafter).isLastUnclosed_iff.mp hlast
    obtain ⟨done, operand, outer⟩ := reading
    obtain ⟨r, rfl⟩ := Option.isSome_iff_exists.mp hoperand
    cases outer with
    | nil => exact absurd hopen (by simp [openPositions])
    | cons group outer =>
      obtain rfl : group.1 = position := Option.some.inj hopen
      rfl

/-- **A fault is reported iff it describes the text**, so it is at the first character that is
wrong: the first one that belongs to no expression, or else the first one with which no complete
expression starts any more, or else the end of a text that is not complete. A dot is reported only
where one is written, also by recursive descent, which puts a dot in for every juxtaposition and
gives the same answer. -/
theorem parse_eq_error_iff_describes (text : String) :
    (∀ f, parse text = .error f ↔ f.Describes text.toList) ∧
      (∀ position, parse text = .error (.unexpectedToken position '.') →
        text.toList[position]? = some '.') ∧
      descend text = parse text := by
  have hiff (f : RegexError) : parse text = .error f ↔ f.Describes text.toList :=
    ⟨describes_of_parseChars, parseChars_of_describes⟩
  refine ⟨hiff, fun position h => ?_, descend_eq_parse text⟩
  obtain ⟨-, front, rest, heq, hlength, -⟩ := (hiff _).mp h
  exact getElem?_eq_some_iff_eq_append.mpr ⟨front, rest, heq, hlength⟩

example : parse "a (b + c" = .error (.unclosed 2) := rfl

end RegularLanguages.Regex
