import RegularLanguages.Proofs.Regex.Grammar
import RegularLanguages.Regex.Fault

/-!
# Scanning part by part

A text is scanned without regard to what stands in front of it, so the tokens of a text are those
of its parts. What a character is does not depend on its place either: the first one that is
neither a blank nor the character of a token is reported.

Results:
* `scan_append`: a text is scanned part by part.
* **`scan_eq_error_iff`**: the first character that belongs to no expression is reported.
* `exists_scan_eq_ok_iff`, `scan_eq_nil_iff`: when tokens are found, and when there are none.
-/

namespace RegularLanguages.Regex

variable {cs front rest : List Char} {c : Char} {position : Nat}

/-! ## Scanning parts of a text -/

namespace Token

theorem ofChar?_eq_none_iff : ofChar? c = none ↔ isSignificant c = false := by
  unfold ofChar? isSignificant isSymbol
  grind

theorem exists_ofChar?_of_isAdmissible (h : isAdmissible c = true) (hc : Text.isBlank c = false) :
    ∃ t, ofChar? c = some t := by
  rw [isAdmissible, hc, Bool.false_or] at h
  refine Option.ne_none_iff_exists'.mp fun hnone => ?_
  rw [ofChar?_eq_none_iff.mp hnone] at h
  exact absurd h Bool.false_ne_true

theorem scan_cons_of_isBlank (hc : Text.isBlank c = true) :
    scan position (c :: cs) = scan (position + 1) cs := by
  rw [scan, if_pos hc]

theorem scan_cons_of_ofChar? {t : Token} (hc : Text.isBlank c = false) (ht : ofChar? c = some t) :
    scan position (c :: cs) = (scan (position + 1) cs).map ((position, t) :: ·) := by
  rw [scan, if_neg (by simp [hc]), ht]

/-- A text is scanned part by part. -/
theorem scan_append : ∀ (front rest : List Char) (position : Nat),
    scan position (front ++ rest) = do
      let l ← scan position front
      let m ← scan (position + front.length) rest
      .ok (l ++ m)
  | [], rest, position => by
    rw [List.nil_append, List.length_nil, Nat.add_zero, scan]
    cases scan position rest <;> rfl
  | c :: front, rest, position => by
    have ih := scan_append front rest (position + 1)
    rw [Nat.add_assoc, Nat.add_comm 1] at ih
    rw [List.cons_append, List.length_cons]
    cases hc : Text.isBlank c with
    | true => rw [scan_cons_of_isBlank hc, scan_cons_of_isBlank hc, ih]
    | false =>
      cases ht : ofChar? c with
      | none => simp [scan, hc, ht, bind, Except.bind]
      | some t =>
        rw [scan_cons_of_ofChar? hc ht, scan_cons_of_ofChar? hc ht, ih]
        cases scan (position + 1) front with
        | error f => rfl
        | ok l => cases scan (position + (front.length + 1)) rest <;> rfl

/-- A character that may stand in an expression is not at fault for what scanning reports. -/
theorem scan_cons_eq_error_iff {f : RegexError} (hc : isAdmissible c = true) :
    scan position (c :: cs) = .error f ↔ scan (position + 1) cs = .error f := by
  cases hblank : Text.isBlank c with
  | true => rw [scan_cons_of_isBlank hblank]
  | false =>
    obtain ⟨t, ht⟩ := exists_ofChar?_of_isAdmissible hc hblank
    rw [scan_cons_of_ofChar? hblank ht]
    cases scan (position + 1) cs <;> simp [Except.map]

/-- **The first character that belongs to no expression is reported**, and only that. -/
theorem scan_eq_error_iff {f : RegexError} : ∀ {cs : List Char} {position : Nat},
    scan position cs = .error f ↔ ∃ front found rest, cs = front ++ found :: rest ∧
      (∀ c ∈ front, isAdmissible c = true) ∧ isAdmissible found = false ∧
        f = .invalidCharacter (position + front.length) found
  | [], position => by simp [scan]
  | c :: cs, position => by
    constructor
    · intro h
      cases hc : isAdmissible c with
      | false =>
        obtain ⟨hblank, hsignificant⟩ := Bool.or_eq_false_iff.mp hc
        refine ⟨[], c, cs, rfl, by simp, hc, ?_⟩
        rw [scan, if_neg (by simp [hblank]), ofChar?_eq_none_iff.mpr hsignificant] at h
        exact (Except.error.inj h).symm
      | true =>
        obtain ⟨front, found, rest, rfl, hfront, hfound, rfl⟩ :=
          scan_eq_error_iff.mp ((scan_cons_eq_error_iff hc).mp h)
        refine ⟨c :: front, found, rest, rfl, List.forall_mem_cons.mpr ⟨hc, hfront⟩, hfound, ?_⟩
        rw [List.length_cons, Nat.add_assoc, Nat.add_comm 1]
    · rintro ⟨front, found, rest, heq, hfront, hfound, rfl⟩
      cases front with
      | nil =>
        obtain ⟨rfl, rfl⟩ := List.cons_eq_cons.mp heq
        obtain ⟨hblank, hsignificant⟩ := Bool.or_eq_false_iff.mp hfound
        rw [scan, if_neg (by simp [hblank]), ofChar?_eq_none_iff.mpr hsignificant]
        rfl
      | cons d front =>
        obtain ⟨rfl, rfl⟩ := List.cons_eq_cons.mp heq
        obtain ⟨hc, hfront⟩ := List.forall_mem_cons.mp hfront
        rw [List.length_cons, Nat.add_comm front.length, ← Nat.add_assoc]
        exact (scan_cons_eq_error_iff hc).mpr
          (scan_eq_error_iff.mpr ⟨front, found, rest, rfl, hfront, hfound, rfl⟩)

/-- Nothing is scanned iff there are only blanks. -/
theorem scan_eq_nil_iff : ∀ {cs : List Char} {position : Nat},
    scan position cs = .ok [] ↔ ∀ c ∈ cs, Text.isBlank c = true
  | [], position => by simp [scan]
  | c :: cs, position => by
    rw [List.forall_mem_cons]
    cases hc : Text.isBlank c with
    | true =>
      rw [scan_cons_of_isBlank hc, scan_eq_nil_iff]
      simp
    | false =>
      refine iff_of_false (fun h => ?_) (by simp)
      cases ht : ofChar? c with
      | none => simp [scan, hc, ht] at h
      | some t =>
        rw [scan_cons_of_ofChar? hc ht] at h
        obtain ⟨_, -, h⟩ := map_eq_ok h
        exact absurd h (by simp)

/-- Scanning succeeds iff every character may stand in an expression. -/
theorem exists_scan_eq_ok_iff :
    (∃ found, scan position cs = .ok found) ↔ ∀ c ∈ cs, isAdmissible c = true := by
  constructor
  · rintro ⟨found, h⟩ c hc
    obtain ⟨hread, hchars⟩ := (scan_eq_ok_iff cs position).mp ⟨found, h, rfl⟩
    rw [isAdmissible, Bool.or_eq_true]
    refine or_iff_not_imp_left.mpr fun hblank => ?_
    have hmem : c ∈ significant cs := List.mem_filter.mpr ⟨hc, by simp [hblank]⟩
    rw [← hchars] at hmem
    obtain ⟨t, ht, rfl⟩ := List.mem_map.mp hmem
    exact isSignificant_of_readable (hread t ht)
  · intro h
    cases hscan : scan position cs with
    | ok found => exact ⟨found, rfl⟩
    | error f =>
      obtain ⟨front, found, rest, rfl, -, hfound, -⟩ := scan_eq_error_iff.mp hscan
      rw [h found (by simp)] at hfound
      exact absurd hfound Bool.noConfusion

end Token

/-! ## The end of an operand -/

/-- An operand ends with a token that can end one. -/
theorem exists_last_of_endsWithOperand (h : EndsWithOperand cs) :
    ∃ (us : List Char) (u : Token), significant cs = us ++ [u.toChar] ∧ u.Readable ∧
      u.endsOperand = true := by
  obtain ⟨front, f, h⟩ := h
  obtain ⟨ts, u, hu, hends⟩ := f.exists_end
  refine ⟨front ++ ts.map Token.toChar, u, ?_, f.readable u (by simp [hu]), hends⟩
  rw [h, Derivation.Factor.chars, hu, List.map_append, List.append_assoc]
  rfl

theorem exists_of_endsWithOperand (h : EndsWithOperand cs) : ∃ c ∈ cs, Text.isBlank c = false := by
  obtain ⟨us, u, hlast, -, -⟩ := exists_last_of_endsWithOperand h
  have hu : u.toChar ∈ significant cs := by simp [hlast]
  exact ⟨u.toChar, (List.mem_filter.mp hu).1, by simpa using (List.mem_filter.mp hu).2⟩

end RegularLanguages.Regex
