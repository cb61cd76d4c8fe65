import RegularLanguages.Proofs.Automaton.Elimination
import RegularLanguages.Proofs.Regex.Positions
import RegularLanguages.Proofs.Regex.Printing
import RegularLanguages.Proofs.Regex.Thompson

/-!
# Reading the expression of an automaton back

Extracting an expression from an automaton, printing it, reading the text and building an
automaton again leads back to the same language. Symbols are printed as they are, and the reader
takes nothing but letters and digits as symbols, whereas an automaton may have any character but
`ε` in its alphabet. So the way back exists for exactly those automata that accept words over
letters and digits only.

Results:
* `isAlphanumeric_of_readsBack`: what is read back has words over letters and digits only.
* `writable_of_matches_iff`: the symbols of the expression occur in accepted words.
* **`readsBack_iff`**: which automata are read back from the text of their expression.
* `not_readsBack_onlyHash`: an automaton that is not.
-/

namespace RegularLanguages

namespace Automaton

variable {A : Automaton}

/-- The text of the expression is read, and both constructions make an automaton of what is read
that accepts the same words. -/
def ReadsBack (A : Automaton) : Prop :=
  ∃ s, Regex.parse (Regex.showLanguage A.toRegex) = .ok s ∧
    (∀ w, s.thompson.accepts w = A.accepts w) ∧ ∀ w, s.glushkov.accepts w = A.accepts w

/-- What is read back has words over letters and digits only. -/
theorem isAlphanumeric_of_readsBack (h : A.ReadsBack) {w : Word} (hw : A.accepts w = true) :
    ∀ c ∈ w, Text.isAlphanumeric c = true := by
  obtain ⟨s, hs, hthompson, -⟩ := h
  rw [← hthompson, Regex.accepts_thompson_iff] at hw
  intro c hc
  exact Regex.isAlphanumeric_of_parse hs c (Regex.mem_leaves_of_matches hw c hc)

/-- Every symbol of an expression for the language occurs in an accepted word. -/
theorem writable_of_matches_iff (hA : A.Valid) {r : Regex}
    (hr : ∀ w, r.Matches w ↔ A.accepts w = true)
    (halnum : ∀ w, A.accepts w = true → ∀ c ∈ w, Text.isAlphanumeric c = true) : r.Writable := by
  intro c hc
  obtain ⟨w, hw, hcw⟩ := Regex.exists_matches_of_mem_leaves hc
  have haccepts := (hr w).mp hw
  refine ⟨halnum w haccepts c hcw, ?_⟩
  rintro rfl
  obtain ⟨p, q, _, _, hpath⟩ := accepts_iff.mp haccepts
  exact hA.epsilon_not_mem (path_symbol_mem hA hpath _ hcw)

/-- **Which automata are read back.** With some word accepted, the text of the expression leads
back to the language iff all accepted words are over letters and digits. -/
theorem readsBack_iff (hA : A.Valid) (hne : ∃ w, A.accepts w = true) :
    A.ReadsBack ↔ ∀ w, A.accepts w = true → ∀ c ∈ w, Text.isAlphanumeric c = true := by
  constructor
  · exact fun h w hw => isAlphanumeric_of_readsBack h hw
  · intro halnum
    have hlang (w : Word) : Regex.languageOf A.toRegex w ↔ A.accepts w = true := by
      rw [languageOf_toRegex hA, accepts_iff]
    unfold ReadsBack
    cases hr : A.toRegex with
    | none =>
      obtain ⟨w, hw⟩ := hne
      have hempty := (hlang w).mpr hw
      rw [hr] at hempty
      exact hempty.elim
    | some r =>
      rw [hr] at hlang
      have hmatches (w : Word) : r.leftAssociated.Matches w ↔ A.accepts w = true :=
        Regex.matches_leftAssociated.trans (hlang w)
      have hparse := Regex.parse_toText (writable_of_matches_iff hA hlang halnum)
      refine ⟨r.leftAssociated, hparse, ?_, ?_⟩
      · intro w
        rw [Bool.eq_iff_iff, Regex.accepts_thompson_iff, hmatches]
      · intro w
        rw [Bool.eq_iff_iff, Regex.accepts_glushkov_iff, hmatches]

/-- An automaton over letters is read back. -/
theorem repeatThenEnd_readsBack : repeatThenEnd.ReadsBack := by
  refine (readsBack_iff repeatThenEnd_valid ⟨_, repeatThenEnd_accepts⟩).mpr fun w hw c hc => ?_
  obtain ⟨p, q, _, _, hpath⟩ := accepts_iff.mp hw
  have hmem := path_symbol_mem repeatThenEnd_valid hpath c hc
  have hcases : c = 'a' ∨ c = 'b' := by simpa [repeatThenEnd] using hmem
  rcases hcases with rfl | rfl
  · decide
  · decide

/-- The word `#` and no other. -/
def onlyHash : Automaton where
  states := .ofList [⟨"p"⟩, ⟨"q"⟩]
  alphabet := .ofList ['#']
  edges := .ofList [⟨⟨"p"⟩, .symbol '#', ⟨"q"⟩⟩]
  initial := some ⟨"p"⟩
  finals := .ofList [⟨"q"⟩]

/-- A symbol that is neither a letter nor a digit is printed and not read. -/
theorem not_readsBack_onlyHash :
    onlyHash.Valid ∧ onlyHash.accepts ['#'] = true ∧ ¬ onlyHash.ReadsBack := by
  have haccepts : onlyHash.accepts ['#'] = true :=
    accepts_iff.mpr ⟨⟨"p"⟩, ⟨"q"⟩, rfl, by decide, .symbol (by decide) (.refl _)⟩
  refine ⟨by decide, haccepts, fun h => ?_⟩
  exact absurd (isAlphanumeric_of_readsBack h haccepts '#' (by simp)) (by decide +kernel)

end Automaton

end RegularLanguages
