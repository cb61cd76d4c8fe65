import RegularLanguages.Proofs.Automaton.Products

/-!
# A complement accepts what is left

In a total automaton a word over the alphabet leads from a state to exactly one state, so of the
two automata with the final states and with all others as final states exactly one accepts it
(`languageFrom_swapFinals`). Which total automaton it is does not matter: an automaton is completed,
and one without initial state is replaced by one that accepts nothing.

A difference is the product with a complement. The complement is taken over both alphabets: over
the alphabet of the second automaton alone it would accept no word with a symbol that only the first
one knows, and such words belong to the difference.

Results:
* `complementBase_language`: the automaton of which the final states are swapped accepts the same
  words.
* `complementOver_language`: what a complement accepts.
* **`isComplement_complementOver_and_involutive`**: complements, and complements of complements.
* `difference_language`, **`accepts_difference`**: differences.
-/

namespace RegularLanguages.Automaton

variable {A B C : Automaton} {p q : State} {w : Word}

/-! ## Swapping the final states -/

theorem mem_finals_swapFinals : q ∈ C.swapFinals.finals ↔ q ∈ C.states ∧ q ∉ C.finals := by
  show q ∈ C.states.filter (fun q => !C.isFinal q) ↔ _
  rw [OrderedSet.mem_filter, Bool.not_eq_true', isFinal, decide_eq_false_iff_not]

theorem path_swapFinals : C.swapFinals.Path p w q ↔ C.Path p w q :=
  ⟨path_mono (A := C.swapFinals) (B := C) fun _ => id,
    path_mono (A := C) (B := C.swapFinals) fun _ => id⟩

theorem swapFinals_total (hC : C.Total) : C.swapFinals.Total where
  valid := swapFinals_valid hC.valid
  deterministic := ⟨hC.deterministic.not_epsilon, hC.deterministic.target_unique⟩
  complete := hC.complete

/-- **Swapping the final states** of a total automaton complements the meaning of every state. -/
theorem languageFrom_swapFinals (hC : C.Total) (hp : p ∈ C.states) :
    C.swapFinals.languageFrom p w ↔ w.Over C.alphabet ∧ ¬ C.languageFrom p w := by
  constructor
  · rintro ⟨q, hq, h⟩
    rw [path_swapFinals] at h
    refine ⟨path_symbol_mem hC.valid h, ?_⟩
    rintro ⟨q', hq', h'⟩
    obtain rfl := path_unique hC.deterministic h h'
    exact (mem_finals_swapFinals.mp hq).2 hq'
  · rintro ⟨hw, hn⟩
    obtain ⟨q, hq, h⟩ := exists_path hC hp hw
    exact ⟨q, mem_finals_swapFinals.mpr ⟨hq, fun hf => hn ⟨q, hf, h⟩⟩, path_swapFinals.mpr h⟩

/-! ## The automaton that is swapped -/

theorem isSome_initial_complete (A : Automaton) :
    A.complete.initial.isSome = A.initial.isSome := by
  by_cases hA : A.Deterministic
  · rw [complete_of_deterministic hA, initial_withSink]
  · rw [complete_of_not_deterministic hA, initial_withSink, isSome_initial_determinize]

theorem exists_initial_complementBase (A : Automaton) (symbols : OrderedSet Char) :
    ∃ i, (A.complementBase symbols).initial = some i := by
  unfold complementBase
  by_cases hi : (A.extended symbols).initial.isSome = true
  · rw [if_pos hi]
    exact Option.isSome_iff_exists.mp ((isSome_initial_complete _).trans hi)
  · rw [if_neg hi]
    exact ⟨_, rfl⟩

/-- The automaton of which the final states are swapped accepts the same words. -/
theorem complementBase_language (hA : A.Valid) (symbols : OrderedSet Char) :
    (A.complementBase symbols).language w ↔ A.language w := by
  unfold complementBase
  by_cases hi : (A.extended symbols).initial.isSome = true
  · rw [if_pos hi, complete_language (extended_valid hA symbols), language_extended]
  · have hnone : A.initial = none := Option.not_isSome_iff_eq_none.mp hi
    rw [if_neg hi]
    exact iff_of_false (not_language_rejecting w) (not_language_of_initial_eq_none hnone w)

/-! ## Complements -/

theorem complementOver_total (hA : A.Valid) (symbols : OrderedSet Char) :
    (A.complementOver symbols).Total :=
  swapFinals_total (complementBase_total hA symbols)

/-- A complement accepts the words over its alphabet that the automaton does not accept. -/
theorem complementOver_language (hA : A.Valid) (symbols : OrderedSet Char) :
    (A.complementOver symbols).language w ↔
      w.Over (A.complementOver symbols).alphabet ∧ ¬ A.language w := by
  have hC := complementBase_total hA symbols
  obtain ⟨i, hi⟩ := exists_initial_complementBase A symbols
  have hswap : (A.complementOver symbols).initial = some i := hi
  rw [language_eq_languageFrom hswap, ← complementBase_language hA symbols,
    language_eq_languageFrom hi]
  exact languageFrom_swapFinals hC (hC.valid.initial_mem i hi)

/-- `C` is a complete deterministic automaton over the alphabet that accepts the words that `A`
does not accept. -/
structure IsComplement (C A : Automaton) (alphabet : OrderedSet Char) : Prop where
  valid : C.Valid
  isDeterministic : C.isDeterministic = true
  isComplete : C.isComplete = true
  alphabet_eq : C.alphabet = alphabet
  accepts_iff : ∀ w, C.accepts w = true ↔ w.Over alphabet ∧ A.accepts w = false

theorem isComplement_complementOver (hA : A.Valid) (symbols : OrderedSet Char) :
    (A.complementOver symbols).IsComplement A
      (A.alphabet ∪ symbols.filter (· ≠ epsilonChar)) where
  valid := complementOver_valid hA symbols
  isDeterministic := isDeterministic_iff.mpr (complementOver_total hA symbols).deterministic
  isComplete := isComplete_iff.mpr (complementOver_total hA symbols).complete
  alphabet_eq := alphabet_complementOver A symbols
  accepts_iff w := by
    rw [accepts_iff, complementOver_language hA, alphabet_complementOver, ← Bool.not_eq_true,
      accepts_iff]

theorem isComplement_complement (hA : A.Valid) : A.complement.IsComplement A A.alphabet := by
  have h := isComplement_complementOver hA A.alphabet
  rwa [← alphabet_complementOver, ← complement, alphabet_complement] at h

/-- A complement of a complement over its own alphabet accepts what the automaton accepts. -/
theorem IsComplement.accepts_eq {D : Automaton} (hA : A.Valid) (hC : C.IsComplement A A.alphabet)
    (hD : D.IsComplement C A.alphabet) : D.accepts w = A.accepts w := by
  rw [Bool.eq_iff_iff, hD.accepts_iff, ← Bool.not_eq_true, hC.accepts_iff, ← Bool.not_eq_true]
  constructor
  · rintro ⟨hw, hn⟩
    by_contra hrejects
    exact hn ⟨hw, hrejects⟩
  · intro h
    have hw : w.Over A.alphabet := by
      by_contra hother
      rw [accepts_eq_false_of_not_over hA hother] at h
      exact absurd h (by simp)
    exact ⟨hw, fun hn => hn.2 h⟩

/-- **Complements**: a complement over further symbols is deterministic and complete over the
extended alphabet and accepts the words over it that the automaton does not accept, and the
complement of a complement accepts the words that the automaton accepts. -/
theorem isComplement_complementOver_and_involutive (hA : A.Valid) :
    (∀ symbols, (A.complementOver symbols).IsComplement A
      (A.alphabet ∪ symbols.filter (· ≠ epsilonChar))) ∧
    ∀ w, A.complement.complement.accepts w = A.accepts w := by
  refine ⟨isComplement_complementOver hA, fun w => ?_⟩
  have hC := isComplement_complement hA
  have hD := isComplement_complement hC.valid
  rw [alphabet_complement] at hD
  exact hC.accepts_eq hA hD

/-- Over `a`, an automaton without states accepts nothing. With `b` and `ε` as further symbols its
complement accepts `ab` and, as `ε` is not added, not the word that consists of `ε`. The complement
of a nondeterministic automaton rejects the words that end with `a`, with `d` as a further symbol
it accepts `da`, and the complement of the complement accepts and rejects as the automaton does. -/
theorem complementOver_void_and_guessingLast :
    (((void (.ofList ['a'])).complementOver (.ofList ['b', epsilonChar])).accepts ['a', 'b'] =
        true ∧
      ((void (.ofList ['a'])).complementOver (.ofList ['b', epsilonChar])).accepts [epsilonChar] =
        false) ∧
      ((guessingLast.complementOver (.ofList ['d'])).accepts ['b', 'a'] = false ∧
        (guessingLast.complementOver (.ofList ['d'])).accepts ['d', 'a'] = true) ∧
      guessingLast.complement.complement.accepts ['b', 'a'] = true ∧
      guessingLast.complement.complement.accepts ['a', 'b'] = false := by
  have hvoid : (void (.ofList ['a'])).Valid := by decide
  have h := (isComplement_complementOver_and_involutive hvoid).1 (.ofList ['b', epsilonChar])
  obtain ⟨hguessing, hinvolutive⟩ :=
    isComplement_complementOver_and_involutive guessingLast_valid
  refine ⟨⟨(h.accepts_iff _).mpr ⟨by simp [Word.Over, void, epsilonChar], rfl⟩, ?_⟩,
    ⟨?_, ((hguessing _).accepts_iff _).mpr ⟨by simp [Word.Over, guessingLast, epsilonChar], ?_⟩⟩,
    ?_, ?_⟩
  · rw [← Bool.not_eq_true, h.accepts_iff]
    rintro ⟨hw, -⟩
    exact absurd (hw epsilonChar List.mem_cons_self) (by decide)
  · rw [← Bool.not_eq_true, (hguessing _).accepts_iff, accepts_guessingLast]
    exact fun h => absurd h.2 (by decide)
  · rw [accepts_guessingLast]
    decide
  · rw [hinvolutive, accepts_guessingLast]
    decide
  · rw [hinvolutive, accepts_guessingLast]
    decide

/-! ## Differences -/

/-- The words of an automaton are over the alphabet of the complement of what is subtracted from
it. -/
theorem over_complementOver (hA : A.Valid) (hw : A.language w) :
    w.Over (B.complementOver (A.alphabet ∪ B.alphabet)).alphabet := by
  obtain ⟨p, q, -, -, h⟩ := hw
  intro c hc
  have hcA : c ∈ A.alphabet := path_symbol_mem hA h c hc
  have hcε : c ≠ epsilonChar := by
    rintro rfl
    exact hA.epsilon_not_mem hcA
  rw [alphabet_complementOver, OrderedSet.mem_union, OrderedSet.mem_filter, OrderedSet.mem_union,
    decide_eq_true_eq]
  exact Or.inr ⟨Or.inl hcA, hcε⟩

theorem difference_language (hA : A.Valid) (hB : B.Valid) :
    (A.difference B).language w ↔ A.language w ∧ ¬ B.language w := by
  rw [difference, intersection_language hA (complementOver_valid hB _), complementOver_language hB]
  exact and_congr_right fun hw => and_iff_right (over_complementOver hA hw)

/-- **A difference accepts what the first automaton accepts and the second does not**, whatever
their alphabets are. -/
theorem accepts_difference (hA : A.Valid) (hB : B.Valid) (w : Word) :
    (A.difference B).accepts w = (A.accepts w && !B.accepts w) := by
  rw [Bool.eq_iff_iff, Bool.and_eq_true, Bool.not_eq_true', ← Bool.not_eq_true, accepts_iff,
    accepts_iff, accepts_iff]
  exact difference_language hA hB

/-- All words over `a` and `b` without those over `b` and `c`: what has an `a` remains, although `a`
is no symbol of the second automaton, and `c` is not added. Nothing is lost to an automaton without
initial state. -/
theorem difference_everyWord :
    ((everyWord (.ofList ['a', 'b'])).difference (everyWord (.ofList ['b', 'c']))).accepts
        ['b', 'a'] = true ∧
      ((everyWord (.ofList ['a', 'b'])).difference (everyWord (.ofList ['b', 'c']))).accepts
        ['b', 'b'] = false ∧
      ((everyWord (.ofList ['a', 'b'])).difference (everyWord (.ofList ['b', 'c']))).accepts
        ['c', 'a'] = false ∧
      ((everyWord (.ofList ['a', 'b'])).difference (void (.ofList ['b']))).accepts ['b', 'b'] =
        true := by
  have hA : (everyWord (.ofList ['a', 'b'])).Valid := by decide
  have hB : (everyWord (.ofList ['b', 'c'])).Valid := by decide
  have haccepts {w : Word} :
      ((everyWord (.ofList ['a', 'b'])).difference (everyWord (.ofList ['b', 'c']))).accepts w =
        true ↔ w.Over (.ofList ['a', 'b']) ∧ ¬ w.Over (.ofList ['b', 'c']) := by
    rw [accepts_difference hA hB, Bool.and_eq_true, Bool.not_eq_true', ← Bool.not_eq_true,
      accepts_everyWord hA, accepts_everyWord hB]
  refine ⟨haccepts.mpr ?_, ?_, ?_, ?_⟩
  · simp [Word.Over]
  · rw [← Bool.not_eq_true, haccepts]
    simp [Word.Over]
  · rw [← Bool.not_eq_true, haccepts]
    simp [Word.Over]
  · rw [accepts_difference hA (by decide), (accepts_everyWord hA).mpr (by simp [Word.Over])]
    rfl

end RegularLanguages.Automaton
