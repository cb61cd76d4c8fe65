import RegularLanguages.Proofs.Automaton.Minimization
import RegularLanguages.Proofs.Automaton.Numbering

/-!
# The canonical automaton of a language

Determinizing, completing and pruning keep the language, minimizing makes the automaton unique up
to names, and numbering forgets the names. So the canonical automaton depends on the alphabet and
the language alone, and comparing canonical automata compares languages. All of this holds of valid
automata, which are those that can be put together (`valid_iff_obtainable`).

Results:
* `trimmed_language`: the passes in front of minimization keep the language.
* `canonicalize_eq_of_language`: automata with the same words have the same canonical automaton.
* `canonicalize_canonicalFor`: what the canonical automaton looks like; `size_canonicalize`: it is
  as small as the minimal one.
* **`canonicalize_eq_iff_and_canonicalFor`**: canonical automata are equal iff the words accepted
  are the same, so that the canonical automaton is its own canonical automaton.
-/

namespace RegularLanguages

namespace Automaton

variable {A B : Automaton}

/-- The automaton that is minimized and numbered. -/
def trimmed (A : Automaton) : Automaton := A.determinize.complete.prune

theorem trimmed_valid (hA : A.Valid) : A.trimmed.Valid :=
  within_valid (complete_total (determinize_valid hA)).valid

theorem trimmed_language (hA : A.Valid) (w : Word) : A.trimmed.language w ↔ A.language w := by
  rw [trimmed, prune_language, complete_language (determinize_valid hA)]
  exact determinize_language hA w

@[simp] theorem alphabet_trimmed (A : Automaton) : A.trimmed.alphabet = A.alphabet := by
  show A.determinize.complete.alphabet = A.alphabet
  rw [alphabet_complete, alphabet_determinize]

theorem canonicalize_eq (A : Automaton) :
    A.canonicalize = A.trimmed.minimize.numberedByDiscovery := rfl

section Valid

variable (hA : A.Valid)
include hA

theorem minimize_trimmed_total : A.trimmed.minimize.Total := minimize_total (trimmed_valid hA)

theorem minimize_trimmed_accessible :
    ∀ q ∈ A.trimmed.minimize.states, A.trimmed.minimize.Accessible q :=
  fun _ => minimize_accessible (trimmed_valid hA)

theorem faithful_minimize_trimmed :
    A.trimmed.minimize.Faithful A.trimmed.minimize.number :=
  faithful_number (minimize_trimmed_accessible hA)

theorem minimize_trimmed_language (w : Word) : A.trimmed.minimize.language w ↔ A.language w :=
  (minimize_language (trimmed_valid hA) w).trans (trimmed_language hA w)

theorem canonicalize_total : A.canonicalize.Total :=
  rename_total (minimize_trimmed_total hA) (faithful_minimize_trimmed hA)

theorem canonicalize_language (w : Word) : A.canonicalize.language w ↔ A.language w :=
  (rename_language (minimize_trimmed_total hA).valid (faithful_minimize_trimmed hA) w).trans
    (minimize_trimmed_language hA w)

theorem canonicalize_accessible : ∀ q ∈ A.canonicalize.states, A.canonicalize.Accessible q :=
  fun _ => rename_accessible (minimize_trimmed_accessible hA)

theorem canonicalize_separated : A.canonicalize.Separated :=
  rename_separated (minimize_trimmed_total hA).valid (faithful_minimize_trimmed hA)
    (minimize_separated (trimmed_valid hA))

omit hA in
@[simp] theorem alphabet_canonicalize (A : Automaton) : A.canonicalize.alphabet = A.alphabet := by
  rw [canonicalize_eq, numberedByDiscovery_eq, alphabet_rename, alphabet_minimize,
    alphabet_trimmed]

/-- **Automata over one alphabet with the same words have the same canonical automaton.** -/
theorem canonicalize_eq_of_language (hB : B.Valid) (halph : B.alphabet = A.alphabet)
    (hlang : ∀ w, A.language w ↔ B.language w) : A.canonicalize = B.canonicalize := by
  obtain ⟨i, hi⟩ := exists_initial_minimize (trimmed_valid hA)
  obtain ⟨j, hj⟩ := exists_initial_minimize (trimmed_valid hB)
  obtain ⟨f, hf, hBA⟩ := exists_rename_eq (minimize_trimmed_total hA) (minimize_trimmed_total hB)
    (minimize_trimmed_accessible hA) (minimize_trimmed_accessible hB)
    (minimize_separated (trimmed_valid hA)) (minimize_separated (trimmed_valid hB)) hi hj
    (by simp [halph])
    fun w => (minimize_trimmed_language hA w).trans
      ((hlang w).trans (minimize_trimmed_language hB w).symm)
  rw [canonicalize_eq, canonicalize_eq, hBA]
  exact (numberedByDiscovery_rename (minimize_trimmed_total hA)
    (minimize_trimmed_accessible hA) hf).symm

theorem discovered_canonicalize :
    A.canonicalize.discovered =
      (List.range A.canonicalize.size).map (State.numbered "q") :=
  discovered_numberedByDiscovery (minimize_trimmed_total hA) (minimize_trimmed_accessible hA)

theorem initial_canonicalize : A.canonicalize.initial = some (State.numbered "q" 0) := by
  obtain ⟨i, hi⟩ := exists_initial_minimize (trimmed_valid hA)
  have hfirst : A.trimmed.minimize.discovered[0]? = some i := by
    rw [discovered, Search.reachable_eq (bounded_discovered _), Search.discoveredFrom, hi,
      Option.toList_some, List.singleton_append, List.eraseDups_cons]
    rfl
  rw [canonicalize_eq, numberedByDiscovery_eq, initial_rename, hi, Option.map_some,
    number_of_getElem? hfirst]

/-- Numbering the states of the minimal automaton adds none and loses none. -/
theorem size_canonicalize : A.canonicalize.size = A.minimize.size := by
  have hlang (w : Word) : A.canonicalize.language w ↔ A.minimize.language w :=
    (canonicalize_language hA w).trans (minimize_language hA w).symm
  have halph : A.minimize.alphabet = A.canonicalize.alphabet :=
    (alphabet_minimize A).trans (alphabet_canonicalize A).symm
  obtain ⟨i, hi⟩ := exists_initial_minimize hA
  have hC := canonicalize_total hA
  have hM := minimize_total hA
  exact Nat.le_antisymm
    (size_le_of_separated hC.valid hC.deterministic (canonicalize_accessible hA)
      (canonicalize_separated hA) hM halph hlang hi)
    (size_le_of_separated hM.valid hM.deterministic (fun _ => minimize_accessible hA)
      (minimize_separated hA) hC halph.symm (fun w => (hlang w).symm) (initial_canonicalize hA))

end Valid

/-- `C` is the canonical automaton for the words that `A` accepts: it is total, its states are
`q0, q1, …` in the order of their discovery, all accessible and any two with different
meanings. -/
structure CanonicalFor (C A : Automaton) : Prop where
  valid : C.Valid
  alphabet_eq : C.alphabet = A.alphabet
  accepts_eq : ∀ w, C.accepts w = A.accepts w
  isDeterministic : C.isDeterministic = true
  isComplete : C.isComplete = true
  accessible : ∀ q ∈ C.states, C.Accessible q
  separated : ∀ p ∈ C.states, ∀ q ∈ C.states, p ≠ q →
    ∃ w, ¬ (C.languageFrom p w ↔ C.languageFrom q w)
  one_not_coAccessible : ∀ p ∈ C.states, ∀ q ∈ C.states,
    ¬ C.CoAccessible p → ¬ C.CoAccessible q → p = q
  initial_eq : C.initial = some (State.numbered "q" 0)
  states_eq : C.states = .ofList ((List.range C.size).map (State.numbered "q"))
  inDiscoveryOrder : C.InDiscoveryOrder ((List.range C.size).map (State.numbered "q"))

theorem canonicalize_canonicalFor (hA : A.Valid) : A.canonicalize.CanonicalFor A := by
  have htotal := canonicalize_total hA
  have hacc := canonicalize_accessible hA
  have hsep := canonicalize_separated hA
  have hdisc := discovered_canonicalize hA
  refine ⟨htotal.valid, alphabet_canonicalize A,
    fun w => accepts_eq_iff.mpr (canonicalize_language hA w),
    isDeterministic_iff.mpr htotal.deterministic, isComplete_iff.mpr htotal.complete, hacc,
    fun p hp q hq hpq => hsep.exists_word hp hq hpq,
    fun p hp q hq => eq_of_not_coAccessible hsep hp hq, initial_canonicalize hA, ?_, ?_⟩
  · rw [← hdisc]
    exact states_eq_ofList_discovered htotal hacc
  · rw [← hdisc]
    exact inDiscoveryOrder_discovered htotal

/-! ## A nondeterministic automaton -/

/-- A nondeterministic automaton with a transition on the empty word for the words over `a` and `b`
that end with `a`: the state `loop` guesses which `a` is the last character. -/
def guessingLast : Automaton where
  states := .ofList [⟨"last"⟩, ⟨"loop"⟩, ⟨"start"⟩]
  alphabet := .ofList ['a', 'b', 'c']
  edges := .ofList [⟨⟨"start"⟩, .epsilon, ⟨"loop"⟩⟩, ⟨⟨"loop"⟩, .symbol 'a', ⟨"loop"⟩⟩,
    ⟨⟨"loop"⟩, .symbol 'b', ⟨"loop"⟩⟩, ⟨⟨"loop"⟩, .symbol 'a', ⟨"last"⟩⟩]
  initial := some ⟨"start"⟩
  finals := .ofList [⟨"last"⟩]

theorem guessingLast_valid : guessingLast.Valid := by decide

theorem endsWithA_of_languageFrom_guessingLast {p : State} {w : Word}
    (h : guessingLast.languageFrom p w) : if p = ⟨"last"⟩ then w = [] else EndsWithA w := by
  refine languageFrom_least (L := fun p w => if p = ⟨"last"⟩ then w = [] else EndsWithA w) ?_ ?_ h
  · intro q hq
    obtain rfl : q = ⟨"last"⟩ := by simpa [guessingLast] using hq
    rfl
  · intro e he w
    simp only [guessingLast, OrderedSet.mem_ofList, List.mem_cons, List.not_mem_nil, or_false] at he
    rcases he with rfl | rfl | rfl | rfl
    · exact id
    · exact fun h => Or.inl ⟨rfl, Or.inr h⟩
    · exact fun h => Or.inr ⟨rfl, h⟩
    · exact fun h => Or.inl ⟨rfl, Or.inl h⟩

theorem languageFrom_guessingLast_loop : ∀ {w : Word}, EndsWithA w →
    guessingLast.languageFrom ⟨"loop"⟩ w
  | [], h => h.elim
  | c :: w, h => by
    rcases h with ⟨rfl, rfl | h⟩ | ⟨rfl, h⟩
    · exact ⟨⟨"last"⟩, by decide, .symbol (by decide) (.refl _)⟩
    · exact languageFrom_of_mem_edges (a := .symbol 'a') (by decide)
        (languageFrom_guessingLast_loop h)
    · exact languageFrom_of_mem_edges (a := .symbol 'b') (by decide)
        (languageFrom_guessingLast_loop h)

theorem accepts_guessingLast (w : Word) : guessingLast.accepts w = decide (EndsWithA w) := by
  rw [Bool.eq_iff_iff, accepts_iff, decide_eq_true_eq,
    language_eq_languageFrom (p := ⟨"start"⟩) rfl]
  refine ⟨endsWithA_of_languageFrom_guessingLast, fun h => ?_⟩
  exact languageFrom_of_mem_edges (a := .epsilon) (by decide) (languageFrom_guessingLast_loop h)

/-! ## Canonical automata and languages -/

/-- **The canonical automaton stands for the language.** Canonical automata of automata over one
alphabet are equal iff the same words are accepted; the canonical automaton accepts the words of
the given one, has the shape of `CanonicalFor` and is its own canonical automaton. -/
theorem canonicalize_eq_iff_and_canonicalFor (hA : A.Valid) :
    (∀ B : Automaton, B.Valid → B.alphabet = A.alphabet →
      (A.canonicalize = B.canonicalize ↔ ∀ w, A.accepts w = B.accepts w)) ∧
    A.canonicalize.CanonicalFor A ∧
    A.canonicalize.canonicalize = A.canonicalize ∧
    A.canonicalize.isCanonical = true := by
  have hidem : A.canonicalize.canonicalize = A.canonicalize :=
    canonicalize_eq_of_language (canonicalize_total hA).valid hA (alphabet_canonicalize A).symm
      (canonicalize_language hA)
  refine ⟨fun B hB halph => ⟨fun h w => ?_, fun h => ?_⟩, canonicalize_canonicalFor hA, hidem, ?_⟩
  · rw [accepts_eq_iff, ← canonicalize_language hA, h]
    exact canonicalize_language hB w
  · exact canonicalize_eq_of_language hA hB halph fun w => accepts_eq_iff.mp (h w)
  · rw [isCanonical, hidem, decide_eq_true_eq]

/-- The automaton that guesses the last `a` and the deterministic one with the same words, of which
two states are merged, have one canonical automaton, with three states. An automaton that rejects
every word has another one. -/
theorem canonicalize_guessingLast :
    guessingLast.canonicalize = endingWithA.canonicalize ∧
      guessingLast.canonicalize.CanonicalFor guessingLast ∧
      guessingLast.canonicalize.states = .ofList [⟨"q0"⟩, ⟨"q1"⟩, ⟨"q2"⟩] ∧
      guessingLast.canonicalize.accepts ['b', 'a'] = true ∧
      guessingLast.canonicalize.accepts ['a', 'b'] = false ∧
      guessingLast.canonicalize ≠ (rejecting (.ofList ['a', 'b', 'c']) ⟨"p"⟩).canonicalize := by
  obtain ⟨hiff, hcanonical, -⟩ := canonicalize_eq_iff_and_canonicalFor guessingLast_valid
  have heq : guessingLast.canonicalize = endingWithA.canonicalize :=
    (hiff _ endingWithA_valid rfl).mpr fun w =>
      (accepts_guessingLast w).trans (accepts_endingWithA w).symm
  refine ⟨heq, hcanonical, ?_, ?_, ?_, fun h => ?_⟩
  · have hsize : guessingLast.canonicalize.size = 3 := by
      rw [heq, size_canonicalize endingWithA_valid, size_minimize_endingWithA]
    rw [hcanonical.states_eq, hsize]
    decide
  · rw [hcanonical.accepts_eq, accepts_guessingLast]
    decide
  · rw [hcanonical.accepts_eq, accepts_guessingLast]
    decide
  · have hε : epsilonChar ∉ OrderedSet.ofList ['a', 'b', 'c'] := by decide
    have hrejects := (hiff _ (rejecting_total hε).valid rfl).mp h ['a']
    rw [accepts_guessingLast] at hrejects
    exact not_language_rejecting ['a'] (accepts_iff.mp hrejects.symm)

end Automaton

end RegularLanguages
