import RegularLanguages.Proofs.Automaton.Canonical
import RegularLanguages.Proofs.Distinguishing
import RegularLanguages.Proofs.Word

/-!
# Deciding whether two automata accept the same words

The decision by canonical automata and the search for a word on which the automata disagree. The
alphabets may differ: both automata are taken over the union, which changes no word. Side by
side, the two canonical automata are one machine, and a word that tells its two initial states
apart need not be longer than there are states in both.

Results:
* `accepts_extended`, `alphabet_extended`, `extended_valid`: what a larger alphabet changes.
* `equivalent_iff`: the decision is right.
* `accepts_eq_of_short`: total automata that agree on short words agree.
* **`equivalent_iff_and_firstDisagreement`**: the decision, the search, and a length up to which
  the search decides.
-/

namespace RegularLanguages

namespace Automaton

variable {A B C D : Automaton}

/-! ## Larger alphabets -/

/-- Further symbols change no word. -/
@[simp] theorem accepts_extended (A : Automaton) (symbols : OrderedSet Char) (w : Word) :
    (A.extended symbols).accepts w = A.accepts w := rfl

theorem language_extended {symbols : OrderedSet Char} {w : Word} :
    (A.extended symbols).language w ↔ A.language w := by
  rw [← accepts_iff, ← accepts_iff, accepts_extended]

theorem extended_valid (hA : A.Valid) (symbols : OrderedSet Char) :
    (A.extended symbols).Valid where
  initial_mem := hA.initial_mem
  final_mem := hA.final_mem
  source_mem := hA.source_mem
  target_mem := hA.target_mem
  label_mem e he c hc := OrderedSet.mem_union.mpr (Or.inl (hA.label_mem e he c hc))
  epsilon_not_mem hε := by
    rcases OrderedSet.mem_union.mp hε with h | h
    · exact hA.epsilon_not_mem h
    · simp at h

/-- The symbols of a valid automaton are all added, since `ε` is not among them. -/
theorem alphabet_extended (hB : B.Valid) :
    (A.extended B.alphabet).alphabet = A.alphabet ∪ B.alphabet := by
  refine OrderedSet.ext_mem fun c => ?_
  have hne (h : c ∈ B.alphabet) : c ≠ epsilonChar := fun he => hB.epsilon_not_mem (he ▸ h)
  simp only [extended, OrderedSet.mem_union, OrderedSet.mem_filter, decide_eq_true_eq]
  exact or_congr_right (and_iff_left_of_imp hne)

theorem alphabet_extended_comm (hA : A.Valid) (hB : B.Valid) :
    (B.extended A.alphabet).alphabet = (A.extended B.alphabet).alphabet := by
  rw [alphabet_extended hA, alphabet_extended hB]
  refine OrderedSet.ext_mem fun c => ?_
  rw [OrderedSet.mem_union, OrderedSet.mem_union, or_comm]

/-! ## Deciding by canonical automata -/

/-- **The decision is right**, whatever the alphabets are. -/
theorem equivalent_iff (hA : A.Valid) (hB : B.Valid) :
    A.equivalent B = true ↔ ∀ w, A.accepts w = B.accepts w := by
  have hA' := extended_valid hA B.alphabet
  have hB' := extended_valid hB A.alphabet
  rw [equivalent, decide_eq_true_eq]
  constructor
  · intro h w
    rw [accepts_eq_iff, ← language_extended, ← canonicalize_language hA', h,
      canonicalize_language hB', language_extended]
  · intro h
    refine canonicalize_eq_of_language hA' hB' (alphabet_extended_comm hA hB) fun w => ?_
    exact accepts_eq_iff.mp (h w)

/-! ## Deciding by short words -/

/-- Two automata side by side, as one machine: each moves within its own states. -/
def sideBySide (C D : Automaton) : State ⊕ State → Char → State ⊕ State
  | .inl p, c => .inl (C.next p c)
  | .inr q, c => .inr (D.next q c)

theorem foldl_sideBySide_inl : ∀ (w : Word) (p : State),
    w.foldl (sideBySide C D) (.inl p) = .inl (w.foldl C.next p)
  | [], _ => rfl
  | c :: w, p => foldl_sideBySide_inl w (C.next p c)

theorem foldl_sideBySide_inr : ∀ (w : Word) (q : State),
    w.foldl (sideBySide C D) (.inr q) = .inr (w.foldl D.next q)
  | [], _ => rfl
  | c :: w, q => foldl_sideBySide_inr w (D.next q c)

/-- The states of both automata. -/
def bothStates (C D : Automaton) : List (State ⊕ State) :=
  C.states.toList.map .inl ++ D.states.toList.map .inr

theorem length_bothStates (C D : Automaton) : (bothStates C D).length = C.size + D.size := by
  simp [bothStates, size, OrderedSet.size]

theorem inl_mem_bothStates {p : State} : .inl p ∈ bothStates C D ↔ p ∈ C.states := by
  simp [bothStates, OrderedSet.mem_toList]

theorem inr_mem_bothStates {q : State} : .inr q ∈ bothStates C D ↔ q ∈ D.states := by
  simp [bothStates, OrderedSet.mem_toList]

/-- On a word over its alphabet a total automaton answers what its transition function leads
to. -/
theorem accepts_eq_isFinal (hC : C.Total) {i : State} (hi : C.initial = some i) {w : Word}
    (hw : w.Over C.alphabet) : C.accepts w = C.isFinal (w.foldl C.next i) := by
  rw [Bool.eq_iff_iff, accepts_iff, language_eq_languageFrom hi,
    languageFrom_iff_foldl hC (hC.valid.initial_mem i hi), isFinal, decide_eq_true_eq]
  exact and_iff_right hw

/-- A word with other symbols is not accepted. -/
theorem accepts_eq_false_of_not_over (hA : A.Valid) {w : Word} (hw : ¬ w.Over A.alphabet) :
    A.accepts w = false := by
  rw [← Bool.not_eq_true, accepts_iff]
  rintro ⟨p, q, _, _, h⟩
  exact hw (path_symbol_mem hA h)

/-- **Total automata that agree on the words shorter than the number of their states agree on
all words.** -/
theorem accepts_eq_of_short (hC : C.Total) (hD : D.Total) (halph : D.alphabet = C.alphabet)
    {i j : State} (hi : C.initial = some i) (hj : D.initial = some j)
    (h : ∀ w : Word, w.length < C.size + D.size → w.Over C.alphabet →
      C.accepts w = D.accepts w) (w : Word) : C.accepts w = D.accepts w := by
  have hcommon {v : Word} (hv : v.Over C.alphabet) :
      C.accepts v = D.accepts v ↔ C.isFinal (v.foldl C.next i) = D.isFinal (v.foldl D.next j) := by
    rw [accepts_eq_isFinal hC hi hv, accepts_eq_isFinal hD hj (halph ▸ hv)]
  have hclosed : ∀ s ∈ bothStates C D, ∀ c ∈ C.alphabet.toList,
      sideBySide C D s c ∈ bothStates C D := by
    intro s hs c hc
    cases s with
    | inl p => exact inl_mem_bothStates.mpr (next_mem hC (inl_mem_bothStates.mp hs) hc)
    | inr q =>
      have hc : c ∈ D.alphabet := halph ▸ hc
      exact inr_mem_bothStates.mpr (next_mem hD (inr_mem_bothStates.mp hs) hc)
  have hsame : Refinement.Indistinguishable C.alphabet.toList (sideBySide C D)
      (Sum.elim C.isFinal D.isFinal) (.inl i) (.inr j) := by
    refine Refinement.indistinguishable_of_agreeBelow hclosed
      (inl_mem_bothStates.mpr (hC.valid.initial_mem i hi))
      (inr_mem_bothStates.mpr (hD.valid.initial_mem j hj)) fun v hn hv => ?_
    rw [length_bothStates] at hn
    rw [foldl_sideBySide_inl, foldl_sideBySide_inr]
    exact (hcommon hv).mp (h v hn hv)
  by_cases hw : w.Over C.alphabet
  · have hfinal := hsame w hw
    rw [foldl_sideBySide_inl, foldl_sideBySide_inr] at hfinal
    exact (hcommon hw).mpr hfinal
  · rw [accepts_eq_false_of_not_over hC.valid hw,
      accepts_eq_false_of_not_over hD.valid (halph ▸ hw)]

/-- The number of states of the canonical automaton over both alphabets. -/
def canonicalSize (A B : Automaton) : Nat := (A.extended B.alphabet).canonicalize.size

/-- Automata that agree on the words over both alphabets that are not longer than there are
states in their canonical automata agree on all words. -/
theorem accepts_eq_of_upTo (hA : A.Valid) (hB : B.Valid)
    (h : ∀ w : Word, w.length ≤ A.canonicalSize B + B.canonicalSize A →
      w.Over (A.alphabet ∪ B.alphabet) → A.accepts w = B.accepts w) (w : Word) :
    A.accepts w = B.accepts w := by
  have hA' := extended_valid hA B.alphabet
  have hB' := extended_valid hB A.alphabet
  have hcanonical (v : Word) :
      (A.extended B.alphabet).canonicalize.accepts v =
          (B.extended A.alphabet).canonicalize.accepts v ↔ A.accepts v = B.accepts v := by
    rw [accepts_eq_iff, canonicalize_language hA', canonicalize_language hB', language_extended,
      language_extended, accepts_eq_iff]
  rw [← hcanonical]
  refine accepts_eq_of_short (canonicalize_total hA') (canonicalize_total hB') ?_
    (initial_canonicalize hA') (initial_canonicalize hB') (fun v hn hv => ?_) w
  · rw [alphabet_canonicalize, alphabet_canonicalize, alphabet_extended_comm hA hB]
  · rw [alphabet_canonicalize, alphabet_extended hB] at hv
    exact (hcanonical v).mpr (h v (Nat.le_of_lt hn) hv)

/-- The word is the least one of at most `n` symbols from both alphabets on which the automata
disagree. -/
structure LeastDisagreement (A B : Automaton) (n : Nat) (w : Word) : Prop where
  length_le : w.length ≤ n
  over_alphabets : w.Over (A.alphabet ∪ B.alphabet)
  accepts_ne : A.accepts w ≠ B.accepts w
  least : ∀ v : Word, v.length ≤ n → v.Over (A.alphabet ∪ B.alphabet) →
    A.accepts v ≠ B.accepts v → v = w ∨ List.Shortlex (· < ·) w v

theorem firstDisagreement_eq_some_iff {n : Nat} {w : Word} :
    A.firstDisagreement B n = some w ↔ A.LeastDisagreement B n w := by
  rw [firstDisagreement, Word.findUpTo?_eq_some_iff]
  simp only [decide_eq_true_eq]
  constructor
  · rintro ⟨⟨hn, hw⟩, hne, hleast⟩
    exact ⟨hn, hw, hne, hleast⟩
  · rintro ⟨hn, hw, hne, hleast⟩
    exact ⟨⟨hn, hw⟩, hne, hleast⟩

theorem firstDisagreement_eq_none_iff {n : Nat} :
    A.firstDisagreement B n = none ↔
      ∀ w : Word, w.length ≤ n → w.Over (A.alphabet ∪ B.alphabet) →
        A.accepts w = B.accepts w := by
  rw [firstDisagreement, Word.findUpTo?_eq_none_iff]
  simp only [decide_eq_false_iff_not, not_not]

/-- **Deciding equivalence.** The decision by canonical automata says whether the automata accept
the same words; the search finds the least word up to a length on which they disagree; and if it
finds none up to the number of states of both canonical automata, there is none. -/
theorem equivalent_iff_and_firstDisagreement (hA : A.Valid) (hB : B.Valid) :
    (A.equivalent B = true ↔ ∀ w, A.accepts w = B.accepts w) ∧
    (∀ n w, A.firstDisagreement B n = some w ↔ A.LeastDisagreement B n w) ∧
    (∀ n, A.firstDisagreement B n = none ↔
      ∀ w : Word, w.length ≤ n → w.Over (A.alphabet ∪ B.alphabet) →
        A.accepts w = B.accepts w) ∧
    (A.equivalent B = true ↔
      A.firstDisagreement B (A.canonicalSize B + B.canonicalSize A) = none) := by
  refine ⟨equivalent_iff hA hB, fun n w => firstDisagreement_eq_some_iff,
    fun n => firstDisagreement_eq_none_iff, ?_⟩
  rw [equivalent_iff hA hB, firstDisagreement_eq_none_iff]
  constructor
  · exact fun h w _ _ => h w
  · exact accepts_eq_of_upTo hA hB

/-- The automaton that accepts every word over its alphabet. -/
def everyWord (alphabet : OrderedSet Char) : Automaton :=
  { rejecting alphabet ⟨"q"⟩ with finals := .ofList [⟨"q"⟩] }

theorem path_everyWord {alphabet : OrderedSet Char} : ∀ {w : Word}, w.Over alphabet →
    (everyWord alphabet).Path ⟨"q"⟩ w ⟨"q"⟩
  | [], _ => .refl _
  | c :: w, hw => by
    obtain ⟨hc, hw⟩ := Word.over_cons.mp hw
    exact .symbol (mem_edges_rejecting.mpr ⟨c, hc, rfl⟩) (path_everyWord hw)

theorem accepts_everyWord {alphabet : OrderedSet Char} (h : (everyWord alphabet).Valid)
    {w : Word} : (everyWord alphabet).accepts w = true ↔ w.Over alphabet := by
  rw [accepts_iff]
  constructor
  · rintro ⟨p, q, _, _, hpath⟩
    exact path_symbol_mem h hpath
  · intro hw
    exact ⟨⟨"q"⟩, ⟨"q"⟩, rfl, by simp [everyWord], path_everyWord hw⟩

/-- All words over `a` and all words over `a` and `b`: the least word on which these automata
over different alphabets disagree is `b`. -/
theorem firstDisagreement_everyWord :
    (everyWord (.ofList ['a'])).equivalent (everyWord (.ofList ['a', 'b'])) = false ∧
      (everyWord (.ofList ['a'])).firstDisagreement (everyWord (.ofList ['a', 'b'])) 3 =
        some ['b'] := by
  have hA : (everyWord (.ofList ['a'])).Valid := by decide
  have hB : (everyWord (.ofList ['a', 'b'])).Valid := by decide
  have halph : (everyWord (.ofList ['a'])).alphabet ∪ (everyWord (.ofList ['a', 'b'])).alphabet =
      .ofList ['a', 'b'] := by decide
  have hne {w : Word} (hw : w.Over (.ofList ['a', 'b'])) :
      (everyWord (.ofList ['a'])).accepts w ≠ (everyWord (.ofList ['a', 'b'])).accepts w ↔
        ¬ w.Over (.ofList ['a']) := by
    rw [(accepts_everyWord hB).mpr hw, ne_eq, accepts_everyWord hA]
  have hb : Word.Over (.ofList ['a', 'b']) ['b'] := by simp [Word.Over]
  have hdiffer := (hne hb).mpr (by simp [Word.Over])
  obtain ⟨hequivalent, hfirst, -, -⟩ := equivalent_iff_and_firstDisagreement hA hB
  constructor
  · rw [← Bool.not_eq_true, hequivalent]
    exact fun h => hdiffer (h _)
  · refine (hfirst 3 ['b']).mpr ⟨by decide, halph ▸ hb, hdiffer, fun v _ hv hvne => ?_⟩
    rw [halph] at hv
    rw [hne hv] at hvne
    cases v with
    | nil => exact absurd (by simp [Word.Over]) hvne
    | cons c v =>
      cases v with
      | nil =>
        have hc : c = 'a' ∨ c = 'b' := by simpa using (Word.over_cons.mp hv).1
        rcases hc with rfl | rfl
        · exact absurd (by simp [Word.Over]) hvne
        · exact Or.inl rfl
      | cons d v => exact Or.inr (.of_length_lt (by simp))

end Automaton

end RegularLanguages
