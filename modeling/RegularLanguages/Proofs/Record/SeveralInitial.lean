import RegularLanguages.Proofs.Automaton.Acceptance
import RegularLanguages.Proofs.FreshNames
import RegularLanguages.Proofs.Record.Conversion

/-!
# Several initial states are alternatives

A record may have several initial states, an automaton has one at most. So a new state leads to all
of them, under a name that the record does not list. Nothing leads back to it and it is not final:
a run leaves it at once, for one of the initial states of the record, and goes on as it would have
started there.

For every state the words that lead from it to a final state are given in terms of the automaton
without the new state (`startFrom`), and going back along a transition stays within them.

Results:
* `described_eq_startingAt`: the final states make no difference to what is added.
* `languageFrom_startingAt_iff`, `language_startingAt`: what the new state and the old ones mean.
* `startsAnew_startingAt`: the new state is the only one that is added.
* **`accepts_iff_exists_initial_and_startsAnew`**.
-/

namespace RegularLanguages.Record

variable {R : Record} {A : Automaton} {qs : List String} {q : String} {w : Word}

/-- The record with a single initial state. -/
def startingOnlyAt (R : Record) (q : String) : Record := { R with initial := [q] }

/-- The automaton has the named states and one more, at which it starts. This one is not final, and
no transition enters it. -/
structure StartsAnew (names : List String) (A : Automaton) (start : State) : Prop where
  new : start.name ∉ names
  states : ∀ q, q ∈ A.states ↔ q = start ∨ q.name ∈ names
  initial : A.initial = some start
  not_final : start ∉ A.finals
  not_entered : ∀ e ∈ A.edges, e.target ≠ start

/-! ## The new initial state -/

theorem newStart_not_mem (states : OrderedSet State) : newStart states ∉ states :=
  FreshNames.claim_avoiding_not_mem _ _

theorem startingAt_of_several (h : 1 < qs.length) : startingAt A qs =
    { A with
      states := A.states.insert (newStart A.states)
      edges := .ofList (qs.map fun q => ⟨newStart A.states, .epsilon, ⟨q⟩⟩) ∪ A.edges
      initial := some (newStart A.states) } := by
  match qs with
  | p :: q :: qs => rfl

theorem mem_edges_startingAt (h : 1 < qs.length) {e : Edge} : e ∈ (startingAt A qs).edges ↔
    (∃ q ∈ qs, e = ⟨newStart A.states, .epsilon, ⟨q⟩⟩) ∨ e ∈ A.edges := by
  rw [startingAt_of_several h, OrderedSet.mem_union, OrderedSet.mem_ofList, List.mem_map]
  simp only [eq_comm (a := e)]

/-- The words that lead from a state to a final state, if the new one leads to the given states. -/
def startFrom (A : Automaton) (qs : List String) (q : State) : Language :=
  if q = newStart A.states then fun w => ∃ i ∈ qs, A.languageFrom ⟨i⟩ w else A.languageFrom q

theorem startFrom_newStart :
    startFrom A qs (newStart A.states) = fun w => ∃ i ∈ qs, A.languageFrom ⟨i⟩ w := if_pos rfl

theorem startFrom_of_mem {q : State} (hq : q ∈ A.states) :
    startFrom A qs q = A.languageFrom q :=
  if_neg (by rintro rfl; exact newStart_not_mem A.states hq)

theorem languageFrom_startingAt (h : 1 < qs.length) {q : State} (hw : A.languageFrom q w) :
    (startingAt A qs).languageFrom q w :=
  Automaton.languageFrom_mono (fun _ he => (mem_edges_startingAt h).mpr (Or.inr he))
    (fun _ hf => finals_startingAt.symm ▸ hf) hw

/-- Going back along the transitions stays within the words of the states. -/
theorem startFrom_of_languageFrom (hA : A.Valid) (h : 1 < qs.length)
    (hqs : ∀ q ∈ qs, ⟨q⟩ ∈ A.states) {q : State} (hw : (startingAt A qs).languageFrom q w) :
    startFrom A qs q w := by
  refine Automaton.languageFrom_least ?final ?edge hw
  case final =>
    intro q hq
    rw [finals_startingAt] at hq
    rw [startFrom_of_mem (hA.final_mem q hq)]
    exact ⟨q, hq, .refl q⟩
  case edge =>
    intro e he w hw
    rcases (mem_edges_startingAt h).mp he with ⟨i, hi, rfl⟩ | he
    · rw [startFrom_of_mem (hqs i hi)] at hw
      rw [startFrom_newStart]
      exact ⟨i, hi, hw⟩
    · rw [startFrom_of_mem (hA.target_mem e he)] at hw
      rw [startFrom_of_mem (hA.source_mem e he)]
      exact Automaton.languageFrom_of_mem_edges he hw

/-- **What the states mean** once the new one is there. -/
theorem languageFrom_startingAt_iff (hA : A.Valid) (h : 1 < qs.length)
    (hqs : ∀ q ∈ qs, ⟨q⟩ ∈ A.states) {q : State} (hq : q ∈ (startingAt A qs).states) :
    (startingAt A qs).languageFrom q w ↔ startFrom A qs q w := by
  refine ⟨startFrom_of_languageFrom hA h hqs, fun hw => ?_⟩
  rcases mem_states_startingAt.mp hq with hq | ⟨-, rfl⟩
  · rw [startFrom_of_mem hq] at hw
    exact languageFrom_startingAt h hw
  · rw [startFrom_newStart] at hw
    obtain ⟨i, hi, hw⟩ := hw
    exact Automaton.languageFrom_of_mem_edges ((mem_edges_startingAt h).mpr (Or.inl ⟨i, hi, rfl⟩))
      (languageFrom_startingAt h hw)

/-- With a single initial state the words are those that lead from it to a final state. -/
theorem language_startingAt_singleton : (startingAt A [q]).language w ↔ A.languageFrom ⟨q⟩ w := by
  have hinitial : (startingAt A [q]).initial = some ⟨q⟩ := rfl
  rw [Automaton.language_eq_languageFrom hinitial]
  exact Automaton.languageFrom_congr (A := A) (B := startingAt A [q]) rfl rfl

/-- **Several initial states** lead to the words of each of them. -/
theorem language_startingAt (hA : A.Valid) (h : 1 < qs.length) (hqs : ∀ q ∈ qs, ⟨q⟩ ∈ A.states) :
    (startingAt A qs).language w ↔ ∃ q ∈ qs, (startingAt A [q]).language w := by
  have hinitial : (startingAt A qs).initial = some (newStart A.states) := by
    rw [startingAt_of_several h]
  have hstart : newStart A.states ∈ (startingAt A qs).states :=
    mem_states_startingAt.mpr (Or.inr ⟨h, rfl⟩)
  simp only [language_startingAt_singleton]
  rw [Automaton.language_eq_languageFrom hinitial, languageFrom_startingAt_iff hA h hqs hstart,
    startFrom_newStart]

theorem startsAnew_startingAt (hA : A.Valid) (h : 1 < qs.length) (hqs : ∀ q ∈ qs, ⟨q⟩ ∈ A.states)
    {names : List String} (hnames : ∀ q : State, q ∈ A.states ↔ q.name ∈ names) :
    StartsAnew names (startingAt A qs) (newStart A.states) := by
  have hnew {q : State} (hq : q ∈ A.states) : q ≠ newStart A.states :=
    fun he => newStart_not_mem A.states (he ▸ hq)
  constructor
  case new => exact fun hstart => newStart_not_mem A.states ((hnames _).mpr hstart)
  case states =>
    intro q
    rw [mem_states_startingAt, hnames, and_iff_right h, or_comm]
  case initial => rw [startingAt_of_several h]
  case not_final =>
    intro hstart
    rw [finals_startingAt] at hstart
    exact newStart_not_mem A.states (hA.final_mem _ hstart)
  case not_entered =>
    intro e he
    rcases (mem_edges_startingAt h).mp he with ⟨i, hi, rfl⟩ | he
    · exact hnew (hqs i hi)
    · exact hnew (hA.target_mem e he)

/-! ## Records -/

/-- The states, symbols, transitions and final states that a record lists. -/
def withoutInitial (R : Record) : Automaton :=
  { R.listed with finals := .ofList (R.finals.map State.mk) }

/-- The new initial state is chosen and linked as if the final states were there already. -/
theorem described_eq_startingAt (R : Record) :
    R.described = startingAt R.withoutInitial R.initial := by
  unfold described
  match R.initial with
  | [] => rfl
  | [q] => rfl
  | p :: q :: qs => rfl

theorem described_startingOnlyAt (R : Record) (q : String) :
    (R.startingOnlyAt q).described = startingAt R.withoutInitial [q] := rfl

/-- A record that lists its final states fits with any one of its initial states alone. -/
theorem Fits.startingOnlyAt (hR : R.Fits) (hfinals : ∀ q ∈ R.finals, q ∈ R.states)
    (hq : q ∈ R.initial) : (R.startingOnlyAt q).Fits := by
  obtain ⟨hrows, hinitial⟩ := references_iff.mp hR.references
  constructor
  case symbols => exact ⟨hR.symbols.alphabet, hR.symbols.keys⟩
  case references =>
    exact references_iff.mpr ⟨hrows, List.forall_mem_singleton.mpr (hinitial q hq)⟩
  case finals => exact fun f hf => Or.inl (hfinals f hf)

theorem withoutInitial_valid (hR : (R.startingOnlyAt q).Fits) : R.withoutInitial.Valid := by
  have hvalid : (R.startingOnlyAt q).described.Valid :=
    Automaton.toAutomaton_valid (toAutomaton_eq_ok.mpr ⟨hR, rfl⟩)
  exact { hvalid with initial_mem := fun p hp => nomatch hp }

/-- **Several initial states are alternatives.** A record that has several and lists its final
states accepts what it accepts with one of them alone. Besides the states of the record there is
one new initial state, which is not final and which no transition enters. -/
theorem accepts_iff_exists_initial_and_startsAnew (hseveral : 1 < R.initial.length)
    (hfinals : ∀ q ∈ R.finals, q ∈ R.states) (hA : R.toAutomaton = .ok A) :
    (∀ q ∈ R.initial, ∃ B, (R.startingOnlyAt q).toAutomaton = .ok B) ∧
      (∀ w, A.accepts w = true ↔
        ∃ q ∈ R.initial, ∃ B, (R.startingOnlyAt q).toAutomaton = .ok B ∧ B.accepts w = true) ∧
      ∃ start, StartsAnew R.states A start := by
  obtain ⟨hR, rfl⟩ := toAutomaton_eq_ok.mp hA
  have hsingle (q : String) (hq : q ∈ R.initial) :
      (R.startingOnlyAt q).toAutomaton = .ok (startingAt R.withoutInitial [q]) :=
    toAutomaton_eq_ok.mpr ⟨hR.startingOnlyAt hfinals hq, described_startingOnlyAt R q⟩
  have hvalid : R.withoutInitial.Valid := by
    obtain ⟨q, hq⟩ := List.exists_mem_of_length_pos (Nat.zero_lt_of_lt hseveral)
    exact withoutInitial_valid (hR.startingOnlyAt hfinals hq)
  have hmem (q : State) : q ∈ R.withoutInitial.states ↔ q.name ∈ R.states := mem_listedStates
  have hinitial (q : String) (hq : q ∈ R.initial) : ⟨q⟩ ∈ R.withoutInitial.states :=
    (hmem _).mpr ((references_iff.mp hR.references).2 q hq)
  rw [described_eq_startingAt]
  refine ⟨fun q hq => ⟨_, hsingle q hq⟩, fun w => ?_,
    _, startsAnew_startingAt hvalid hseveral hinitial hmem⟩
  rw [Automaton.accepts_iff, language_startingAt hvalid hseveral hinitial]
  refine exists_congr fun q => and_congr_right fun hq => ?_
  rw [hsingle q hq]
  simp only [Except.ok.injEq, exists_eq_left', Automaton.accepts_iff]

/-- One of the states is named as the new one would like to be, and `p` is listed twice as an
initial state. -/
theorem startsAnew_beside_init :
    let R : Record := ⟨["init", "p", "q"], ["a"], [("p", [("a", ["init"])])], ["p", "q", "p"],
      ["q", "init"]⟩
    1 < R.initial.length ∧ (∀ q ∈ R.finals, q ∈ R.states) ∧ ∃ A, R.toAutomaton = .ok A ∧
      (∀ q ∈ R.initial, ∃ B, (R.startingOnlyAt q).toAutomaton = .ok B) ∧
      (∀ w, A.accepts w = true ↔
        ∃ q ∈ R.initial, ∃ B, (R.startingOnlyAt q).toAutomaton = .ok B ∧ B.accepts w = true) ∧
      ∃ start, StartsAnew R.states A start := by
  intro R
  have hfinals : ∀ q ∈ R.finals, q ∈ R.states := by decide
  have hfits : R.Fits := by
    constructor
    case symbols =>
      constructor
      case alphabet => exact fun text ht => ⟨'a', List.mem_singleton.mp ht, by decide⟩
      case keys =>
        intro row hrow entry hentry
        obtain rfl := List.mem_singleton.mp hrow
        obtain rfl := List.mem_singleton.mp hentry
        exact ⟨'a', rfl, Or.inr (by decide)⟩
    case references => decide
    case finals => exact fun q hq => Or.inl (hfinals q hq)
  have hR : R.toAutomaton = .ok R.described := toAutomaton_eq_ok.mpr ⟨hfits, rfl⟩
  exact ⟨by decide, hfinals, _, hR,
    accepts_iff_exists_initial_and_startsAnew (by decide) hfinals hR⟩

end RegularLanguages.Record
