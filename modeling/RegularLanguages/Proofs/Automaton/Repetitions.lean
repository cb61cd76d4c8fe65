import RegularLanguages.Proofs.Automaton.Rational
import RegularLanguages.Proofs.FreshNames
import RegularLanguages.Proofs.Regex.Reading

/-!
# What repetitions accept

A repetition surrounds an automaton with a new initial state and a new final one. A run passes
through the automaton any number of times: from a final state it goes back to the old initial
state or out to the new final one, and its transitions may leave that final state as well. What
remains to be read at an old state is thus the rest of one pass and then any number of further
words (`starFrom`), which is what going back along each kind of transition keeps. Whatever the old
states are called, the two new ones are different from all of them and from each other.

Without an initial state the final states lead nowhere. The language has no word then, and the
repetition only the empty one.

Results:
* `repeated`, `repeated_of_followedBy`: any number of words of a language.
* `languageFrom_star_iff`: what the states of a repetition mean.
* `size_star`: there are two states more.
* **`accepts_star_iff_and_size`**.
-/

namespace RegularLanguages

/-- The words that consist of any number of words of a language, one behind the other. -/
def repeated (L : Language) : Language := fun w =>
  ∃ ws : List Word, (∀ v ∈ ws, L v) ∧ ws.flatten = w

theorem repeated_nil (L : Language) : repeated L [] := ⟨[], List.forall_mem_nil L, rfl⟩

/-- One more word in front. -/
theorem repeated_of_followedBy {L : Language} {w : Word} (h : followedBy L (repeated L) w) :
    repeated L w := by
  obtain ⟨u, _, hu, ⟨ws, hws, rfl⟩, rfl⟩ := h
  exact ⟨u :: ws, List.forall_mem_cons.mpr ⟨hu, hws⟩, rfl⟩

namespace Automaton

variable {A : Automaton} {i q : State} {w : Word}

/-! ## The new states -/

theorem starStart_not_mem (A : Automaton) : A.starEnds.1 ∉ A.states :=
  FreshNames.claim_avoiding_not_mem _ _

theorem starStop_not_mem (A : Automaton) :
    A.starEnds.2 ≠ A.starEnds.1 ∧ A.starEnds.2 ∉ A.states := by
  have h := FreshNames.claim_not_mem ((FreshNames.avoiding A.states.toList).claim ⟨"init"⟩).2
    ⟨"final"⟩
  rwa [FreshNames.mem_used_claim, FreshNames.mem_used_avoiding, not_or] at h

theorem mem_finals_star : q ∈ A.star.finals ↔ q = A.starEnds.2 := by
  show q ∈ OrderedSet.ofList [A.starEnds.2] ↔ _
  rw [OrderedSet.mem_ofList, List.mem_singleton]

theorem size_finals_star (A : Automaton) : A.star.finals.size = 1 :=
  OrderedSet.size_ofList (List.nodup_singleton A.starEnds.2)

theorem size_star (A : Automaton) : A.star.size = A.size + 2 := by
  have hstop : A.starEnds.2 ∉ A.states.insert A.starEnds.1 := by
    rw [OrderedSet.mem_insert, not_or]
    exact starStop_not_mem A
  show ((A.states.insert A.starEnds.1).insert A.starEnds.2).size = _
  rw [OrderedSet.size_insert hstop, OrderedSet.size_insert (starStart_not_mem A)]
  rfl

/-! ## What the states mean -/

/-- The words that lead from a state of a repetition to a final state, if there is an initial
state. -/
def starFrom (A : Automaton) (q : State) : Language :=
  if q ∈ A.states then followedBy (A.languageFrom q) (repeated A.language)
  else if q = A.starEnds.1 then repeated A.language
  else fun w => w = []

theorem starFrom_of_mem (hq : q ∈ A.states) :
    A.starFrom q = followedBy (A.languageFrom q) (repeated A.language) := if_pos hq

theorem starFrom_start : A.starFrom A.starEnds.1 = repeated A.language := by
  rw [starFrom, if_neg (starStart_not_mem A), if_pos rfl]

theorem starFrom_stop : A.starFrom A.starEnds.2 = fun w => w = [] := by
  rw [starFrom, if_neg (starStop_not_mem A).2, if_neg (starStop_not_mem A).1]

/-- A pass that starts at the initial state reads a whole word. -/
theorem repeated_of_initial (hi : A.initial = some i)
    (h : followedBy (A.languageFrom i) (repeated A.language) w) : repeated A.language w := by
  obtain ⟨u, v, hu, hv, rfl⟩ := h
  exact repeated_of_followedBy ⟨u, v, (language_eq_languageFrom hi).mpr hu, hv, rfl⟩

/-- Going back along the transitions of a repetition stays within the words of its states. -/
theorem starFrom_of_languageFrom (hA : A.Valid) (h : A.star.languageFrom q w) :
    A.starFrom q w := by
  refine languageFrom_least ?final ?edge h
  case final =>
    intro q hq
    rw [mem_finals_star.mp hq, starFrom_stop]
  case edge =>
    intro e he w hw
    rcases mem_edges_star.mp he with rfl | ⟨i, hi, rfl | ⟨f, hf, rfl | rfl⟩⟩ | he
    · rw [starFrom_stop] at hw
      subst hw
      rw [starFrom_start]
      exact repeated_nil _
    · rw [starFrom_of_mem (hA.initial_mem i hi)] at hw
      rw [starFrom_start]
      exact repeated_of_initial hi hw
    · -- one pass ends and another one starts
      rw [starFrom_of_mem (hA.initial_mem i hi)] at hw
      rw [starFrom_of_mem (hA.final_mem f hf)]
      exact ⟨[], w, ⟨f, hf, .refl f⟩, repeated_of_initial hi hw, rfl⟩
    · rw [starFrom_stop] at hw
      subst hw
      rw [starFrom_of_mem (hA.final_mem f hf)]
      exact ⟨[], [], ⟨f, hf, .refl f⟩, repeated_nil _, rfl⟩
    · rw [starFrom_of_mem (hA.target_mem e he)] at hw
      rw [starFrom_of_mem (hA.source_mem e he)]
      exact followedBy_append (fun u hu => languageFrom_of_mem_edges he hu) hw

theorem languageFrom_starStop (A : Automaton) : A.star.languageFrom A.starEnds.2 [] :=
  ⟨_, mem_finals_star.mpr rfl, .refl _⟩

theorem mem_edges_star_of_mem {e : Edge} (he : e ∈ A.edges) : e ∈ A.star.edges :=
  mem_edges_star.mpr (Or.inr (Or.inr he))

/-- A final state leads on through any number of passes, by induction on the words that they
read. -/
theorem languageFrom_star_of_final (hi : A.initial = some i) (h : repeated A.language w) :
    ∀ f ∈ A.finals, A.star.languageFrom f w := by
  obtain ⟨ws, hws, rfl⟩ := h
  induction ws with
  | nil =>
    intro f hf
    have hout : ⟨f, .epsilon, A.starEnds.2⟩ ∈ A.star.edges :=
      mem_edges_star.mpr (Or.inr (Or.inl ⟨i, hi, Or.inr ⟨f, hf, Or.inr rfl⟩⟩))
    exact languageFrom_of_mem_edges hout (languageFrom_starStop A)
  | cons u ws ih =>
    intro f hf
    obtain ⟨hu, hws⟩ := List.forall_mem_cons.mp hws
    have hback : ⟨f, .epsilon, i⟩ ∈ A.star.edges :=
      mem_edges_star.mpr (Or.inr (Or.inl ⟨i, hi, Or.inr ⟨f, hf, Or.inl rfl⟩⟩))
    exact languageFrom_of_mem_edges hback (languageFrom_append_of_finals
      (fun _ => mem_edges_star_of_mem) ((language_eq_languageFrom hi).mp hu) (ih hws))

theorem languageFrom_star_of_mem (hi : A.initial = some i)
    (h : followedBy (A.languageFrom q) (repeated A.language) w) : A.star.languageFrom q w := by
  obtain ⟨u, v, hu, hv, rfl⟩ := h
  exact languageFrom_append_of_finals (fun _ => mem_edges_star_of_mem) hu
    (languageFrom_star_of_final hi hv)

theorem languageFrom_starStart (h : repeated A.language w) :
    A.star.languageFrom A.starEnds.1 w := by
  obtain ⟨ws, hws, rfl⟩ := h
  cases ws with
  | nil =>
    have hpast : ⟨A.starEnds.1, .epsilon, A.starEnds.2⟩ ∈ A.star.edges :=
      mem_edges_star.mpr (Or.inl rfl)
    exact languageFrom_of_mem_edges hpast (languageFrom_starStop A)
  | cons u ws =>
    obtain ⟨hu, hws⟩ := List.forall_mem_cons.mp hws
    obtain ⟨i, hi, hu⟩ := language_iff.mp hu
    have hin : ⟨A.starEnds.1, .epsilon, i⟩ ∈ A.star.edges :=
      mem_edges_star.mpr (Or.inr (Or.inl ⟨i, hi, Or.inl rfl⟩))
    exact languageFrom_of_mem_edges hin
      (languageFrom_star_of_mem hi ⟨u, ws.flatten, hu, ⟨ws, hws, rfl⟩, rfl⟩)

/-- **What the states of a repetition mean**, with an initial state. -/
theorem languageFrom_star_iff (hA : A.Valid) (hi : A.initial = some i) (hq : q ∈ A.star.states) :
    A.star.languageFrom q w ↔ A.starFrom q w := by
  refine ⟨starFrom_of_languageFrom hA, fun h => ?_⟩
  rcases mem_states_star.mp hq with rfl | rfl | hq
  · rw [starFrom_stop] at h
    subst h
    exact languageFrom_starStop A
  · rw [starFrom_start] at h
    exact languageFrom_starStart h
  · rw [starFrom_of_mem hq] at h
    exact languageFrom_star_of_mem hi h

/-! ## Acceptance -/

theorem star_language (hA : A.Valid) : A.star.language w ↔ repeated A.language w := by
  have hstart : A.star.initial = some A.starEnds.1 := rfl
  rw [language_eq_languageFrom hstart]
  constructor
  · intro h
    have hfrom := starFrom_of_languageFrom hA h
    rwa [starFrom_start] at hfrom
  · exact languageFrom_starStart

/-- **A repetition accepts what any number of accepted words form**, one behind the other. It has
one final state, and two states more than the automaton. -/
theorem accepts_star_iff_and_size (hA : A.Valid) :
    (∀ w, A.star.accepts w = true ↔
      ∃ ws : List Word, (∀ v ∈ ws, A.accepts v = true) ∧ ws.flatten = w) ∧
      A.star.finals.size = 1 ∧ A.star.size = A.size + 2 := by
  refine ⟨fun w => ?_, size_finals_star A, size_star A⟩
  simp only [accepts_iff]
  exact star_language hA

/-- The words of `a` and `b` in turn that start with `a`. The initial state is called `init`, is
final and is entered again, and the other state is called `final`. -/
def inTurn : Automaton where
  states := .ofList [⟨"init"⟩, ⟨"final"⟩]
  alphabet := .ofList ['a', 'b']
  edges := .ofList [⟨⟨"init"⟩, .symbol 'a', ⟨"final"⟩⟩, ⟨⟨"final"⟩, .symbol 'b', ⟨"init"⟩⟩]
  initial := some ⟨"init"⟩
  finals := .ofList [⟨"init"⟩, ⟨"final"⟩]

theorem accepts_inTurn_singleton : inTurn.accepts ['a'] = true :=
  accepts_iff.mpr ⟨⟨"init"⟩, ⟨"final"⟩, rfl, by decide, .symbol (by decide) (.refl _)⟩

theorem not_accepts_inTurn_cons (v : Word) : ¬ inTurn.accepts ('b' :: v) = true := by
  rw [accepts_iff]
  rintro ⟨p, r, hp, -, h⟩
  obtain rfl := Option.some.inj hp
  obtain ⟨q, he, -⟩ := (path_cons_iff_of_epsilonFree (by simp [inTurn])).mp h
  exact absurd he (by simp [inTurn])

/-- Two passes read `aa`, and no number of passes reads `b`. -/
theorem star_inTurn :
    inTurn.star.accepts ['a', 'a'] = true ∧ inTurn.star.accepts ['b'] = false ∧
      inTurn.star.finals.size = 1 ∧ inTurn.star.size = 4 := by
  obtain ⟨haccepts, hfinals, hsize⟩ := accepts_star_iff_and_size (A := inTurn) (by decide)
  refine ⟨(haccepts _).mpr ⟨[['a'], ['a']], ?_, rfl⟩, ?_, hfinals, hsize⟩
  · simp [accepts_inTurn_singleton]
  · rw [← Bool.not_eq_true, haccepts]
    rintro ⟨ws, hws, h⟩
    -- the first word that is not empty starts with `b`
    obtain ⟨before, v, behind, rfl, -⟩ := List.flatten_eq_cons_iff.mp h
    exact not_accepts_inTurn_cons v (hws _ (by simp))

end Automaton

end RegularLanguages
